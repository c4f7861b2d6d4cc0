import Fibers.Testbed.MainLoop

/-!
# The testbed as a whole

`main.c` over the local storage of `ult.c`. The main thread creates `num_fibers` fibers, the first of
which it becomes itself, and the other threads wait for it. Each fiber allocates two slots of the one
array `fls`, which all fibers share, and keeps its queue and the state of its cell behind them. A
fiber that has left its loop adds its time to `exec_millis` and takes itself off `completed_fibers`;
the first fiber waits for all others and ends the program.

The steps of all fibers interleave: a fiber may go on in any state, since the library leaves open
when a switch to it succeeds. The signal handler may switch from anywhere. A pass through the loop is
one step; as it turns out, it only touches memory that no other fiber knows.

`malloc` succeeds and returns an address that is not in use. A quotient or a width that does not fit
is an end of its own. What a switch does inside the library is left out, with the null `current` of a
thread that gets a signal before its `ConvertThreadToFiber`. The records of the channels of a cell are
reached through its state, and are kept with it.

## Main definitions

- `State.step` — the next step of the main thread, of a fiber, or a call of `SwitchToFiber`
- `Memory.worker` — what a fiber finds in its slots
-/

namespace Fibers.Testbed.Program

open Cell (Msg LpState Draws)
open DoublyLinked (Heap)
open MainLoop (Worker)

/-! ## Data -/

/-- `MAX_FLS`. -/
def maxFls : ℕ := 4096

/-- How the program ends. -/
inductive End
  /-- "All fibers are done!" -/
  | success
  /-- "No more FLS storage available, aborting..." -/
  | noStorage
  | loop (f : MainLoop.Fault)
  /-- a null pointer in place of a queue or a cell -/
  | pointer
  deriving DecidableEq

/-- Where a fiber is in `main_loop`, with the slots that it has allocated. -/
inductive Pc
  /-- created, but nobody has switched to it -/
  | created
  /-- the main thread before its call of `main_loop` -/
  | main
  | begun
  | oneIndex (q : Option ℕ)
  | indices (q st : ℕ)
  | stored (q st : ℕ)
  | looping (q st : ℕ)
  /-- behind the loop -/
  | left (q st : ℕ)
  /-- behind the addition to `exec_millis` -/
  | timed (q st : ℕ) (millis : BitVec 32)
  /-- behind the subtraction from `completed_fibers` -/
  | done (q st : ℕ) (millis : BitVec 32)
  deriving DecidableEq

/-- Where the main thread is before its call of `main_loop`. -/
inductive MainPc
  | start
  /-- in the loop that creates the fibers -/
  | creating (k : ℕ)
  /-- behind the calls of `signal` and `alarm` -/
  | armed
  | running
  deriving DecidableEq

/-- A pass is the last one, or not. -/
def Pc.afterPass (q st : ℕ) : Bool → Pc
  | true => .left q st
  | false => .looping q st

/-- The memory that the fibers share. -/
structure Memory where
  /-- `fls`; `none` is the null pointer -/
  fls : ℕ → Option ℕ
  queue : ℕ → Option (Calqueue (Msg ℚ))
  cell : ℕ → Option (LpState ℚ × Heap ℕ)

structure State where
  mem : Memory
  flsIdx : ℕ
  completedFibers : BitVec 32
  execMillis : BitVec 64
  initComplete : Bool
  /-- the array of pointers, with the argument of the fiber at each of them -/
  fibers : ℕ → Option ℕ
  main : MainPc
  pc : ℕ → Pc
  ended : Option End

/-- The program before its first step. -/
def initial : State where
  mem := ⟨fun _ => none, fun _ => none, fun _ => none⟩
  flsIdx := 0
  completedFibers := 0
  execMillis := 0
  initComplete := false
  fibers := fun _ => none
  main := .start
  pc := fun id => if id = 1 then .main else .created
  ended := none

/-! ## Steps -/

/-- The fiber has nothing left to do. -/
def Pc.isDone : Pc → Bool
  | .done _ _ _ => true
  | _ => false

/-- The slots that a fiber has been given. -/
def Pc.slots : Pc → List ℕ
  | .created | .main | .begun | .oneIndex none => []
  | .oneIndex (some q) => [q]
  | .indices q st | .stored q st | .looping q st | .left q st | .timed q st _ | .done q st _ => [q, st]

/-- The slot with the queue, once it is filled. -/
def Pc.queueSlot : Pc → Option ℕ
  | .stored q _ | .looping q _ | .left q _ | .timed q _ _ | .done q _ _ => some q
  | _ => none

/-- The slot with the state of the cell, once it is filled. -/
def Pc.stateSlot : Pc → Option ℕ
  | .looping _ st | .left _ st | .timed _ st _ | .done _ st _ => some st
  | _ => none

/-- The state of a cell behind a pointer from `fls`. -/
def Memory.cellOf (m : Memory) (st : ℕ) : Option (Option (LpState ℚ) × Heap ℕ) :=
  match m.fls st with
  | none => some (none, fun _ => none)
  | some b => (m.cell b).map fun c => (some c.1, c.2)

/-- The queue and the cell that a fiber finds in its slots. -/
def Memory.load (m : Memory) (q st : ℕ) (done : Bool) : Option Worker := do
  let queue ← (m.fls q).bind m.queue
  let (state, heap) ← m.cellOf st
  return ⟨queue, state, heap, done⟩

/-- What a fiber works on. -/
def Memory.worker (m : Memory) : Pc → Option Worker
  | .looping q st => m.load q st false
  | .left q st | .timed q st _ | .done q st _ => m.load q st true
  | _ => none

def Memory.setQueue (m : Memory) (q : ℕ) (queue : Calqueue (Msg ℚ)) : Memory :=
  match m.fls q with
  | none => m
  | some a => { m with queue := Function.update m.queue a (some queue) }

/-- The address of the state that an `INIT` event allocates. -/
def allocated (m : Msg ℚ) (b : ℕ) : Option ℕ := if m.type = .INIT then some b else none

/-- What a pass leaves behind; an `INIT` event has allocated a state at `b`, which is stored. -/
def Memory.store (m : Memory) (q st : ℕ) (w : Worker) (allocated : Option ℕ) : Memory :=
  let m := m.setQueue q w.queue
  let m := match allocated with
    | none => m
    | some b => { m with fls := Function.update m.fls st (some b) }
  match m.fls st with
  | none => m
  | some a => { m with cell := Function.update m.cell a (w.state.map (·, w.heap)) }

def State.setPc (s : State) (id : ℕ) (pc : Pc) : State :=
  { s with pc := Function.update s.pc id pc }

def State.finish (s : State) (e : End) : State := { s with ended := some e }

/-- The index that `fls_alloc` makes of the old value of `fls_idx`; `none` is -1. -/
def slotAt (k : ℕ) : Option ℕ := if k < maxFls then some k else none

/-- `fls_alloc`. -/
def State.flsAlloc (s : State) : Option ℕ × State :=
  (slotAt s.flsIdx, { s with flsIdx := s.flsIdx + 1 })

/-- Who calls `SwitchToFiber`. -/
inductive Caller
  /-- `thread_initialization` -/
  | thread
  /-- `schedule`, called behind the work of a fiber -/
  | fiber (id : ℕ)
  /-- `schedule` as the handler of `SIGALRM` -/
  | handler
  deriving DecidableEq

/-- What the next step of a fiber finds. -/
inductive FiberAct
  | alloc
  | store (addr : ℕ) (mem : Calqueue (Msg ℚ))
  | start (memory : Msg ℚ)
  | pass (a : Msg ℚ × Draws ℚ) (b : ℕ)
  | time (millis : BitVec 32)
  | subtract
  /-- the first fiber finds `completed_fibers` at zero -/
  | exit

inductive Act
  | main
  | switch (caller : Caller) (f : ℕ) (entered : Bool)
  | fiber (id : ℕ) (a : FiberAct)

/-- The signal handler is installed. -/
def MainPc.ready (p : MainPc) : Bool := p = .armed ∨ p = .running

def State.maySwitch (s : State) : Caller → Bool
  | .thread => s.initComplete
  | .fiber id => id ≠ 1 ∧ (s.pc id).isDone = true
  | .handler => s.main.ready

/-- `main` up to its call of `main_loop`. -/
def State.mainStep (n : ℕ) (s : State) : Option State :=
  match s.main with
  | .start => some { s with completedFibers := BitVec.ofNat 32 n, main := .creating 0 }
  | .creating k =>
    if k < n then
      -- the argument of the fiber at an index is one more than the index
      some { s with fibers := Function.update s.fibers k (some (k + 1)), main := .creating (k + 1) }
    else some { s with main := .armed }
  | .armed => some ({ s with initComplete := true, main := .running }.setPc 1 .begun)
  | .running => none

/-- `SwitchToFiber(fibers[f])`; a fiber that is entered for the first time begins `main_loop`. -/
def State.switchTo (s : State) (f : ℕ) (entered : Bool) : State :=
  match s.fibers f with
  | none => s
  | some id => if entered ∧ s.pc id = .created then s.setPc id .begun else s

/-- One pass through the loop of `main_loop`. -/
def State.pass (s : State) (id q st : ℕ) (a : Msg ℚ × Draws ℚ) (b : ℕ) : Option State :=
  match s.mem.load q st false with
  | none => some (s.finish .pointer)
  | some w =>
    if w.heap a.2.addr = none ∧ 0 ≤ a.2.first ∧ 0 ≤ a.2.second ∧ s.mem.cell b = none then
      match MainLoop.iterate id w a.2 with
      | .error f => some (s.finish (.loop f))
      | .ok (m, w') =>
        if m = a.1 then
          some ({ s with mem := s.mem.store q st w' (allocated m b) }.setPc id
            (.afterPass q st w'.done))
        else none
    else none

/-- The next step of the fiber that was created with the argument `id`. -/
def State.fiberStep (s : State) (id : ℕ) (a : FiberAct) : Option State :=
  match s.pc id, a with
  | .begun, .alloc =>
    let (q, s) := s.flsAlloc
    some (s.setPc id (.oneIndex q))
  | .oneIndex q, .alloc =>
    let (st, s) := s.flsAlloc
    match q, st with
    | some q, some st => some (s.setPc id (.indices q st))
    | _, _ => some (s.finish .noStorage)
  | .indices q st, .store addr mem =>
    if s.mem.queue addr = none then
      some ({ s with mem := { s.mem with
        queue := Function.update s.mem.queue addr (some mem)
        fls := Function.update s.mem.fls q (some addr) } }.setPc id (.stored q st))
    else none
  | .stored q st, .start memory =>
    match (s.mem.fls q).bind s.mem.queue with
    | none => some (s.finish .pointer)
    | some mem =>
      match MainLoop.start id mem memory with
      | .error f => some (s.finish (.loop f))
      | .ok w =>
        let m := s.mem.setQueue q w.queue
        some ({ s with mem := { m with fls := Function.update m.fls st none } }.setPc id
          (.looping q st))
  | .looping q st, .pass a b => s.pass id q st a b
  | .left q st, .time millis =>
    some ({ s with execMillis := s.execMillis + millis.setWidth 64 }.setPc id (.timed q st millis))
  | .timed q st millis, .subtract =>
    some ({ s with completedFibers := s.completedFibers - 1 }.setPc id (.done q st millis))
  | .done _ _ _, .exit =>
    if id = 1 ∧ s.completedFibers = 0 then some (s.finish .success) else none
  | _, _ => none

def State.step (n : ℕ) (s : State) (a : Act) : Option State :=
  if s.ended ≠ none then none
  else
    match a with
    | .main => s.mainStep n
    | .switch caller f entered =>
      if f < n ∧ s.maySwitch caller = true then some (s.switchTo f entered) else none
    | .fiber id a => s.fiberStep id a

/-- A step of the program with `n` fibers. -/
def Step (n : ℕ) (s : State) (a : Act) (s' : State) : Prop := s.step n a = some s'

abbrev History := List (Entry State Act)

end Fibers.Testbed.Program
