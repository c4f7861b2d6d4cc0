import Fibers.Calls
import Fibers.Lib.Run

/-!
# The calls taken apart

`do_convert_thread_to_fiber`, `do_create_fiber` and `do_switch_to_fiber` run in many
threads at once. Here each of them is a sequence of pieces, one for every statement
that reads or writes a shared record, and the pieces of different threads interleave
in any order. A `Frame` says which piece a thread executes next and holds the local
variables of the call; a thread between calls is in `Frame.user`.

Insertions into the three hash tables are one piece each, as are the lookups, and
`kmalloc` succeeds: a call whose allocation fails follows an invalid pointer and does
not return.

## Main definitions

- `piece` — what the next piece of a thread does to its group
- `tick` — the next piece of a thread, as a transition of the whole system
- `Step` — the transitions: pieces, whole calls, user code and cleanups
-/

namespace Fibers

/-- Who runs the shared code of `spin_trylock` and the state check. -/
inductive Caller
  | convert
  | switch
  deriving DecidableEq

/-- The next piece of a thread. In the frames of an activation, `old` is the fiber that a
switch leaves, and `none` in a convert. -/
inductive Frame
  | user
  | convertGroup
  | convertThread
  | convertFiber
  | createLookup (a : FibArgs)
  | createFiber (a : FibArgs)
  | createStack (f : ℤ) (a : FibArgs)
  | createContext (f : ℤ) (a : FibArgs)
  | switchThread (next : ℤ)
  | switchTarget (next : ℤ)
  | trylock (c : Caller) (f : ℤ)
  | check (c : Caller) (f : ℤ)
  | fail (c : Caller) (f : ℤ)
  | switchOld (new : ℤ)
  | activateState (old : Option ℤ) (new : ℤ)
  | activateRead (old : Option ℤ) (new : ℤ)
  | activateWrite (old : Option ℤ) (new : ℤ) (n : Word)
  | activateTime (old : Option ℤ) (new : ℤ)
  | activateCurrent (old : Option ℤ) (new : ℤ)
  | saveRegs (old new : ℤ)
  | saveFpu (old new : ℤ)
  | account (old new : ℤ)
  | clearState (old new : ℤ)
  | unlock (old new : ℤ)
  | loadRegs (new : ℤ)
  | loadFpu (new : ℤ)
  deriving DecidableEq

/-- A call that user code makes. -/
inductive Call
  | convert
  | create (a : FibArgs)
  | switch (next : ℤ)
  deriving DecidableEq

def Call.entry : Call → Frame
  | .convert => .convertGroup
  | .create a => .createLookup a
  | .switch next => .switchThread next

/-! ## One piece on its group -/

/-- The effect of one piece: the group, the processor state of the thread, where the thread is
then, and the result if the call has returned. -/
structure Piece where
  tg : ThreadGroup
  cpu : Cpu
  frame : Frame
  result : Option Ret

def Piece.goto (tg : ThreadGroup) (cpu : Cpu) (fr : Frame) : Piece := ⟨tg, cpu, fr, none⟩

def Piece.ret (tg : ThreadGroup) (cpu : Cpu) (r : Ret) : Piece :=
  ⟨tg, cpu.setReturn r, .user, some r⟩

/-- The group after `generate_thread` succeeded. -/
def addThread (tg : ThreadGroup) (pid : ℤ) : ThreadGroup := (generateThread true tg pid).1

/-- The next piece of the thread `pid` in its group. There is none when a local variable of the
frame points to no record. -/
def piece (tg : ThreadGroup) (pid : ℤ) (cpu : Cpu) : Frame → Option Piece
  | .user => none
  | .convertGroup => none
  | .convertThread =>
    match getThread pid tg with
    | some _ => some (.ret tg cpu (.error .EEXIST))
    | none => some (.goto (addThread tg pid) cpu .convertFiber)
  | .convertFiber =>
    (getThread pid tg).map fun t =>
      .goto (addFiber tg t cpu) cpu (.trylock .convert (newFiber tg t cpu).fid)
  | .createLookup a =>
    match getThread pid tg with
    | none => some (.ret tg cpu (.error .ESRCH))
    | some _ => some (.goto tg cpu (.createFiber a))
  | .createFiber a =>
    (getThread pid tg).map fun t =>
      .goto (addFiber tg t cpu) cpu (.createStack (newFiber tg t cpu).fid a)
  | .createStack fid a =>
    (getFiber fid tg).map fun _ =>
      .goto (tg.onFiber fid (Fiber.allocStack a)) cpu (.createContext fid a)
  | .createContext fid a =>
    (getFiber fid tg).map fun _ => .ret (tg.onFiber fid (Fiber.allocContext a)) cpu (.ok fid)
  | .switchThread next =>
    match getThread pid tg with
    | none => some (.ret tg cpu (.error .ESRCH))
    | some _ => some (.goto tg cpu (.switchTarget next))
  | .switchTarget next =>
    match getFiber next tg with
    | none => some (.ret tg cpu (.error .ESRCH))
    | some _ => some (.goto tg cpu (.trylock .switch next))
  | .trylock c fid =>
    (getFiber fid tg).map fun f =>
      if f.flock then .goto tg cpu (.fail c fid)
      else .goto (tg.onFiber fid Fiber.lock) cpu (.check c fid)
  | .check c fid =>
    (getFiber fid tg).map fun f =>
      if f.info.state ≠ 0 then .goto tg cpu (.fail c fid)
      else
        match c with
        | .convert => .goto tg cpu (.activateState none fid)
        | .switch => .goto tg cpu (.switchOld fid)
  | .fail _ fid =>
    (getFiber fid tg).map fun _ => .ret (tg.onFiber fid Fiber.countFailure) cpu (.error .EAGAIN)
  | .switchOld fid =>
    (getThread pid tg).map fun t =>
      match getFiber t.currentFid tg with
      | none => .ret tg cpu (.error .ESRCH)
      | some _ => .goto tg cpu (.activateState (some t.currentFid) fid)
  -- ACTIVATE_FIBER_FROM_THREAD, with the increment split into its read and its write
  | .activateState old fid =>
    (getFiber fid tg).map fun _ =>
      .goto (tg.onFiber fid (Fiber.setState pid)) cpu (.activateRead old fid)
  | .activateRead old fid =>
    (getFiber fid tg).map fun f =>
      .goto tg cpu (.activateWrite old fid f.info.successfulActivations)
  | .activateWrite old fid n =>
    (getFiber fid tg).map fun _ =>
      .goto (tg.onFiber fid (Fiber.setSuccessful (n + 1))) cpu (.activateTime old fid)
  | .activateTime old fid =>
    (getFiber fid tg).map fun _ =>
      .goto (tg.onFiber fid (Fiber.setActivationTime cpu.utime)) cpu (.activateCurrent old fid)
  | .activateCurrent old fid =>
    (getThread pid tg).map fun _ =>
      match old with
      | none => .ret (tg.onThread pid (Thread.setCurrent fid)) cpu (.ok fid)
      | some o => .goto (tg.onThread pid (Thread.setCurrent fid)) cpu (.saveRegs o fid)
  | .saveRegs old fid =>
    (getFiber old tg).map fun _ =>
      .goto (tg.onFiber old (Fiber.saveRegs cpu.regs)) cpu (.saveFpu old fid)
  | .saveFpu old fid =>
    (getFiber old tg).map fun _ =>
      .goto (tg.onFiber old (Fiber.saveFpu cpu.fpu)) cpu (.account old fid)
  | .account old fid =>
    (getFiber old tg).map fun _ =>
      .goto (tg.onFiber old (Fiber.addRunningTime cpu.utime)) cpu (.clearState old fid)
  | .clearState old fid =>
    (getFiber old tg).map fun _ =>
      .goto (tg.onFiber old (Fiber.setState 0)) cpu (.unlock old fid)
  | .unlock old fid =>
    (getFiber old tg).map fun _ => .goto (tg.onFiber old Fiber.unlock) cpu (.loadRegs fid)
  | .loadRegs fid =>
    (getFiber fid tg).map fun f => .goto tg { cpu with regs := f.context.regs } (.loadFpu fid)
  | .loadFpu fid =>
    (getFiber fid tg).map fun f => .ret tg { cpu with fpu := f.context.fpu } (.ok 0)

/-! ## The system -/

/-- The registry, where each thread is, and its processor state. -/
structure Cfg where
  groups : Groups
  frame : Task → Frame
  cpu : Task → Cpu

/-- No group, and every thread in user code. -/
def Cfg.initial (hash : ℤ → Bucket) (cpu : Task → Cpu) : Cfg where
  groups := .init hash
  frame := fun _ => .user
  cpu := cpu

def Cfg.commit (s : Cfg) (t : Task) (p : Piece) : Cfg where
  groups := storeGroup s.groups p.tg
  frame := Function.update s.frame t p.frame
  cpu := Function.update s.cpu t p.cpu

/-- The caller is back in user code with the result in its return-value register. -/
def Cfg.return (s : Cfg) (t : Task) (r : Ret) : Cfg :=
  { s with
    frame := Function.update s.frame t .user
    cpu := Function.update s.cpu t ((s.cpu t).setReturn r) }

/-- The groups after the section under `plock`. -/
def lookupOrGenerate (groups : Groups) (tgid : ℤ) : Groups := (getOrGenerateGroup true groups tgid).1

/-- The frames that begin with a lookup of the caller's group. -/
def Frame.looksUpGroup : Frame → Bool
  | .createLookup _ => true
  | .switchThread _ => true
  | _ => false

/-- The next piece of `t`, with the result of its call if that returns. -/
def tick (s : Cfg) (t : Task) : Option (Cfg × Option Ret) :=
  match s.frame t with
  | .convertGroup =>
    some ({ s with
      groups := lookupOrGenerate s.groups t.tgid
      frame := Function.update s.frame t .convertThread }, none)
  | fr =>
    match getGroup t.tgid s.groups with
    | none =>
      if fr.looksUpGroup then some (s.return t (.error .ESRCH), some (.error .ESRCH)) else none
    | some tg => (piece tg t.pid (s.cpu t) fr).map fun p => (s.commit t p, p.result)

/-- What can happen next. -/
inductive Action
  /-- user code changes the registers of its thread -/
  | user (t : Task) (cpu : Cpu)
  /-- user code enters a call, to be executed piece by piece -/
  | call (t : Task) (c : Call)
  /-- the next piece of a call -/
  | tick (t : Task)
  /-- a whole convert in one step -/
  | convert (t : Task) (k : Kmalloc)
  /-- a whole create in one step -/
  | create (t : Task) (k : Kmalloc) (a : FibArgs)
  /-- the cleanup of a process -/
  | cleanup (tgid : ℤ)
  deriving DecidableEq

/-- A call made in one step returns with its group and result. -/
def Cfg.whole (s : Cfg) (t : Task) (o : Option (Groups × Ret)) : Option (Cfg × Option Ret) :=
  o.map fun (groups, r) =>
    ({ s with groups := groups, cpu := Function.update s.cpu t ((s.cpu t).setReturn r) }, some r)

/-- The effect of an action, with the result of the call that it ends, if any. -/
def step (s : Cfg) : Action → Option (Cfg × Option Ret)
  | .user t cpu =>
    if s.frame t = .user then some ({ s with cpu := Function.update s.cpu t cpu }, none) else none
  | .call t c =>
    if s.frame t = .user then
      some ({ s with frame := Function.update s.frame t c.entry }, none)
    else none
  | .tick t => tick s t
  | .convert t k =>
    if s.frame t = .user then s.whole t (doConvertThreadToFiber k s.groups t (s.cpu t)) else none
  | .create t k a =>
    if s.frame t = .user then s.whole t (doCreateFiber k s.groups t (s.cpu t) a) else none
  | .cleanup tgid => some ({ s with groups := cleanupProcess s.groups tgid }, none)

/-- Fewer than 2^31 fibers in every group. -/
def FewFibers (groups : Groups) : Prop :=
  ∀ tgid tg, getGroup tgid groups = some tg → tg.fibers.size < 2 ^ 31

/-- A transition by an action of the allowed kind. A cleanup does not overlap a call of the
group it cleans up, and no group reaches 2^31 fibers. -/
structure Step (allowed : Action → Prop) (s : Cfg) (a : Action) (s' : Cfg) : Prop where
  allowed : allowed a
  fires : ∃ r, step s a = some (s', r)
  alone : ∀ tgid, a = .cleanup tgid → ∀ pid, s.frame ⟨tgid, pid⟩ = .user
  few : FewFibers s'.groups

/-- What happened in a run, the latest step first. -/
abbrev History := List (Entry Cfg Action)

end Fibers
