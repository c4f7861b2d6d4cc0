import Fibers.Registry

/-!
# The `do_*` functions

Each function of `fiber.c` that the device dispatches to, run from its call to its
return with no other thread in between. `Fibers.Interleaving` takes the same functions
apart into the pieces that other threads can interleave with.

`doConvertThreadToFiber` and `doCreateFiber` allocate: they take the outcome of each
`kmalloc` and have no result when they follow a pointer that leads to no live record.
-/

namespace Fibers

/-! ## Convert, create and switch -/

/-- Whether each `kmalloc` of one call succeeds. -/
structure Kmalloc where
  group : Bool
  thread : Bool
  fiber : Bool
  deriving DecidableEq

def Kmalloc.succeeds : Kmalloc := ⟨true, true, true⟩

/-- `spin_trylock(&f->flock)` and then the check that `info.state` is 0. A lock that was
taken stays taken when the check fails. -/
def tryEnter (tg : ThreadGroup) (f : Fiber) : ThreadGroup × Bool :=
  if f.flock then (tg, false) else (tg.onFiber f.fid Fiber.lock, f.info.state = 0)

/-- `ACTIVATE_FIBER_FROM_THREAD`. -/
def activateFiberFromThread (tg : ThreadGroup) (fid pid : ℤ) (utime : Word) : ThreadGroup :=
  (tg.onFiber fid (fun f =>
    ((f.setState pid).setSuccessful (f.info.successfulActivations + 1)).setActivationTime
      utime)).onThread pid (Thread.setCurrent fid)

/-- The lookup or creation of the caller's group under `plock`. -/
def getOrGenerateGroup (kmalloc : Bool) (groups : Groups) (tgid : ℤ) : Groups × Except Errno ℤ :=
  match getGroup tgid groups with
  | some _ => (groups, .ok tgid)
  | none => generateGroup kmalloc groups tgid

def doConvertThreadToFiber (k : Kmalloc) (groups : Groups) (tsk : Task) (cpu : Cpu) :
    Option (Groups × Ret) :=
  let (groups, tg) := getOrGenerateGroup k.group groups tsk.tgid
  match derefGroup groups tg with
  | none => none
  | some tg =>
    match getThread tsk.pid tg with
    | some _ => some (groups, .error .EEXIST)
    | none =>
      let (tg, t) := generateThread k.thread tg tsk.pid
      match generateFiber k.fiber tg t cpu with
      | none => none
      | some (tg, f) =>
        match derefFiber tg f with
        | none => none
        | some f =>
          match tryEnter tg f with
          | (tg, false) =>
            some (storeGroup groups (tg.onFiber f.fid Fiber.countFailure), .error .EAGAIN)
          | (tg, true) =>
            some (storeGroup groups (activateFiberFromThread tg f.fid tsk.pid cpu.utime),
              .ok f.fid)

/-- The registry after the first call of a process. -/
def oneFiber : Groups :=
  (doConvertThreadToFiber .succeeds (.init hashZero) ⟨1, 1⟩ default).elim (.init hashZero) Prod.fst

def doCreateFiber (k : Kmalloc) (groups : Groups) (tsk : Task) (cpu : Cpu) (a : FibArgs) :
    Option (Groups × Ret) :=
  match getGroup tsk.tgid groups with
  | none => some (groups, .error .ESRCH)
  | some tg =>
    match getThread tsk.pid tg with
    | none => some (groups, .error .ESRCH)
    | some t =>
      match generateFiber k.fiber tg (.ok t.pid) cpu with
      | none => none
      | some (tg, f) =>
        match derefFiber tg f with
        | none => none
        | some f =>
          let tg := tg.onFiber f.fid (Fiber.allocStack a)
          some (storeGroup groups (tg.onFiber f.fid (Fiber.allocContext a)), .ok f.fid)

/-- The part of `do_switch_to_fiber` after the last check: activation, saving and releasing of
the old fiber, and the registers and FPU image of the new one for `current`. -/
def switchTo (tg : ThreadGroup) (pid : ℤ) (cpu : Cpu) (old new : Fiber) : ThreadGroup × Cpu :=
  let tg := activateFiberFromThread tg new.fid pid cpu.utime
  let tg := tg.onFiber old.fid (fun f =>
    ((((f.saveRegs cpu.regs).saveFpu cpu.fpu).addRunningTime cpu.utime).setState 0).unlock)
  match getFiber new.fid tg with
  | none => (tg, cpu)
  | some f => (tg, { cpu with regs := f.context.regs, fpu := f.context.fpu })

def doSwitchToFiber (groups : Groups) (tsk : Task) (cpu : Cpu) (nextFiber : ℤ) :
    Groups × Cpu × Ret :=
  match getGroup tsk.tgid groups with
  | none => (groups, cpu, .error .ESRCH)
  | some tg =>
    match getThread tsk.pid tg with
    | none => (groups, cpu, .error .ESRCH)
    | some t =>
      match getFiber nextFiber tg with
      | none => (groups, cpu, .error .ESRCH)
      | some new =>
        match tryEnter tg new with
        | (tg, false) =>
          (storeGroup groups (tg.onFiber new.fid Fiber.countFailure), cpu, .error .EAGAIN)
        | (tg, true) =>
          match getFiber t.currentFid tg with
          | none => (storeGroup groups tg, cpu, .error .ESRCH)
          | some old =>
            let (tg, cpu) := switchTo tg tsk.pid cpu old new
            (storeGroup groups tg, cpu, .ok 0)

/-! ## Fiber-local storage -/

/-- The lookups that every FLS call makes: the caller's group, thread record and current
fiber. -/
def currentFiber (groups : Groups) (tsk : Task) : Option (ThreadGroup × Fiber) := do
  let tg ← getGroup tsk.tgid groups
  let t ← getThread tsk.pid tg
  let f ← getFiber t.currentFid tg
  pure (tg, f)

/-- The first clear bit among `fuel` bits from `i` on, or `i + fuel`. -/
def nextZeroBit (bmp : Fin flsMaxSize → Bool) : (fuel i : ℕ) → ℕ
  | 0, i => i
  | fuel + 1, i =>
    if h : i < flsMaxSize then
      if bmp ⟨i, h⟩ then nextZeroBit bmp fuel (i + 1) else i
    else nextZeroBit bmp fuel (i + 1)

/-- `find_first_zero_bit(bmp, FLS_MAX_SIZE)`. -/
def findFirstZeroBit (bmp : Fin flsMaxSize → Bool) : ℕ := nextZeroBit bmp flsMaxSize 0

/-- `change_bit(i, f->fls.bmp)`. -/
@[reducible] def Fiber.changeBit (i : Fin flsMaxSize) (f : Fiber) : Fiber :=
  { f with fls := { f.fls with bmp := Function.update f.fls.bmp i (!f.fls.bmp i) } }

/-- `f->fls.data[i] = v`. -/
@[reducible] def Fiber.setData (i : Fin flsMaxSize) (v : Word) (f : Fiber) : Fiber :=
  { f with fls := { f.fls with data := Function.update f.fls.data i v } }

def doFlsAlloc (groups : Groups) (tsk : Task) : Groups × Ret :=
  match currentFiber groups tsk with
  | none => (groups, .error .ESRCH)
  | some (tg, f) =>
    let idx := findFirstZeroBit f.fls.bmp
    if h : idx < flsMaxSize then
      (storeGroup groups (tg.onFiber f.fid (Fiber.changeBit ⟨idx, h⟩)), .ok idx)
    else (groups, .error .EINVAL)

/-- `index < 0 || index >= FLS_MAX_SIZE` fails: the index as a position of the arrays. -/
def flsIndex (index : ℤ) : Option (Fin flsMaxSize) :=
  if h : 0 ≤ index ∧ index < flsMaxSize then some ⟨index.toNat, by omega⟩ else none

def doFlsGetValue (groups : Groups) (tsk : Task) (index : ℤ) : Except Errno Word :=
  match flsIndex index with
  | none => .error .ESRCH
  | some i =>
    match currentFiber groups tsk with
    | none => .error .ESRCH
    | some (_, f) => if f.fls.bmp i then .ok (f.fls.data i) else .error .EACCES

def doFlsFree (groups : Groups) (tsk : Task) (index : ℤ) : Groups × Ret :=
  match flsIndex index with
  | none => (groups, .error .EINVAL)
  | some i =>
    match currentFiber groups tsk with
    | none => (groups, .error .ESRCH)
    | some (tg, f) =>
      if f.fls.bmp i then (storeGroup groups (tg.onFiber f.fid (Fiber.changeBit i)), .ok 0)
      else (groups, .error .EACCES)

def doFlsSetValue (groups : Groups) (tsk : Task) (index : ℤ) (value : Word) : Groups × Ret :=
  match flsIndex index with
  | none => (groups, .error .EINVAL)
  | some i =>
    match currentFiber groups tsk with
    | none => (groups, .error .ESRCH)
    | some (tg, f) =>
      if f.fls.bmp i then (storeGroup groups (tg.onFiber f.fid (Fiber.setData i value)), .ok index)
      else (groups, .error .EACCES)

/-! ## Cleanup -/

/-- `cleanup_process`: the group is unlinked together with every record of its tables. -/
def cleanupProcess (groups : Groups) (tgid : ℤ) : Groups :=
  match getGroup tgid groups with
  | none => groups
  | some _ => groups.remove tgid

end Fibers
