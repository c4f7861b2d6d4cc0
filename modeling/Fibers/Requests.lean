import Fibers.Device

/-!
# Requests

What a call of the device asks for, and what the device does with it, apart from how the
arguments travel: every `ioctl` is the service of the request that its arguments make.

## Main results

- `fibersIoctl_eq` — an `ioctl` serves its request
-/

namespace Fibers

/-- What a call of the device asks for. -/
inductive Request
  | unknown
  | unreadable
  | convertThreadToFiber
  | createFiber (a : FibArgs)
  | switchToFiber (fid : ℤ)
  | flsAlloc
  | flsGetValue (idx : ℤ) (value : Word)
  | flsFree (idx : ℤ)
  | flsSetValue (idx : ℤ) (value : Word)

/-- The request that a command and an argument make. -/
def request (mem : UserMemory) (cmd : BitVec 32) (args : Word) : Request :=
  let copied (n : ℕ) (f : List Byte → Request) : Request :=
    ((mem.copyFrom args n).map f).getD .unreadable
  if cmd = ioctlConvertThreadToFiber then .convertThreadToFiber
  else if cmd = ioctlCreateFiber then copied FibArgs.size (fun bs => .createFiber (.ofBytes bs))
  else if cmd = ioctlSwitchToFiber then copied pidSize (fun bs => .switchToFiber (pidOf bs))
  else if cmd = ioctlFlsAlloc then .flsAlloc
  else if cmd = ioctlFlsGetValue then
    copied FlsArgs.size (fun bs =>
      .flsGetValue (FlsArgs.ofBytes bs).idx.toInt (FlsArgs.ofBytes bs).value)
  else if cmd = ioctlFlsFree then
    copied FlsArgs.size (fun bs => .flsFree (FlsArgs.ofBytes bs).idx.toInt)
  else if cmd = ioctlFlsSetValue then
    copied FlsArgs.size (fun bs =>
      .flsSetValue (FlsArgs.ofBytes bs).idx.toInt (FlsArgs.ofBytes bs).value)
  else .unknown

section Service

variable (k : Kmalloc) (groups : Groups) (tsk : Task) (cpu : Cpu) (mem : UserMemory)

/-- What the device does with a request. -/
def Request.serve : Request → Option Outcome
  | .unknown => some (.error groups cpu mem .EPERM)
  | .unreadable => some (.error groups cpu mem .EINVAL)
  | .convertThreadToFiber => (doConvertThreadToFiber k groups tsk cpu).map (.call cpu mem)
  | .createFiber a => (doCreateFiber k groups tsk cpu a).map (.call cpu mem)
  | .switchToFiber fid =>
    let (groups, cpu, r) := doSwitchToFiber groups tsk cpu fid
    some ⟨groups, cpu, mem, 0, r.toLong⟩
  | .flsAlloc => some (.call cpu mem (doFlsAlloc groups tsk))
  | .flsGetValue idx value =>
    some (copyOut groups cpu mem value (readValue (doFlsGetValue groups tsk idx)))
  | .flsFree idx => some (.call cpu mem (doFlsFree groups tsk idx))
  | .flsSetValue idx value => some (.call cpu mem (doFlsSetValue groups tsk idx value))

end Service

variable {k : Kmalloc} {groups : Groups} {tsk : Task} {cpu : Cpu} {mem : UserMemory}

/-- The device serves the request that its arguments make. -/
theorem fibersIoctl_eq (cmd : BitVec 32) (args : Word) :
    fibersIoctl k groups tsk cpu mem cmd args =
      (request mem cmd args).serve k groups tsk cpu mem := by
  have hfib : mem.accessOk args FibArgs.size = false → mem.copyFrom args FibArgs.size = none :=
    fun h => Memory.copyFrom_of_not_accessOk h (by decide)
  have hfls : mem.accessOk args FlsArgs.size = false → mem.copyFrom args FlsArgs.size = none :=
    fun h => Memory.copyFrom_of_not_accessOk h (by decide)
  unfold fibersIoctl request
  by_cases h₁ : cmd = ioctlConvertThreadToFiber
  · simp only [h₁, if_true]
    rfl
  rw [if_neg h₁]
  simp only [if_neg h₁]
  by_cases h₂ : cmd = ioctlCreateFiber
  · simp only [h₂, if_true, ioctlCreate]
    split
    · next h =>
      rw [hfib h]
      rfl
    · cases mem.copyFrom args FibArgs.size <;> rfl
  simp only [if_neg h₂]
  by_cases h₃ : cmd = ioctlSwitchToFiber
  · simp only [h₃, if_true, ioctlSwitch]
    cases mem.copyFrom args pidSize <;> rfl
  simp only [if_neg h₃]
  by_cases h₄ : cmd = ioctlFlsAlloc
  · simp only [h₄, if_true]
    rfl
  simp only [if_neg h₄]
  by_cases h₅ : cmd = ioctlFlsGetValue
  · simp only [h₅, if_true, ioctlGetValue]
    split
    · next h =>
      rw [hfls h]
      rfl
    · cases mem.copyFrom args FlsArgs.size <;> rfl
  simp only [if_neg h₅]
  by_cases h₆ : cmd = ioctlFlsFree
  · simp only [h₆, if_true, ioctlFls]
    split
    · next h =>
      rw [hfls h]
      rfl
    · cases mem.copyFrom args FlsArgs.size <;> rfl
  simp only [if_neg h₆]
  by_cases h₇ : cmd = ioctlFlsSetValue
  · simp only [h₇, if_true, ioctlFls]
    split
    · next h =>
      rw [hfls h]
      rfl
    · cases mem.copyFrom args FlsArgs.size <;> rfl
  simp only [if_neg h₇]
  rfl

end Fibers
