import Fibers.Lib.HashTable
import Mathlib.Data.BitVec

/-!
# The registry of thread groups, threads and fibers

The data model of `fiber.h` and the lookup and insertion functions of `fiber.c`.
A global hash table holds one `ThreadGroup` per process; a group holds its threads
and its fibers in hash tables of its own, with the same number of buckets and the
same hash function as the global one.

A pointer to a record is modelled by the record's key, resolved in the table it
lives in. The `generate*` functions may instead hand back an errno cast to a
pointer, which is `Except.error` here and resolves to nothing.

`pid_t` and the other `int`s are integers; `wrap32` brings a result back into the
range of an `int` where the code can leave it.
-/

namespace Fibers

/-- `unsigned long`, a pointer, or the 64 bits of a `long long`. -/
abbrev Word := BitVec 64

/-- The 512 bytes of an `fxsave` image. -/
abbrev FxRegs := BitVec 4096

/-- The value an `int` takes after an arithmetic result is stored in it. -/
def wrap32 (z : ℤ) : ℤ := Int.bmod z (2 ^ 32)

theorem wrap32_of_range {z : ℤ} (h₁ : -2 ^ 31 ≤ z) (h₂ : z < 2 ^ 31) : wrap32 z = z := by
  unfold wrap32
  exact Int.bmod_eq_of_le (by omega) (by omega)

theorem wrap32_succ (z : ℤ) : wrap32 (wrap32 z + 1) = wrap32 (z + 1) := by
  unfold wrap32
  exact Int.bmod_add_bmod

/-- The values of an `int`. -/
def isInt (z : ℤ) : Prop := -2 ^ 31 ≤ z ∧ z < 2 ^ 31

theorem isInt_wrap32 (z : ℤ) : isInt (wrap32 z) := by
  have h₁ : -((2 ^ 32 : ℕ) / 2 : ℤ) ≤ wrap32 z := Int.le_bmod (by decide)
  have h₂ : wrap32 z < ((2 ^ 32 : ℕ) + 1 : ℤ) / 2 := Int.bmod_lt (by decide)
  exact ⟨by omega, by omega⟩

theorem isInt_zero : isInt 0 := ⟨by decide, by decide⟩

/-- The error numbers that the module returns. -/
inductive Errno
  | EPERM
  | ENOENT
  | ESRCH
  | EAGAIN
  | EACCES
  | EEXIST
  | EINVAL
  deriving DecidableEq

def Errno.code : Errno → ℤ
  | EPERM => 1
  | ENOENT => 2
  | ESRCH => 3
  | EAGAIN => 11
  | EACCES => 13
  | EEXIST => 17
  | EINVAL => 22

theorem Errno.code_pos (e : Errno) : 0 < e.code := by
  cases e <;> decide

/-- What a `do_*` function returns: a value, or one of its error exits. -/
abbrev Ret := Except Errno ℤ

/-- The C value of a return: `-errno` on an error exit. -/
def Ret.toLong : Ret → ℤ
  | .ok v => v
  | .error e => -e.code

/-! ## Tasks and processor state -/

/-- The identity of a task: `task_tgid_nr` and `task_pid_nr`. -/
structure Task where
  tgid : ℤ
  pid : ℤ
  deriving DecidableEq

/-- `struct pt_regs`: the user-mode registers saved at system call entry. -/
structure PtRegs where
  r15 : Word
  r14 : Word
  r13 : Word
  r12 : Word
  bp : Word
  bx : Word
  r11 : Word
  r10 : Word
  r9 : Word
  r8 : Word
  ax : Word
  cx : Word
  dx : Word
  si : Word
  di : Word
  orig_ax : Word
  ip : Word
  cs : Word
  flags : Word
  sp : Word
  ss : Word
  deriving DecidableEq, Inhabited

/-- What a call reads and writes of `current`: `task_pt_regs(current)`, the extended
registers and `current->utime`. -/
structure Cpu where
  regs : PtRegs
  fpu : FxRegs
  utime : Word
  deriving DecidableEq, Inhabited

/-- The kernel stores the result of an `ioctl` in the return-value register. -/
def Cpu.setReturn (cpu : Cpu) (r : Ret) : Cpu :=
  { cpu with regs := { cpu.regs with ax := BitVec.ofInt 64 r.toLong } }

/-! ## Records -/

def noFibers : ℤ := -1

def hashSize : ℕ := 8

def flsMaxSize : ℕ := 4096

abbrev Bucket := Fin (2 ^ hashSize)

/-- A hash that tells nothing apart. -/
def hashZero : ℤ → Bucket := fun _ => 0

structure Context where
  regs : PtRegs
  fpu : FxRegs
  deriving DecidableEq

structure Fls where
  data : Fin flsMaxSize → Word
  bmp : Fin flsMaxSize → Bool

structure Info where
  name : String
  parent : ℤ
  state : ℤ
  successfulActivations : Word
  failedActivations : ℤ
  lastActivationTime : Word
  totalRunningTime : Word
  entryPoint : Word
  param : Word

structure Fiber where
  fid : ℤ
  flock : Bool
  stackBase : Word
  stackLimit : Word
  guaranteedStackBytes : Word
  context : Context
  fls : Fls
  info : Info

structure Thread where
  pid : ℤ
  currentFid : ℤ

abbrev Threads := HashTable Bucket Thread.pid

abbrev FiberTable := HashTable Bucket Fiber.fid

structure ThreadGroup where
  tgid : ℤ
  fidCount : ℤ
  threads : Threads
  fibers : FiberTable

abbrev Groups := HashTable Bucket ThreadGroup.tgid

/-! ## Lookups -/

def getGroup (tgid : ℤ) (groups : Groups) : Option ThreadGroup := groups.find tgid

def getThread (pid : ℤ) (tg : ThreadGroup) : Option Thread := tg.threads.find pid

def getFiber (fid : ℤ) (tg : ThreadGroup) : Option Fiber := tg.fibers.find fid

theorem tgid_of_getGroup {tgid : ℤ} {groups : Groups} {tg : ThreadGroup}
    (h : getGroup tgid groups = some tg) : tg.tgid = tgid := HashTable.key_of_find h

theorem pid_of_getThread {pid : ℤ} {tg : ThreadGroup} {t : Thread}
    (h : getThread pid tg = some t) : t.pid = pid := HashTable.key_of_find h

theorem fid_of_getFiber {fid : ℤ} {tg : ThreadGroup} {f : Fiber}
    (h : getFiber fid tg = some f) : f.fid = fid := HashTable.key_of_find h

/-! ## Writes through pointers -/

/-- By this name a definition that writes to a fiber says that the write keeps the key. -/
theorem Fiber.keeps_fid (f : Fiber) : f.fid = f.fid := rfl

theorem Thread.keeps_pid (t : Thread) : t.pid = t.pid := rfl

/-- A write to the fiber that the key `fid` points to. -/
def ThreadGroup.onFiber (tg : ThreadGroup) (fid : ℤ) (g : Fiber → Fiber)
    (hg : ∀ f, (g f).fid = f.fid := by exact Fiber.keeps_fid) : ThreadGroup :=
  { tg with fibers := tg.fibers.modify fid g hg }

/-- A write to the thread that the key `pid` points to. -/
def ThreadGroup.onThread (tg : ThreadGroup) (pid : ℤ) (g : Thread → Thread)
    (hg : ∀ t, (g t).pid = t.pid := by exact Thread.keeps_pid) : ThreadGroup :=
  { tg with threads := tg.threads.modify pid g hg }

/-- The group's new contents under its old key. -/
def storeGroup (groups : Groups) (tg : ThreadGroup) : Groups :=
  groups.modify tg.tgid (fun r => { tg with tgid := r.tgid })

section Writes

variable (tg : ThreadGroup) (fid pid : ℤ)

@[simp] theorem tgid_onFiber (g : Fiber → Fiber) (hg : ∀ f, (g f).fid = f.fid) :
    (tg.onFiber fid g hg).tgid = tg.tgid := rfl

@[simp] theorem fidCount_onFiber (g : Fiber → Fiber) (hg : ∀ f, (g f).fid = f.fid) :
    (tg.onFiber fid g hg).fidCount = tg.fidCount := rfl

@[simp] theorem threads_onFiber (g : Fiber → Fiber) (hg : ∀ f, (g f).fid = f.fid) :
    (tg.onFiber fid g hg).threads = tg.threads := rfl

@[simp] theorem getThread_onFiber (g : Fiber → Fiber) (hg : ∀ f, (g f).fid = f.fid) (p : ℤ) :
    getThread p (tg.onFiber fid g hg) = getThread p tg := rfl

@[simp] theorem getFiber_onFiber (g : Fiber → Fiber) (hg : ∀ f, (g f).fid = f.fid) (k : ℤ) :
    getFiber k (tg.onFiber fid g hg) =
      if k = fid then (getFiber fid tg).map g else getFiber k tg :=
  HashTable.find_modify _ _ g hg k

@[simp] theorem size_onFiber (g : Fiber → Fiber) (hg : ∀ f, (g f).fid = f.fid) :
    (tg.onFiber fid g hg).fibers.size = tg.fibers.size := HashTable.size_modify _ _ g hg

@[simp] theorem keys_onFiber (g : Fiber → Fiber) (hg : ∀ f, (g f).fid = f.fid) :
    (tg.onFiber fid g hg).fibers.keys = tg.fibers.keys := HashTable.keys_modify _ _ g hg

@[simp] theorem tgid_onThread (g : Thread → Thread) (hg : ∀ t, (g t).pid = t.pid) :
    (tg.onThread pid g hg).tgid = tg.tgid := rfl

@[simp] theorem fidCount_onThread (g : Thread → Thread) (hg : ∀ t, (g t).pid = t.pid) :
    (tg.onThread pid g hg).fidCount = tg.fidCount := rfl

@[simp] theorem fibers_onThread (g : Thread → Thread) (hg : ∀ t, (g t).pid = t.pid) :
    (tg.onThread pid g hg).fibers = tg.fibers := rfl

@[simp] theorem getFiber_onThread (g : Thread → Thread) (hg : ∀ t, (g t).pid = t.pid) (k : ℤ) :
    getFiber k (tg.onThread pid g hg) = getFiber k tg := rfl

@[simp] theorem getThread_onThread (g : Thread → Thread) (hg : ∀ t, (g t).pid = t.pid) (p : ℤ) :
    getThread p (tg.onThread pid g hg) =
      if p = pid then (getThread pid tg).map g else getThread p tg :=
  HashTable.find_modify _ _ g hg p

@[simp] theorem getGroup_storeGroup (groups : Groups) (k : ℤ) :
    getGroup k (storeGroup groups tg) =
      if k = tg.tgid then (getGroup k groups).map (fun _ => tg) else getGroup k groups := by
  unfold getGroup storeGroup
  rw [HashTable.find_modify]
  split
  · next h =>
    subst h
    cases hf : groups.find tg.tgid with
    | none => rfl
    | some r => simp [HashTable.key_of_find hf]
  · rfl

/-- Storing a group as it is changes nothing. -/
theorem storeGroup_self {groups : Groups} {tgid : ℤ} {tg : ThreadGroup}
    (h : getGroup tgid groups = some tg) : storeGroup groups tg = groups := by
  have ht := tgid_of_getGroup h
  subst ht
  refine HashTable.modify_of_same (fun r hr => ?_)
  have : tg = r := Option.some.inj (h.symm.trans hr)
  rw [this]

end Writes

/-! ## Insertions -/

/-- `atomic_inc_return`. -/
def atomicIncReturn (z : ℤ) : ℤ := wrap32 (z + 1)

/-- `generate_group`: the group is inserted without fibers or threads. -/
def generateGroup (kmalloc : Bool) (groups : Groups) (tgid : ℤ) : Groups × Except Errno ℤ :=
  if kmalloc then
    (groups.add
      { tgid := tgid
        fidCount := noFibers
        threads := .init groups.hash
        fibers := .init groups.hash }, .ok tgid)
  else (groups, .error .ESRCH)

/-- `generate_thread`. -/
def generateThread (kmalloc : Bool) (tg : ThreadGroup) (pid : ℤ) :
    ThreadGroup × Except Errno ℤ :=
  if kmalloc then
    ({ tg with threads := tg.threads.add { pid := pid, currentFid := noFibers } }, .ok pid)
  else (tg, .error .ESRCH)

/-- `PREPARE_CONTEXT`: the registers and the FPU image of `current`. -/
def prepareContext (cpu : Cpu) : Context := { regs := cpu.regs, fpu := cpu.fpu }

/-- `PREPARE_FLS`. -/
def prepareFls : Fls := { data := fun _ => 0, bmp := fun _ => false }

/-- `PREPARE_INFO`. -/
def prepareInfo (fid : ℤ) (t : Thread) (cpu : Cpu) : Info where
  name := toString fid
  parent := t.pid
  state := 0
  successfulActivations := 0
  failedActivations := 0
  lastActivationTime := 0
  totalRunningTime := 0
  entryPoint := cpu.regs.ip
  param := cpu.regs.di

/-- The record as the four `PREPARE_*` macros leave it; `PREPARE_GENERICS` numbers it by the
group's counter. -/
def newFiber (tg : ThreadGroup) (t : Thread) (cpu : Cpu) : Fiber where
  fid := atomicIncReturn tg.fidCount
  flock := false
  stackBase := 0
  stackLimit := 0
  guaranteedStackBytes := 0
  context := prepareContext cpu
  fls := prepareFls
  info := prepareInfo (atomicIncReturn tg.fidCount) t cpu

/-- The group after a new fiber was numbered and inserted. -/
def addFiber (tg : ThreadGroup) (t : Thread) (cpu : Cpu) : ThreadGroup :=
  { tg with
    fidCount := atomicIncReturn tg.fidCount
    fibers := tg.fibers.add (newFiber tg t cpu) }

/-- The thread a pointer leads to, if it points to a live record. -/
def derefThread (tg : ThreadGroup) (t : Except Errno ℤ) : Option Thread :=
  match t with
  | .ok pid => getThread pid tg
  | .error _ => none

/-- The fiber a pointer leads to, if it points to a live record. -/
def derefFiber (tg : ThreadGroup) (f : Except Errno ℤ) : Option Fiber :=
  match f with
  | .ok fid => getFiber fid tg
  | .error _ => none

/-- The group a pointer leads to, if it points to a live record. -/
def derefGroup (groups : Groups) (tg : Except Errno ℤ) : Option ThreadGroup :=
  match tg with
  | .ok tgid => getGroup tgid groups
  | .error _ => none

/-- `generate_fiber`. There is no result when `PREPARE_INFO` reads `t->pid` through a pointer
that leads nowhere. -/
def generateFiber (kmalloc : Bool) (tg : ThreadGroup) (t : Except Errno ℤ) (cpu : Cpu) :
    Option (ThreadGroup × Except Errno ℤ) :=
  if kmalloc then
    (derefThread tg t).map fun t => (addFiber tg t cpu, .ok (newFiber tg t cpu).fid)
  else some (tg, .error .ESRCH)

/-! ## The statements that write a fiber or a thread -/

/-- What `do_create_fiber` is given: `fib_args_t`. -/
structure FibArgs where
  stackBase : Word
  stackSize : Word
  entryPoint : Word
  params : Word
  deriving DecidableEq

/-- `ALLOC_STACK`. -/
@[reducible] def Fiber.allocStack (a : FibArgs) (f : Fiber) : Fiber :=
  { f with
    stackBase := a.stackBase
    stackLimit := a.stackBase + a.stackSize
    guaranteedStackBytes := a.stackSize }

/-- `ALLOC_CONTEXT`. -/
@[reducible] def Fiber.allocContext (a : FibArgs) (f : Fiber) : Fiber :=
  { f with
    context := { f.context with
      regs := { f.context.regs with
        ip := a.entryPoint
        di := a.params
        sp := f.stackLimit - 8
        bp := f.stackLimit - 8 } }
    info := { f.info with entryPoint := a.entryPoint, param := a.params } }

/-- A successful `spin_trylock(&f->flock)`. -/
@[reducible] def Fiber.lock (f : Fiber) : Fiber := { f with flock := true }

/-- `spin_unlock(&f->flock)`. -/
@[reducible] def Fiber.unlock (f : Fiber) : Fiber := { f with flock := false }

/-- `atomic_set(&f->info.state, z)`. -/
@[reducible] def Fiber.setState (z : ℤ) (f : Fiber) : Fiber :=
  { f with info := { f.info with state := z } }

/-- `f->info.successful_activations = n`. -/
@[reducible] def Fiber.setSuccessful (n : Word) (f : Fiber) : Fiber :=
  { f with info := { f.info with successfulActivations := n } }

/-- `atomic_inc(&f->info.failed_activations)`. -/
@[reducible] def Fiber.countFailure (f : Fiber) : Fiber :=
  { f with info := { f.info with failedActivations := wrap32 (f.info.failedActivations + 1) } }

/-- `f->info.last_activation_time = utime`. -/
@[reducible] def Fiber.setActivationTime (utime : Word) (f : Fiber) : Fiber :=
  { f with info := { f.info with lastActivationTime := utime } }

/-- `memcpy(&(f->context.regs), regs, sizeof(struct pt_regs))`. -/
@[reducible] def Fiber.saveRegs (regs : PtRegs) (f : Fiber) : Fiber :=
  { f with context := { f.context with regs := regs } }

/-- `copy_fxregs_to_kernel(&(f->context.fpu))`. -/
@[reducible] def Fiber.saveFpu (fpu : FxRegs) (f : Fiber) : Fiber :=
  { f with context := { f.context with fpu := fpu } }

/-- `f->info.total_running_time += utime - f->info.last_activation_time`. -/
@[reducible] def Fiber.addRunningTime (utime : Word) (f : Fiber) : Fiber :=
  { f with info := { f.info with
      totalRunningTime := f.info.totalRunningTime + (utime - f.info.lastActivationTime) } }

/-- `t->current_fid = fid`. -/
@[reducible] def Thread.setCurrent (fid : ℤ) (t : Thread) : Thread := { t with currentFid := fid }

end Fibers
