import Fibers.Requests

/-!
# The library

The functions of `fiberlib.c` down to the device. Each call lays its arguments out on the
stack of its thread, makes one `ioctl`, and reads its result back; `Slots` says where on the
stack. The device is open: a failed `open` or `posix_memalign` ends the process.

## Main definitions

- `LibCall.run` — a library call, from its arguments to its return value
-/

namespace Fibers

/-- What `ioctl` of the C library makes of the value that the system call returns. -/
def ioctlReturn (ret : ℤ) : ℤ := if -4095 ≤ ret ∧ ret ≤ -1 then -1 else wrap32 ret

/-- The places on the stack of a thread for the arguments and for the result of a library call. -/
structure Slots (m : UserMemory) where
  args : Word
  result : Word
  args_readable : (Memory.range args FibArgs.size).all m.readable = true
  result_writable : (Memory.range result 8).all m.writable = true

def FibArgs.bytes (a : FibArgs) : List Byte :=
  wordBytes a.stackBase ++ wordBytes a.stackSize ++ wordBytes a.entryPoint ++ wordBytes a.params

/-- A call of the library. The stack of a created fiber is where `posix_memalign` puts it. -/
inductive LibCall
  | convertThreadToFiber
  | createFiber (a : FibArgs)
  | switchToFiber (fib : Word)
  | flsAlloc
  | flsGetValue (idx : Word)
  | flsFree (idx : Word)
  | flsSetValue (idx value : Word)

section Calls

variable (k : Kmalloc) (groups : Groups) (tsk : Task) (cpu : Cpu) (mem : UserMemory)

/-- `ioctl(fd, cmd, args)`. -/
def libIoctl (cmd : BitVec 32) (args : Word) : Option Outcome :=
  (fibersIoctl k groups tsk cpu mem cmd args).map fun o => { o with ret := ioctlReturn o.ret }

/-- `if(ret < 0) return -EAGAIN;`. -/
def Outcome.orAgain (o : Outcome) : Outcome :=
  if o.ret < 0 then { o with ret := -Errno.EAGAIN.code } else o

variable (sl : Slots mem)

def convertThreadToFiber : Option Outcome :=
  libIoctl k groups tsk cpu mem ioctlConvertThreadToFiber 0

def createFiber (a : FibArgs) : Option Outcome :=
  let mem := mem.store sl.args a.bytes
  let mem := mem.store a.stackBase (List.replicate a.stackSize.toNat 0)
  libIoctl k groups tsk cpu mem ioctlCreateFiber sl.args

def switchToFiber (fib : Word) : Option Outcome :=
  let mem := mem.store sl.args (wordBytes fib)
  (libIoctl k groups tsk cpu mem ioctlSwitchToFiber sl.args).map Outcome.orAgain

def flsAlloc : Option Outcome :=
  (libIoctl k groups tsk cpu mem ioctlFlsAlloc 0).map Outcome.orAgain

def flsGetValue (idx : Word) : Option Outcome :=
  let mem := mem.store sl.result (wordBytes 0)
  let mem := mem.store sl.args (FlsArgs.bytes ⟨idx, sl.result⟩)
  (libIoctl k groups tsk cpu mem ioctlFlsGetValue sl.args).map fun o =>
    if o.ret < 0 then { o with ret := -Errno.EAGAIN.code }
    else { o with ret := (wordOf (o.mem.load sl.result 8)).toInt }

def flsFree (idx : Word) : Option Outcome :=
  let mem := mem.store sl.args (FlsArgs.bytes ⟨idx, 0⟩)
  (libIoctl k groups tsk cpu mem ioctlFlsFree sl.args).map Outcome.orAgain

def flsSetValue (idx value : Word) : Option Outcome :=
  let mem := mem.store sl.args (FlsArgs.bytes ⟨idx, value⟩)
  (libIoctl k groups tsk cpu mem ioctlFlsSetValue sl.args).map Outcome.orAgain

def LibCall.run : LibCall → Option Outcome
  | .convertThreadToFiber => Fibers.convertThreadToFiber k groups tsk cpu mem
  | .createFiber a => Fibers.createFiber k groups tsk cpu mem sl a
  | .switchToFiber fib => Fibers.switchToFiber k groups tsk cpu mem sl fib
  | .flsAlloc => Fibers.flsAlloc k groups tsk cpu mem
  | .flsGetValue idx => Fibers.flsGetValue k groups tsk cpu mem sl idx
  | .flsFree idx => Fibers.flsFree k groups tsk cpu mem sl idx
  | .flsSetValue idx value => Fibers.flsSetValue k groups tsk cpu mem sl idx value

end Calls

/-! ## What the device finds of the arguments -/

section Arguments

variable {mem : UserMemory} (sl : Slots mem)

/-- What the library has put on the stack is copied in. -/
theorem Slots.copyFrom {n : ℕ} (bs : List Byte) (hn : n ≤ bs.length) (h : bs.length ≤ FibArgs.size) :
    (mem.store sl.args bs).copyFrom sl.args n = some (bs.take n) := by
  have hsize : bs.length ≤ 2 ^ 64 := h.trans (by decide)
  have hread : (Memory.range sl.args n).all (mem.store sl.args bs).readable = true := by
    rw [List.all_eq_true]
    intro x hx
    obtain ⟨i, hi, rfl⟩ := Memory.mem_range.mp hx
    exact List.all_eq_true.mp sl.args_readable _ (Memory.mem_range.mpr ⟨i, by omega, rfl⟩)
  rw [Memory.copyFrom_of_readable hread, Memory.load_store_take hn hsize]

/-- The slots of the memory with other contents. -/
def Slots.store (a : Word) (bs : List Byte) : Slots (mem.store a bs) :=
  ⟨sl.args, sl.result, sl.args_readable, sl.result_writable⟩

theorem Slots.copyFrom_flsArgs (a : FlsArgs) :
    (mem.store sl.args a.bytes).copyFrom sl.args FlsArgs.size = some a.bytes := by
  have hlen := a.length_bytes
  have h := sl.copyFrom a.bytes hlen.ge (by rw [hlen]; decide)
  rwa [List.take_of_length_le hlen.le] at h

theorem request_flsGetValue (a : FlsArgs) :
    request (mem.store sl.args a.bytes) ioctlFlsGetValue sl.args =
      .flsGetValue a.idx.toInt a.value := by
  simp [request, sl.copyFrom_flsArgs, ioctlFlsGetValue, ioctlConvertThreadToFiber,
    ioctlCreateFiber, ioctlSwitchToFiber, ioctlFlsAlloc, io, iow, ior, ioc]

theorem request_flsFree (a : FlsArgs) :
    request (mem.store sl.args a.bytes) ioctlFlsFree sl.args = .flsFree a.idx.toInt := by
  simp [request, sl.copyFrom_flsArgs, ioctlFlsFree, ioctlFlsGetValue, ioctlConvertThreadToFiber,
    ioctlCreateFiber, ioctlSwitchToFiber, ioctlFlsAlloc, io, iow, ior, ioc]

theorem request_flsSetValue (a : FlsArgs) :
    request (mem.store sl.args a.bytes) ioctlFlsSetValue sl.args =
      .flsSetValue a.idx.toInt a.value := by
  simp [request, sl.copyFrom_flsArgs, ioctlFlsSetValue, ioctlFlsFree, ioctlFlsGetValue,
    ioctlConvertThreadToFiber, ioctlCreateFiber, ioctlSwitchToFiber, ioctlFlsAlloc, io, iow, ior,
    ioc]

/-- The fiber that a switch is given: the low half of the pointer. -/
def fiberOf (fib : Word) : ℤ := (fib.setWidth 32).toInt

theorem request_switchToFiber (fib : Word) :
    request (mem.store sl.args (wordBytes fib)) ioctlSwitchToFiber sl.args =
      .switchToFiber (fiberOf fib) := by
  have hcopy := sl.copyFrom (n := 4) (wordBytes fib) (by simp) (by simp [FibArgs.size])
  simp [request, hcopy, pidSize, pidOf_take_wordBytes, fiberOf, ioctlSwitchToFiber,
    ioctlConvertThreadToFiber, ioctlCreateFiber, io, iow, ioc]

/-- A create is asked for with some arguments, whatever the zeroing of the stack has done to
them. -/
theorem request_createFiber (a : FibArgs) (b : Word) (bs : List Byte) :
    ∃ a', request ((mem.store sl.args a.bytes).store b bs) ioctlCreateFiber sl.args =
      .createFiber a' := by
  have hread : (Memory.range sl.args FibArgs.size).all
      ((mem.store sl.args a.bytes).store b bs).readable = true := sl.args_readable
  refine ⟨.ofBytes (((mem.store sl.args a.bytes).store b bs).load sl.args FibArgs.size), ?_⟩
  simp only [request, Memory.copyFrom_of_readable hread]
  rw [if_neg (by decide), if_pos trivial]
  rfl

end Arguments

/-! ## What the calls return -/

theorem ioctlReturn_error (e : Errno) : ioctlReturn (-e.code) = -1 := by
  cases e <;> decide

theorem ioctlReturn_of_range {r : ℤ} (h₀ : 0 ≤ r) (h : r < 2 ^ 31) : ioctlReturn r = r := by
  rw [ioctlReturn, if_neg (by omega), wrap32_of_range (by omega) h]

/-- What a library call makes of a result: it hides which error there was. -/
def Ret.hidden : Ret → ℤ
  | .ok v => v
  | .error _ => -Errno.EAGAIN.code

section Returns

variable {k : Kmalloc} {groups : Groups} {tsk : Task} {cpu : Cpu} {mem : UserMemory}
  (sl : Slots mem)

theorem orAgain_ioctlReturn (groups : Groups) (cpu : Cpu) (mem : UserMemory) (n : ℕ) {r : Ret}
    (h : ∀ v, r = .ok v → 0 ≤ v ∧ v < 2 ^ 31) :
    Outcome.orAgain ⟨groups, cpu, mem, n, ioctlReturn r.toLong⟩ =
      ⟨groups, cpu, mem, n, r.hidden⟩ := by
  cases r with
  | ok v =>
    obtain ⟨h₀, h₁⟩ := h v rfl
    have hv : ioctlReturn (Ret.toLong (.ok v)) = v := ioctlReturn_of_range h₀ h₁
    simp only [Outcome.orAgain, hv, Ret.hidden, if_neg (not_lt.mpr h₀)]
  | error e =>
    have he : ioctlReturn (Ret.toLong (.error e)) = -1 := ioctlReturn_error e
    simp [Outcome.orAgain, he, Ret.hidden]

theorem libIoctl_eq (cmd : BitVec 32) (args : Word) :
    libIoctl k groups tsk cpu mem cmd args =
      ((request mem cmd args).serve k groups tsk cpu mem).map
        fun o => { o with ret := ioctlReturn o.ret } := by
  rw [libIoctl, fibersIoctl_eq]

theorem flsIndex_range {idx : ℤ} {i : Fin flsMaxSize} (h : flsIndex idx = some i) :
    0 ≤ idx ∧ idx < flsMaxSize := by
  unfold flsIndex at h
  split at h
  · next hr => exact hr
  · cases h

theorem flsAlloc_range {v : ℤ} (h : (doFlsAlloc groups tsk).2 = .ok v) : 0 ≤ v ∧ v < flsMaxSize := by
  unfold doFlsAlloc at h
  split at h
  · cases h
  · dsimp only at h
    split at h
    · cases h
      omega
    · cases h

/-- A free that succeeds returns 0. -/
theorem flsFree_result {v idx : ℤ} (h : (doFlsFree groups tsk idx).2 = .ok v) : v = 0 := by
  unfold doFlsFree at h
  split at h
  · cases h
  · split at h
    · cases h
    · split at h
      · cases h
        rfl
      · cases h

theorem flsSetValue_range {v idx : ℤ} {value : Word}
    (h : (doFlsSetValue groups tsk idx value).2 = .ok v) : 0 ≤ v ∧ v < flsMaxSize := by
  unfold doFlsSetValue at h
  split at h
  · cases h
  · next i hi =>
    split at h
    · cases h
    · split at h
      · cases h
        exact flsIndex_range hi
      · cases h

/-- A switch that succeeds returns 0. -/
theorem switch_result {v fid : ℤ} (h : (doSwitchToFiber groups tsk cpu fid).2.2 = .ok v) : v = 0 := by
  unfold doSwitchToFiber at h
  split at h
  · cases h
  · split at h
    · cases h
    · split at h
      · cases h
      · split at h
        · cases h
        · split at h
          · cases h
          · cases h
            rfl

theorem flsAlloc_eq :
    flsAlloc k groups tsk cpu mem =
      some ⟨(doFlsAlloc groups tsk).1, cpu, mem, 0, (doFlsAlloc groups tsk).2.hidden⟩ := by
  have hreq : request mem ioctlFlsAlloc 0 = .flsAlloc := by
    simp [request, ioctlFlsAlloc, ioctlConvertThreadToFiber, ioctlCreateFiber, ioctlSwitchToFiber,
      io, iow, ioc]
  rw [flsAlloc, libIoctl_eq, hreq]
  refine congrArg some (orAgain_ioctlReturn _ _ _ _ (fun v hv => ?_))
  obtain ⟨h₀, h₁⟩ := flsAlloc_range hv
  exact ⟨h₀, h₁.trans (by decide)⟩

theorem flsFree_eq (idx : Word) :
    flsFree k groups tsk cpu mem sl idx =
      some ⟨(doFlsFree groups tsk idx.toInt).1, cpu, mem.store sl.args (FlsArgs.bytes ⟨idx, 0⟩), 0,
        (doFlsFree groups tsk idx.toInt).2.hidden⟩ := by
  rw [flsFree, libIoctl_eq, request_flsFree]
  refine congrArg some (orAgain_ioctlReturn _ _ _ _ (fun v hv => ?_))
  rw [flsFree_result hv]
  decide

theorem flsSetValue_eq (idx value : Word) :
    flsSetValue k groups tsk cpu mem sl idx value =
      some ⟨(doFlsSetValue groups tsk idx.toInt value).1, cpu,
        mem.store sl.args (FlsArgs.bytes ⟨idx, value⟩), 0,
        (doFlsSetValue groups tsk idx.toInt value).2.hidden⟩ := by
  rw [flsSetValue, libIoctl_eq, request_flsSetValue]
  refine congrArg some (orAgain_ioctlReturn _ _ _ _ (fun v hv => ?_))
  obtain ⟨h₀, h₁⟩ := flsSetValue_range hv
  exact ⟨h₀, h₁.trans (by decide)⟩

theorem switchToFiber_eq (fib : Word) :
    switchToFiber k groups tsk cpu mem sl fib =
      some ⟨(doSwitchToFiber groups tsk cpu (fiberOf fib)).1,
        (doSwitchToFiber groups tsk cpu (fiberOf fib)).2.1, mem.store sl.args (wordBytes fib), 0,
        (doSwitchToFiber groups tsk cpu (fiberOf fib)).2.2.hidden⟩ := by
  rw [switchToFiber, libIoctl_eq, request_switchToFiber]
  refine congrArg some (orAgain_ioctlReturn _ _ _ _ (fun v hv => ?_))
  rw [switch_result hv]
  decide

/-- A value that is copied out to the stack is what the library reads there. -/
theorem serve_copyOut (groups : Groups) (cpu : Cpu) (m : UserMemory) (v : Word) {result : Word}
    (hwrite : (Memory.range result 8).all m.writable = true) :
    copyOut groups cpu m result v = ⟨groups, cpu, m.store result (wordBytes v), 8, 0⟩ ∧
      wordOf ((m.store result (wordBytes v)).load result 8) = v := by
  have hlen := length_wordBytes v
  have hsize : (wordBytes v).length ≤ 2 ^ 64 := by
    rw [hlen]
    decide
  have hall : (Memory.range result (wordBytes v).length).all m.writable = true := by
    rw [hlen]
    exact hwrite
  obtain ⟨hcopy, hload⟩ := Memory.load_copyTo hall hsize
  rw [hlen] at hcopy hload
  constructor
  · rw [copyOut, hcopy]
    rfl
  · rw [hload, wordOf_wordBytes]

/-- A read returns what the kernel put into `read_value`, be it a value or an error. -/
theorem flsGetValue_eq (k : Kmalloc) (groups : Groups) (tsk : Task) (cpu : Cpu) (idx : Word) :
    ∃ mem', flsGetValue k groups tsk cpu mem sl idx =
      some ⟨groups, cpu, mem', 8, (readValue (doFlsGetValue groups tsk idx.toInt)).toInt⟩ := by
  generalize hv : readValue (doFlsGetValue groups tsk idx.toInt) = v
  obtain ⟨m, hm⟩ : ∃ m, m = (mem.store sl.result (wordBytes 0)).store sl.args
    (FlsArgs.bytes ⟨idx, sl.result⟩) := ⟨_, rfl⟩
  have hreq : request m ioctlFlsGetValue sl.args = .flsGetValue idx.toInt sl.result := by
    rw [hm]
    exact request_flsGetValue (sl.store sl.result (wordBytes 0)) ⟨idx, sl.result⟩
  have hwrite : (Memory.range sl.result 8).all m.writable = true := by
    rw [hm]
    exact sl.result_writable
  obtain ⟨hout, hload⟩ := serve_copyOut groups cpu m v hwrite
  have hlib : libIoctl k groups tsk cpu m ioctlFlsGetValue sl.args =
      some ⟨groups, cpu, m.store sl.result (wordBytes v), 8, 0⟩ := by
    rw [libIoctl_eq, hreq, Request.serve, hv, hout]
    rfl
  refine ⟨m.store sl.result (wordBytes v), ?_⟩
  simp only [flsGetValue, ← hm, hlib, Option.map_some, lt_irrefl, if_false, hload]

/-- What the kernel does in a library call, and what the call returns. -/
inductive LibEffect (k : Kmalloc) (groups : Groups) (t : Task) (cpu : Cpu) :
    LibCall → Groups → ℤ → Prop
  | convertThreadToFiber {g r} (h : doConvertThreadToFiber k groups t cpu = some (g, r)) :
      LibEffect k groups t cpu .convertThreadToFiber g (ioctlReturn r.toLong)
  | createFiber {a a' g r} (h : doCreateFiber k groups t cpu a' = some (g, r)) :
      LibEffect k groups t cpu (.createFiber a) g (ioctlReturn r.toLong)
  | switchToFiber {fib} :
      LibEffect k groups t cpu (.switchToFiber fib) (doSwitchToFiber groups t cpu (fiberOf fib)).1
        (doSwitchToFiber groups t cpu (fiberOf fib)).2.2.hidden
  | flsAlloc :
      LibEffect k groups t cpu .flsAlloc (doFlsAlloc groups t).1 (doFlsAlloc groups t).2.hidden
  | flsGetValue {idx} :
      LibEffect k groups t cpu (.flsGetValue idx) groups
        (readValue (doFlsGetValue groups t idx.toInt)).toInt
  | flsFree {idx} :
      LibEffect k groups t cpu (.flsFree idx) (doFlsFree groups t idx.toInt).1
        (doFlsFree groups t idx.toInt).2.hidden
  | flsSetValue {idx value} :
      LibEffect k groups t cpu (.flsSetValue idx value)
        (doFlsSetValue groups t idx.toInt value).1 (doFlsSetValue groups t idx.toInt value).2.hidden

theorem LibCall.run_effect {c : LibCall} {o : Outcome}
    (h : c.run k groups tsk cpu mem sl = some o) : LibEffect k groups tsk cpu c o.groups o.ret := by
  cases c with
  | convertThreadToFiber =>
    have hreq : request mem ioctlConvertThreadToFiber 0 = .convertThreadToFiber := rfl
    simp only [LibCall.run, Fibers.convertThreadToFiber, libIoctl_eq, hreq, Request.serve,
      Option.map_map] at h
    obtain ⟨⟨g, r⟩, ho, rfl⟩ := Option.map_eq_some_iff.mp h
    exact .convertThreadToFiber ho
  | createFiber a =>
    obtain ⟨a', hreq⟩ := request_createFiber sl a a.stackBase
      (List.replicate a.stackSize.toNat 0)
    simp only [LibCall.run, Fibers.createFiber, libIoctl_eq, hreq, Request.serve,
      Option.map_map] at h
    obtain ⟨⟨g, r⟩, ho, rfl⟩ := Option.map_eq_some_iff.mp h
    exact .createFiber ho
  | switchToFiber fib =>
    rw [LibCall.run, switchToFiber_eq] at h
    cases h
    exact .switchToFiber
  | flsAlloc =>
    rw [LibCall.run, flsAlloc_eq] at h
    cases h
    exact .flsAlloc
  | flsGetValue idx =>
    obtain ⟨mem', hrun⟩ := flsGetValue_eq sl k groups tsk cpu idx
    rw [LibCall.run, hrun] at h
    cases h
    exact .flsGetValue
  | flsFree idx =>
    rw [LibCall.run, flsFree_eq] at h
    cases h
    exact .flsFree
  | flsSetValue idx value =>
    rw [LibCall.run, flsSetValue_eq] at h
    cases h
    exact .flsSetValue

end Returns

end Fibers
