import Fibers.CallEffects
import Fibers.Lib.Memory

/-!
# The device

`fibers_ioctl` and `fibers_release`: the commands, the copies between the module and the
memory of its caller, and the `do_*` functions behind them. An address of user memory is
64 bits wide, and a call that follows a pointer to nowhere has no outcome.

## Main definitions

- `fibersIoctl` — one `ioctl` on the device, from its arguments to its return value
- `fibersRelease` — the last close of a description
-/

namespace Fibers

/-- The memory of a process. -/
abbrev UserMemory := Memory 64

/-- A memory that can be read and written below the limit. -/
def flatMemory : UserMemory where
  byte := fun _ => 0
  readable := fun a => a.toNat < 2 ^ 47
  writable := fun a => a.toNat < 2 ^ 47
  limit := 2 ^ 47
  limit_lt := by decide
  readable_lt := by simp
  writable_lt := by simp

/-! ## The command numbers -/

/-- `_IOC(dir, type, nr, size)`. -/
def ioc (dir type nr size : ℕ) : BitVec 32 :=
  BitVec.ofNat 32 (dir * 2 ^ 30 + size * 2 ^ 16 + type * 2 ^ 8 + nr)

/-- `_IO`, `_IOW` and `_IOR` with `IOCTL_NUMBER`. -/
def io (nr : ℕ) : BitVec 32 := ioc 0 107 nr 0

def iow (nr size : ℕ) : BitVec 32 := ioc 1 107 nr size

def ior (nr size : ℕ) : BitVec 32 := ioc 2 107 nr size

def ioctlConvertThreadToFiber : BitVec 32 := io 0

def ioctlCreateFiber : BitVec 32 := iow 1 32

def ioctlSwitchToFiber : BitVec 32 := iow 2 4

def ioctlFlsAlloc : BitVec 32 := io 3

def ioctlFlsGetValue : BitVec 32 := ior 4 8

def ioctlFlsFree : BitVec 32 := iow 5 8

def ioctlFlsSetValue : BitVec 32 := iow 6 16

/-! ## The arguments in user memory -/

/-- The bytes of a `long` or a `long long`. -/
def wordBytes (v : Word) : List Byte := encode 8 v.toNat

def wordOf (bs : List Byte) : Word := BitVec.ofNat 64 (decode (bs.take 8))

@[simp] theorem length_wordBytes (v : Word) : (wordBytes v).length = 8 := length_encode _ _

theorem wordOf_append (v : Word) (bs : List Byte) : wordOf (wordBytes v ++ bs) = v := by
  have ht : (wordBytes v ++ bs).take 8 = wordBytes v := List.take_left' (length_wordBytes v)
  have hlt : v.toNat < 256 ^ 8 := v.isLt
  rw [wordOf, ht, wordBytes, decode_encode, Nat.mod_eq_of_lt hlt, BitVec.ofNat_toNat,
    BitVec.setWidth_eq]

theorem wordOf_wordBytes (v : Word) : wordOf (wordBytes v) = v := by
  simpa using wordOf_append v []

/-- A `pid_t` from its four bytes. -/
def pidOf (bs : List Byte) : ℤ := (BitVec.ofNat 32 (decode bs)).toInt

/-- The `pid_t` at the beginning of eight bytes is made of their low half. -/
theorem pidOf_take_wordBytes (v : Word) : pidOf ((wordBytes v).take 4) = (v.setWidth 32).toInt := by
  rw [wordBytes, take_encode (by omega), pidOf, decode_encode]
  congr 1
  apply BitVec.eq_of_toNat_eq
  simp

/-- `fls_args_t`. -/
structure FlsArgs where
  idx : Word
  value : Word

def FlsArgs.size : ℕ := 16

def FlsArgs.bytes (a : FlsArgs) : List Byte := wordBytes a.idx ++ wordBytes a.value

def FlsArgs.ofBytes (bs : List Byte) : FlsArgs where
  idx := wordOf bs
  value := wordOf (bs.drop 8)

@[simp] theorem FlsArgs.length_bytes (a : FlsArgs) : a.bytes.length = FlsArgs.size := by
  simp [FlsArgs.bytes, FlsArgs.size]

@[simp] theorem FlsArgs.ofBytes_bytes (a : FlsArgs) : FlsArgs.ofBytes a.bytes = a := by
  have hd : a.bytes.drop 8 = wordBytes a.value := List.drop_left' (length_wordBytes a.idx)
  have hi : wordOf a.bytes = a.idx := wordOf_append a.idx _
  cases a
  simp only [FlsArgs.ofBytes, hd, hi, wordOf_wordBytes]

def FibArgs.size : ℕ := 32

def FibArgs.ofBytes (bs : List Byte) : FibArgs where
  stackBase := wordOf bs
  stackSize := wordOf (bs.drop 8)
  entryPoint := wordOf (bs.drop 16)
  params := wordOf (bs.drop 24)

def pidSize : ℕ := 4

/-! ## `fibers_ioctl` -/

/-- What an `ioctl` leaves: the registry, the registers of its caller and its memory, the number
of bytes that it wrote there, and its return value. -/
structure Outcome where
  groups : Groups
  cpu : Cpu
  mem : UserMemory
  written : ℕ
  ret : ℤ

section Ioctl

variable (k : Kmalloc) (groups : Groups) (tsk : Task) (cpu : Cpu) (mem : UserMemory)

/-- Nothing but an error. -/
def Outcome.error (e : Errno) : Outcome := ⟨groups, cpu, mem, 0, -e.code⟩

/-- A `do_*` function whose result is the return value. -/
def Outcome.call (x : Groups × Ret) : Outcome := ⟨x.1, cpu, mem, 0, x.2.toLong⟩

def ioctlCreate (args : Word) : Option Outcome :=
  if mem.accessOk args FibArgs.size = false then some (.error groups cpu mem .EINVAL)
  else
    match mem.copyFrom args FibArgs.size with
    | none => some (.error groups cpu mem .EINVAL)
    | some bs => (doCreateFiber k groups tsk cpu (.ofBytes bs)).map (.call cpu mem)

/-- The result of the `access_ok` of this command is overwritten: there is no `break` after it. -/
def ioctlSwitch (args : Word) : Outcome :=
  match mem.copyFrom args pidSize with
  | none => .error groups cpu mem .EINVAL
  | some bs =>
    let (groups, cpu, r) := doSwitchToFiber groups tsk cpu (pidOf bs)
    ⟨groups, cpu, mem, 0, r.toLong⟩

/-- The `long long` that `do_fls_get_value` returns, be it a value or an error. -/
def readValue (r : Except Errno Word) : Word :=
  match r with
  | .ok v => v
  | .error e => BitVec.ofInt 64 (-e.code)

/-- The `copy_to_user` of `read_value`. -/
def copyOut (value v : Word) : Outcome :=
  let (mem, n) := mem.copyTo value (wordBytes v)
  ⟨groups, cpu, mem, n, if n = 8 then 0 else -Errno.EINVAL.code⟩

/-- `read_value` is copied out whether it is a value or an error. -/
def ioctlGetValue (args : Word) : Outcome :=
  if mem.accessOk args FlsArgs.size = false then .error groups cpu mem .EINVAL
  else
    match mem.copyFrom args FlsArgs.size with
    | none => .error groups cpu mem .EINVAL
    | some bs =>
      let a := FlsArgs.ofBytes bs
      copyOut groups cpu mem a.value (readValue (doFlsGetValue groups tsk a.idx.toInt))

/-- The other two commands with an `fls_args_t`. -/
def ioctlFls (args : Word) (op : FlsArgs → Groups × Ret) : Outcome :=
  if mem.accessOk args FlsArgs.size = false then .error groups cpu mem .EINVAL
  else
    match mem.copyFrom args FlsArgs.size with
    | none => .error groups cpu mem .EINVAL
    | some bs => .call cpu mem (op (.ofBytes bs))

def fibersIoctl (cmd : BitVec 32) (args : Word) : Option Outcome :=
  if cmd = ioctlConvertThreadToFiber then
    (doConvertThreadToFiber k groups tsk cpu).map (.call cpu mem)
  else if cmd = ioctlCreateFiber then ioctlCreate k groups tsk cpu mem args
  else if cmd = ioctlSwitchToFiber then some (ioctlSwitch groups tsk cpu mem args)
  else if cmd = ioctlFlsAlloc then some (.call cpu mem (doFlsAlloc groups tsk))
  else if cmd = ioctlFlsGetValue then some (ioctlGetValue groups tsk cpu mem args)
  else if cmd = ioctlFlsFree then
    some (ioctlFls groups cpu mem args (fun a => doFlsFree groups tsk a.idx.toInt))
  else if cmd = ioctlFlsSetValue then
    some (ioctlFls groups cpu mem args (fun a => doFlsSetValue groups tsk a.idx.toInt a.value))
  else some (.error groups cpu mem .EPERM)

end Ioctl

/-- `fibers_release`, with `current` the process that drops the last reference. -/
def fibersRelease (groups : Groups) (current : Task) : Groups :=
  cleanupProcess groups current.tgid

end Fibers
