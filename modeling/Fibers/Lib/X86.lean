import Fibers.Lib.Words
import Mathlib.Logic.Function.Basic

/-!
# Straight-line x86-64 code

The sixteen general registers, the status flags, the image that `fxsave` and `fxrstor` move, a flat
memory, and the instructions of leaf routines that run from their first instruction to `ret`. All
memory is accessible, so the only fault is an image that is not aligned to 16 bytes.

## Main definitions

- `exec`, `run` — one instruction, and a list of them up to its end

## Main results

- `Flags.ofByte_toByte`, `overflow_after_add` — the flags survive `lahf`, `seto` and their inverses
-/

namespace X86

open Words

inductive Reg
  | rax
  | rdx
  | rcx
  | rbx
  | rsp
  | rbp
  | rsi
  | rdi
  | r8
  | r9
  | r10
  | r11
  | r12
  | r13
  | r14
  | r15
  deriving DecidableEq

/-- The status flags. -/
@[ext] structure Flags where
  carry : Bool
  parity : Bool
  adjust : Bool
  zero : Bool
  sign : Bool
  overflow : Bool
  deriving DecidableEq

/-- What is left to the processor: the image of its extended registers, and the adjust flag after an
`xor`, which no manual defines. -/
structure Processor (Fx : Type*) where
  image : Fx → List Byte
  load : List Byte → Fx
  length_image : ∀ x, (image x).length = 512
  load_image : ∀ x, load (image x) = x
  adjustAfterXor : Quad → Bool

structure State (Fx : Type*) where
  reg : Reg → Quad
  flags : Flags
  fx : Fx
  mem : Bytes
  rip : Addr

variable {Fx : Type*}

def State.set (s : State Fx) (r : Reg) (v : Quad) : State Fx :=
  { s with reg := Function.update s.reg r v }

/-! ## The bytes of `rax` -/

def al (v : Quad) : BitVec 8 := v.extractLsb' 0 8

def ah (v : Quad) : BitVec 8 := v.extractLsb' 8 8

def setAl (v : Quad) (b : BitVec 8) : Quad := (v.extractLsb' 8 56 ++ b).cast rfl

def setAh (v : Quad) (b : BitVec 8) : Quad :=
  (v.extractLsb' 16 48 ++ b ++ v.extractLsb' 0 8).cast rfl

@[simp] theorem al_setAl (v : Quad) (b : BitVec 8) : al (setAl v b) = b := by
  ext i hi
  rw [al, setAl, BitVec.getElem_extractLsb', BitVec.getLsbD_cast, BitVec.getLsbD_append]
  simp [hi]

@[simp] theorem ah_setAl (v : Quad) (b : BitVec 8) : ah (setAl v b) = ah v := by
  ext i hi
  have hhigh : i < 56 := by omega
  rw [ah, setAl, BitVec.getElem_extractLsb', BitVec.getLsbD_cast, BitVec.getLsbD_append]
  simp [ah, hhigh]

@[simp] theorem ah_setAh (v : Quad) (b : BitVec 8) : ah (setAh v b) = b := by
  ext i hi
  rw [ah, setAh, BitVec.getElem_extractLsb', BitVec.getLsbD_cast, BitVec.getLsbD_append,
    if_neg (by omega), BitVec.getLsbD_append]
  simp [hi]

/-! ## Flags -/

/-- The byte that `lahf` loads. -/
def Flags.toByte (f : Flags) : BitVec 8 :=
  BitVec.ofBoolListLE [f.carry, true, f.parity, false, f.adjust, false, f.zero, f.sign]

/-- The flags that `sahf` stores; it leaves the overflow flag alone. -/
def Flags.ofByte (b : BitVec 8) (overflow : Bool) : Flags where
  carry := b.getLsbD 0
  parity := b.getLsbD 2
  adjust := b.getLsbD 4
  zero := b.getLsbD 6
  sign := b.getLsbD 7
  overflow := overflow

theorem Flags.ofByte_toByte (f : Flags) : ofByte f.toByte f.overflow = f := by
  simp [ofByte, toByte, BitVec.ofBoolListLE]

/-- The flags that every result sets in the same way. -/
def resultFlags {w : ℕ} (r : BitVec w) (carry adjust overflow : Bool) : Flags where
  carry := carry
  parity := (List.range 8).countP (fun i => r.getLsbD i) % 2 = 0
  adjust := adjust
  zero := r = 0
  sign := r.msb
  overflow := overflow

def addFlags {w : ℕ} (a b : BitVec w) : Flags :=
  resultFlags (a + b) (2 ^ w ≤ a.toNat + b.toNat) (16 ≤ a.toNat % 16 + b.toNat % 16)
    (a.msb = b.msb ∧ (a + b).msb ≠ a.msb)

/-- The byte that `seto` loads. -/
def overflowByte (f : Flags) : BitVec 8 := if f.overflow then 1 else 0

/-- Adding the largest positive number overflows just from 1 on. -/
theorem overflow_after_add (f : Flags) : (addFlags (overflowByte f) 0x7f#8).overflow = f.overflow := by
  cases h : f.overflow with
  | false => simp [overflowByte, h, addFlags, resultFlags]
  | true =>
    simp only [overflowByte, h, addFlags, resultFlags]
    decide

/-! ## Instructions -/

/-- Instructions with their operands in the order of the AT&T syntax. -/
inductive Instr
  | push (r : Reg)
  | pop (r : Reg)
  | mov (src dst : Reg)
  | load (disp : ℕ) (base dst : Reg)
  | store (src : Reg) (disp : ℕ) (base : Reg)
  | add (imm : ℕ) (dst : Reg)
  | addTo (imm disp : ℕ) (base : Reg)
  | addAl (imm : BitVec 8)
  | xor (src dst : Reg)
  | lahf
  | sahf
  | setoAl
  | fxsave (disp : ℕ) (base : Reg)
  | fxrstor (disp : ℕ) (base : Reg)
  | ret

/-- The address of a memory operand. -/
def State.at (s : State Fx) (disp : ℕ) (base : Reg) : Addr := off (s.reg base) disp

variable (cpu : Processor Fx)

def exec (s : State Fx) : Instr → Option (State Fx)
  | .push r =>
    let sp := s.reg .rsp - 8#64
    some { s.set .rsp sp with mem := setQuad s.mem sp (s.reg r) }
  | .pop r =>
    some ((s.set .rsp (off (s.reg .rsp) 8)).set r (quadAt s.mem (s.reg .rsp)))
  | .mov src dst => some (s.set dst (s.reg src))
  | .load disp base dst => some (s.set dst (quadAt s.mem (s.at disp base)))
  | .store src disp base => some { s with mem := setQuad s.mem (s.at disp base) (s.reg src) }
  | .add imm dst =>
    some { s.set dst (off (s.reg dst) imm) with
      flags := addFlags (s.reg dst) (BitVec.ofNat 64 imm) }
  | .addTo imm disp base =>
    let v := quadAt s.mem (s.at disp base)
    some { s with
      mem := setQuad s.mem (s.at disp base) (off v imm)
      flags := addFlags v (BitVec.ofNat 64 imm) }
  | .addAl imm =>
    let b := al (s.reg .rax)
    some { s.set .rax (setAl (s.reg .rax) (b + imm)) with flags := addFlags b imm }
  | .xor src dst =>
    let v := s.reg src ^^^ s.reg dst
    some { s.set dst v with flags := resultFlags v false (cpu.adjustAfterXor v) false }
  | .lahf => some (s.set .rax (setAh (s.reg .rax) s.flags.toByte))
  | .sahf => some { s with flags := .ofByte (ah (s.reg .rax)) s.flags.overflow }
  | .setoAl => some (s.set .rax (setAl (s.reg .rax) (overflowByte s.flags)))
  | .fxsave disp base =>
    if (s.at disp base).toNat % 16 = 0 then
      some { s with mem := setBytes s.mem (s.at disp base) (cpu.image s.fx) }
    else none
  | .fxrstor disp base =>
    if (s.at disp base).toNat % 16 = 0 then
      some { s with fx := cpu.load (bytesAt s.mem (s.at disp base) 512) }
    else none
  | .ret => some { s.set .rsp (off (s.reg .rsp) 8) with rip := quadAt s.mem (s.reg .rsp) }

def run : State Fx → List Instr → Option (State Fx)
  | s, [] => some s
  | s, i :: is =>
    match exec cpu s i with
    | none => none
    | some s => run s is

end X86
