import Fibers.Lib.X86

/-!
# Saving and restoring a context

`jmp.S`, instruction by instruction. `_set_jmp` stores the registers of its caller in an
`exec_context_t` and returns 0; `_long_jmp` makes the call of `_set_jmp` that filled a context return
once more, with a value of its own, whatever stack it is itself called on.

The macro around `_set_jmp` pushes `rdi` before the call, so the stack holds the return address and
behind it the caller's `rdi`.

## Main results

- `set_jmp_saves` — `_set_jmp` returns to its caller and leaves the registers in the context
- `long_jmp_restores` — `_long_jmp` for any context
- `long_jmp_resumes` — what was saved is restored
-/

namespace Fibers.Testbed.Jmp

open X86
open Words (Addr Apart Bytes Quad bytesAt off quadAt setBytes setQuad)

/-! ## The code -/

/-- `_set_jmp`. -/
def setJmp : List Instr := [
  .push .rax,
  .push .r11,
  -- only the status flags are saved
  .lahf,
  .setoAl,
  .push .rax,
  .mov .rdi .rax,
  .load 16 .rsp .r11,
  .store .r11 0 .rax,
  .store .rdx 8 .rax,
  .store .rcx 16 .rax,
  .store .rbx 24 .rax,
  .store .rsp 32 .rax,
  -- one quadword above it is the return address
  .addTo 16 32 .rax,
  .store .rbp 40 .rax,
  .store .rsi 48 .rax,
  .load 32 .rsp .r11,
  .store .r11 56 .rax,
  .store .r8 64 .rax,
  .store .r9 72 .rax,
  .store .r10 80 .rax,
  .load 8 .rsp .r11,
  .store .r11 88 .rax,
  .store .r12 96 .rax,
  .store .r13 104 .rax,
  .store .r14 112 .rax,
  .store .r15 120 .rax,
  .load 0 .rsp .rdx,
  .store .rdx 136 .rax,
  .load 24 .rsp .r11,
  .store .r11 128 .rax,
  .fxsave 144 .rax,
  .add 24 .rsp,
  .xor .rax .rax,
  .ret]

/-- `_long_jmp`. -/
def longJmp : List Instr := [
  .mov .rdi .rax,
  .load 128 .rax .r10,
  .load 32 .rax .r11,
  .store .r10 8 .r11,
  .store .rsi 0 .r11,
  .load 8 .rax .rdx,
  .load 16 .rax .rcx,
  .load 24 .rax .rbx,
  .load 32 .rax .rsp,
  .load 40 .rax .rbp,
  .load 48 .rax .rsi,
  .load 64 .rax .r8,
  .load 72 .rax .r9,
  .load 80 .rax .r10,
  .load 88 .rax .r11,
  .load 96 .rax .r12,
  .load 104 .rax .r13,
  .load 112 .rax .r14,
  .load 136 .rax .rax,
  .addAl 0x7f#8,
  .sahf,
  .mov .rdi .rax,
  .load 56 .rax .rdi,
  .load 120 .rax .r15,
  .fxrstor 144 .rax,
  .load 32 .rax .rsp,
  .pop .rax,
  .ret]

/-! ## Contexts -/

structure ExecContext where
  reg : Reg → Quad
  rip : Quad
  flags : Quad
  others : List Byte

/-- Where a register is in `exec_context_t`. -/
def slot : Reg → ℕ
  | .rax => 0
  | .rdx => 8
  | .rcx => 16
  | .rbx => 24
  | .rsp => 32
  | .rbp => 40
  | .rsi => 48
  | .rdi => 56
  | .r8 => 64
  | .r9 => 72
  | .r10 => 80
  | .r11 => 88
  | .r12 => 96
  | .r13 => 104
  | .r14 => 112
  | .r15 => 120

/-- `sizeof(exec_context_t)`. -/
def contextSize : ℕ := 656

/-- The `exec_context_t` at an address. -/
def contextAt (m : Bytes) (env : Addr) : ExecContext where
  reg r := quadAt m (off env (slot r))
  rip := quadAt m (off env 128)
  flags := quadAt m (off env 136)
  others := bytesAt m (off env 144) 512

/-- What the code between two calls computes with. -/
structure Registers (Fx : Type) where
  reg : Reg → Quad
  flags : Flags
  fx : Fx
  rip : Addr

variable {Fx : Type} (cpu : Processor Fx)

def registers (s : State Fx) : Registers Fx := ⟨s.reg, s.flags, s.fx, s.rip⟩

/-- The status flags as one word, the overflow flag in the lowest byte. -/
def flagWord (s : State Fx) : Quad :=
  setAl (setAh (s.reg .rax) s.flags.toByte) (overflowByte s.flags)

/-- What `_set_jmp` saves when its stack ends at `p`. -/
def captured (s : State Fx) (p : Addr) : ExecContext where
  reg r := if r = .rsp then off p 16 else if r = .rdi then quadAt s.mem (off p 32) else s.reg r
  rip := quadAt s.mem (off p 24)
  flags := flagWord s
  others := cpu.image s.fx

/-- What `_long_jmp` makes of a context and a return value. -/
def restored (c : ExecContext) (val : Quad) : Registers Fx where
  reg r := if r = .rax then val else if r = .rsp then off (c.reg .rsp) 16 else c.reg r
  flags := .ofByte (ah c.flags) (addFlags (al c.flags) 0x7f#8).overflow
  fx := cpu.load c.others
  rip := c.rip

/-- The caller of `_set_jmp` as it goes on with the value `val`. -/
def returning (s : State Fx) (p : Addr) (val : Quad) : Registers Fx where
  reg r :=
    if r = .rax then val
    else if r = .rsp then off p 32
    else if r = .rdi then quadAt s.mem (off p 32)
    else s.reg r
  flags := s.flags
  fx := s.fx
  rip := quadAt s.mem (off p 24)

/-- A capture restores its caller. -/
theorem restored_captured (s : State Fx) (p : Addr) (val : Quad) :
    restored cpu (captured cpu s p) val = returning s p val := by
  have hflags : Flags.ofByte (ah (flagWord s)) (addFlags (al (flagWord s)) 0x7f#8).overflow =
      s.flags := by
    rw [flagWord, ah_setAl, ah_setAh, al_setAl, overflow_after_add]
    exact Flags.ofByte_toByte s.flags
  have hreg : (restored cpu (captured cpu s p) val).reg = (returning s p val).reg := by
    funext r
    by_cases hsp : r = .rsp
    · simp [restored, returning, captured, hsp]
    · simp [restored, returning, captured, hsp]
  simp only [restored, returning, Registers.mk.injEq]
  exact ⟨hreg, hflags, cpu.load_image s.fx, rfl⟩

/-! ## The two routines -/

section Routines

variable {cpu} {m : Bytes} {p env : Addr} {v : Quad} {i j : ℕ} {s : State Fx}

theorem quadAt_off_setQuad (h : i + 8 ≤ j ∨ j + 8 ≤ i) (hi : i ≤ 1024) (hj : j ≤ 1024) :
    quadAt (setQuad m (off p j) v) (off p i) = quadAt m (off p i) :=
  Words.quadAt_setQuad_of_apart
    (Words.apart_off h (by omega) (by omega) (by omega) (by omega))

/-- A context and the words of the stack from `p` on, which a call of `_set_jmp` uses. -/
def Separate (env p : Addr) : Prop := Apart env contextSize p 40

theorem Separate.quadAt_stack (h : Separate env p) (hi : i + 8 ≤ 656) (hj : j + 8 ≤ 40) :
    quadAt (setQuad m (off env i) v) (off p j) = quadAt m (off p j) :=
  Words.quadAt_setQuad_of_apart (Words.Apart.sub (Words.Apart.symm h) hj hi (by omega) (by omega))

theorem Separate.quadAt_image {bs : List Byte} (h : Separate env p) (hbs : bs.length = 512)
    (hj : j + 8 ≤ 40) : quadAt (setBytes m (off env 144) bs) (off p j) = quadAt m (off p j) := by
  refine Words.quadAt_setBytes_of_apart (Words.Apart.sub (Words.Apart.symm h) hj ?_ (by omega) ?_)
  · rw [hbs, contextSize]
  · omega

/-- A call of `_set_jmp` whose stack ends at `p`. -/
structure Called (s : State Fx) (p : Addr) : Prop where
  sp : s.reg .rsp = off p 24
  aligned : (off (s.reg .rdi) 144).toNat % 16 = 0
  separate : Separate (s.reg .rdi) p

/-- The memory before the image of the extended registers is stored. -/
def stored (s : State Fx) (p : Addr) : Bytes :=
  let c := s.reg .rdi
  let m := setQuad (setQuad (setQuad s.mem (off p 16) (s.reg .rax)) (off p 8) (s.reg .r11))
    (off p 0) (flagWord s)
  let m := setQuad (setQuad (setQuad m (off c 0) (s.reg .rax)) (off c 8) (s.reg .rdx))
    (off c 16) (s.reg .rcx)
  let m := setQuad (setQuad (setQuad m (off c 24) (s.reg .rbx)) (off c 32) (off p 0))
    (off c 32) (off p 16)
  let m := setQuad (setQuad (setQuad m (off c 40) (s.reg .rbp)) (off c 48) (s.reg .rsi))
    (off c 56) (quadAt s.mem (off p 32))
  let m := setQuad (setQuad (setQuad m (off c 64) (s.reg .r8)) (off c 72) (s.reg .r9))
    (off c 80) (s.reg .r10)
  let m := setQuad (setQuad (setQuad m (off c 88) (s.reg .r11)) (off c 96) (s.reg .r12))
    (off c 104) (s.reg .r13)
  let m := setQuad (setQuad (setQuad m (off c 112) (s.reg .r14)) (off c 120) (s.reg .r15))
    (off c 136) (flagWord s)
  setQuad m (off c 128) (quadAt s.mem (off p 24))

theorem run_setJmp (h : Called s p) :
    ∃ s', run cpu s setJmp = some s' ∧
      s'.mem = setBytes (stored s p) (off (s.reg .rdi) 144) (cpu.image s.fx) ∧
      s'.rip = quadAt s.mem (off p 24) ∧ s'.fx = s.fx ∧ s'.reg .rsp = off p 32 ∧ s'.reg .rax = 0 ∧
      ∀ r, r ≠ .rax → r ≠ .rdx → r ≠ .r11 → r ≠ .rsp → s'.reg r = s.reg r := by
  have hpush : off p 24 - 8#64 = off p 16 := Words.off_sub (by omega)
  have hpush' : off p 16 - 8#64 = off p 8 := Words.off_sub (by omega)
  have hpush'' : off p 8 - 8#64 = off p 0 := Words.off_sub (by omega)
  have hstack := fun m v i j => h.separate.quadAt_stack (m := m) (v := v) (i := i) (j := j)
  have himage := fun m j => h.separate.quadAt_image (m := m) (j := j) (cpu.length_image s.fx)
  simp (disch := omega) only [setJmp, run, exec, State.set, State.at, Function.update_apply,
    reduceCtorEq, if_true, if_false, h.sp, hpush, hpush', hpush'', h.aligned, Words.off_off,
    Nat.reduceAdd, quadAt_off_setQuad, Words.quadAt_setQuad, hstack, himage]
  refine ⟨_, rfl, rfl, rfl, rfl, ?_, ?_, ?_⟩
  · simp
  · simp
  · intro r hax hdx h11 hsp
    simp [hax, hdx, h11, hsp]

theorem contextAt_stored (s : State Fx) (p : Addr) :
    contextAt (setBytes (stored s p) (off (s.reg .rdi) 144) (cpu.image s.fx)) (s.reg .rdi) =
      captured cpu s p := by
  have hquad : ∀ i, i + 8 ≤ 144 →
      quadAt (setBytes (stored s p) (off (s.reg .rdi) 144) (cpu.image s.fx)) (off (s.reg .rdi) i) =
        quadAt (stored s p) (off (s.reg .rdi) i) := by
    intro i hi
    refine Words.quadAt_setBytes_of_apart (Words.apart_off (.inl hi) (by omega) ?_ (by omega) ?_)
    · rw [cpu.length_image]
      omega
    · rw [cpu.length_image]
      omega
  have hothers : bytesAt (setBytes (stored s p) (off (s.reg .rdi) 144) (cpu.image s.fx))
      (off (s.reg .rdi) 144) (cpu.image s.fx).length = cpu.image s.fx :=
    Words.bytesAt_setBytes (by rw [cpu.length_image]; omega)
  rw [cpu.length_image] at hothers
  simp only [contextAt, captured, ExecContext.mk.injEq]
  refine ⟨?_, ?_, ?_, hothers⟩
  · funext r
    rw [hquad _ (by cases r <;> decide)]
    cases r <;> simp (disch := omega) [slot, stored, quadAt_off_setQuad, -Words.off_zero]
  · rw [hquad _ (by omega)]
    exact Words.quadAt_setQuad _
  · rw [hquad _ (by omega)]
    simp (disch := omega) [stored, quadAt_off_setQuad]

/-- `_set_jmp` writes the context and the stack below its return address. -/
theorem stored_of_far {x : Addr} (hc : contextSize ≤ (x - s.reg .rdi).toNat)
    (hp : 24 ≤ (x - p).toNat) : stored s p x = s.mem x := by
  have hcontext : ∀ (m : Bytes) (v : Quad) (i : ℕ), i + 8 ≤ contextSize →
      setQuad m (off (s.reg .rdi) i) v x = m x :=
    fun m v i hi => Words.setQuad_of_le (Words.le_sub_off hc hi)
  have hstack : ∀ (m : Bytes) (v : Quad) (i : ℕ), i + 8 ≤ 24 → setQuad m (off p i) v x = m x :=
    fun m v i hi => Words.setQuad_of_le (Words.le_sub_off hp hi)
  simp (disch := decide) only [stored, hcontext, hstack]

theorem contextAt_of_run {s₁ : State Fx} (h : Called s p) (hset : run cpu s setJmp = some s₁) :
    contextAt s₁.mem (s.reg .rdi) = captured cpu s p := by
  obtain ⟨s', hrun, hmem, -⟩ : ∃ s', run cpu s setJmp = some s' ∧ _ := run_setJmp h
  obtain rfl : s' = s₁ := Option.some.inj (hrun.symm.trans hset)
  rw [hmem]
  exact contextAt_stored s p

/-- `_set_jmp` returns 0 to its caller, with the caller's registers in the context. The stack pointer
there is 16 below the one that the caller goes on with, and the status flags are not kept. -/
theorem set_jmp_saves (h : Called s p) :
    ∃ s', run cpu s setJmp = some s' ∧
      s'.rip = quadAt s.mem (off p 24) ∧ s'.reg .rsp = off p 32 ∧ s'.reg .rax = 0 ∧
      (∀ r, r ≠ .rax → r ≠ .rdx → r ≠ .r11 → r ≠ .rsp → s'.reg r = s.reg r) ∧ s'.fx = s.fx ∧
      contextAt s'.mem (s.reg .rdi) = captured cpu s p ∧
      ∀ x, contextSize ≤ (x - s.reg .rdi).toNat → 24 ≤ (x - p).toNat → s'.mem x = s.mem x := by
  obtain ⟨s', hrun, hmem, hrip, hfx, hsp, hax, hreg⟩ :
    ∃ s', run cpu s setJmp = some s' ∧ _ := run_setJmp h
  refine ⟨s', hrun, hrip, hsp, hax, hreg, hfx, contextAt_of_run h hrun, ?_⟩
  intro x hc hp
  have himage : (cpu.image s.fx).length ≤ (x - off (s.reg .rdi) 144).toNat := by
    rw [cpu.length_image]
    exact Words.le_sub_off hc (by decide)
  rw [hmem, Words.setBytes_of_le himage, stored_of_far hc hp]

/-- A processor whose extended registers are their image. -/
def imageProcessor : Processor { l : List Byte // l.length = 512 } where
  image x := x.1
  load l := if h : l.length = 512 then ⟨l, h⟩ else ⟨List.replicate 512 0, List.length_replicate⟩
  length_image x := x.2
  load_image x := dif_pos x.2
  adjustAfterXor _ := true

/-- The caller returns to `0x401020` and has 9 on its stack behind the return address. -/
def caller : State { l : List Byte // l.length = 512 } where
  reg r := if r = .rsp then 0x8000#64 else if r = .rdi then 0x1000#64 else 3
  flags := ⟨true, false, true, false, false, true⟩
  fx := ⟨List.replicate 512 1, List.length_replicate⟩
  mem := setQuad (setQuad (fun _ => 0) 0x8000#64 0x401020#64) 0x8008#64 9
  rip := 0x700#64

theorem caller_called : Called caller 0x7fe8#64 :=
  ⟨rfl, by decide, show Apart _ _ _ _ by decide⟩

theorem set_jmp_saves_caller : ∃ s', run imageProcessor caller setJmp = some s' ∧
    s'.reg .rax = 0 ∧ s'.reg .rbx = 3 ∧ (contextAt s'.mem 0x1000#64).reg .rdi = 9 := by
  obtain ⟨s', hrun, -, -, hax, hreg, -, hcontext, -⟩ :
    ∃ s', run imageProcessor caller setJmp = some s' ∧ _ := set_jmp_saves caller_called
  refine ⟨s', hrun, hax, hreg .rbx nofun nofun nofun nofun, ?_⟩
  exact (congrArg (fun c => c.reg .rdi) hcontext).trans (Words.quadAt_setQuad _)

/-- `_long_jmp`, for a context apart from the two words that it writes to the stack. -/
theorem long_jmp_restores {c : ExecContext} (hc : contextAt s.mem (s.reg .rdi) = c)
    (haligned : (off (s.reg .rdi) 144).toNat % 16 = 0)
    (hapart : Apart (s.reg .rdi) contextSize (c.reg .rsp) 16) :
    ∃ s', run cpu s longJmp = some s' ∧ registers s' = restored cpu c (s.reg .rsi) ∧
      s'.mem = setQuad (setQuad s.mem (off (c.reg .rsp) 8) c.rip) (c.reg .rsp) (s.reg .rsi) := by
  subst hc
  have hquad : ∀ (m : Bytes) (v : Quad) (i j : ℕ), i + 8 ≤ 656 → j + 8 ≤ 16 →
      quadAt (setQuad m (off (quadAt s.mem (off (s.reg .rdi) 32)) j) v) (off (s.reg .rdi) i) =
        quadAt m (off (s.reg .rdi) i) :=
    fun m v i j hi hj => Words.quadAt_setQuad_of_apart
      (Words.Apart.sub hapart hi hj (by omega) (by omega))
  have hothers : ∀ (m : Bytes) (v : Quad) (j : ℕ), j + 8 ≤ 16 →
      bytesAt (setQuad m (off (quadAt s.mem (off (s.reg .rdi) 32)) j) v) (off (s.reg .rdi) 144) 512 =
        bytesAt m (off (s.reg .rdi) 144) 512 :=
    fun m v j hj => Words.bytesAt_setQuad_of_apart
      (Words.Apart.sub hapart (by decide) hj (by omega) (by omega))
  -- the two words that the last two instructions read back
  have hval : ∀ (m : Bytes) (a : Addr) (v : Quad), quadAt (setQuad m (off a 0) v) a = v := by
    intro m a v
    rw [Words.off_zero, Words.quadAt_setQuad]
  have hret : ∀ (m : Bytes) (a : Addr) (u v : Quad),
      quadAt (setQuad (setQuad m (off a 8) u) (off a 0) v) (off a 8) = u := by
    intro m a u v
    rw [quadAt_off_setQuad (.inr le_rfl) (by omega) (by omega), Words.quadAt_setQuad]
  simp (disch := omega) only [longJmp, run, exec, State.set, State.at, Function.update_apply,
    reduceCtorEq, if_true, if_false, haligned, hquad, hothers, hval, hret]
  refine ⟨_, rfl, ?_, ?_⟩
  · simp only [registers, restored, contextAt, ah_setAl, Registers.mk.injEq, and_true]
    funext r
    cases r <;> simp [slot]
  · rw [Words.off_zero]
    rfl

/-- `_long_jmp` for a context that still holds what `_set_jmp` saved. -/
theorem run_longJmp {s₂ : State Fx} (h : Called s p) (henv : s₂.reg .rdi = s.reg .rdi)
    (hc : contextAt s₂.mem (s.reg .rdi) = captured cpu s p) :
    ∃ s₃, run cpu s₂ longJmp = some s₃ ∧ registers s₃ = returning s p (s₂.reg .rsi) ∧
      s₃.mem = setQuad (setQuad s₂.mem (off (off p 16) 8) (quadAt s.mem (off p 24))) (off p 16)
        (s₂.reg .rsi) := by
  rw [← henv] at hc
  have hapart : Apart (s₂.reg .rdi) contextSize (off p 16) 16 := by
    rw [henv]
    have hsub : Apart (off (s.reg .rdi) 0) contextSize (off p 16) 16 :=
      Words.Apart.sub h.separate (by omega) (by omega) (by decide) (by omega)
    rwa [Words.off_zero] at hsub
  obtain ⟨s₃, hrun, hregs, hmem⟩ :=
    long_jmp_restores hc (by rw [henv]; exact h.aligned) hapart
  rw [restored_captured] at hregs
  exact ⟨s₃, hrun, hregs, hmem⟩

/-- A context that `_set_jmp` filled and nobody wrote since: `_long_jmp` makes that call return
once more. Of the memory it only touches what lies below the stack pointer it goes on with. -/
theorem long_jmp_resumes {s₁ s₂ : State Fx} (h : Called s p) (hset : run cpu s setJmp = some s₁)
    (henv : s₂.reg .rdi = s.reg .rdi)
    (hkept : contextAt s₂.mem (s.reg .rdi) = contextAt s₁.mem (s.reg .rdi)) :
    ∃ s₃, run cpu s₂ longJmp = some s₃ ∧
      registers s₃ = returning s p (s₂.reg .rsi) ∧ s₃.rip = s₁.rip ∧ s₃.reg .rsp = s₁.reg .rsp ∧
      ∀ x, 16 ≤ (x - off p 16).toNat → s₃.mem x = s₂.mem x := by
  obtain ⟨s', hrun, -, hrip, -, hsp, -⟩ : ∃ s', run cpu s setJmp = some s' ∧ _ := run_setJmp h
  obtain rfl : s' = s₁ := Option.some.inj (hrun.symm.trans hset)
  obtain ⟨s₃, hrun₃, hregs, hmem⟩ := run_longJmp h henv (hkept.trans (contextAt_of_run h hset))
  refine ⟨s₃, hrun₃, hregs, ?_, ?_, ?_⟩
  · exact (congrArg Registers.rip hregs).trans hrip.symm
  · rw [hsp]
    exact congrFun (congrArg Registers.reg hregs) .rsp
  · intro x hx
    have hx' : 8 ≤ (x - off (off p 16) 8).toNat := Words.le_sub_off hx (by omega)
    have hx'' : 8 ≤ (x - off p 16).toNat := by omega
    rw [hmem, Words.setQuad_of_le hx'', Words.setQuad_of_le hx']

/-- `_long_jmp` in a processor that has the same memory, with the value 7. -/
theorem long_jmp_resumes_caller : ∃ s₁ s₃, run imageProcessor caller setJmp = some s₁ ∧
    run imageProcessor { caller with mem := s₁.mem, reg := Function.update caller.reg .rsi 7 }
      longJmp = some s₃ ∧
    s₃.reg .rax = 7 ∧ s₃.reg .rdi = 9 ∧ s₃.rip = s₁.rip := by
  obtain ⟨s₁, hset, -⟩ : ∃ s', run imageProcessor caller setJmp = some s' ∧ _ :=
    run_setJmp caller_called
  let s₂ := { caller with mem := s₁.mem, reg := Function.update caller.reg .rsi 7 }
  have henv : s₂.reg .rdi = caller.reg .rdi := rfl
  obtain ⟨s₃, hrun, hregs, hrip, -⟩ := long_jmp_resumes caller_called hset henv rfl
  refine ⟨s₁, s₃, hset, hrun, ?_, ?_, hrip⟩
  · exact congrFun (congrArg Registers.reg hregs) .rax
  · exact (congrFun (congrArg Registers.reg hregs) .rdi).trans (Words.quadAt_setQuad _)

end Routines

end Fibers.Testbed.Jmp
