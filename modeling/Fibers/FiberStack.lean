import Fibers.Library

/-!
# The stack of a new fiber

`Create_fiber` lets `posix_memalign` choose a block for the stack and passes its address and size
on; `ALLOC_STACK` and `ALLOC_CONTEXT` compute the initial stack pointer, 8 bytes below the end.
Nobody rounds the size, so the pointer is where a function expects it for some sizes only.

## Main results

- `createFiber_eq` — the library creates the fiber that it is asked for
- `new_fiber_stack` — the sizes for which the fiber starts inside its stack, aligned
-/

namespace Fibers

/-! ## The way of the arguments -/

theorem FibArgs.length_bytes (a : FibArgs) : a.bytes.length = FibArgs.size := by
  simp [FibArgs.bytes, FibArgs.size]

theorem FibArgs.ofBytes_bytes (a : FibArgs) : FibArgs.ofBytes a.bytes = a := by
  obtain ⟨base, size, entry, params⟩ := a
  have hdrop : ∀ (v : Word) (bs : List Byte), (wordBytes v ++ bs).drop 8 = bs := fun v bs =>
    List.drop_left' (length_wordBytes v)
  have hsplit : FibArgs.bytes ⟨base, size, entry, params⟩ =
      wordBytes base ++ (wordBytes size ++ (wordBytes entry ++ wordBytes params)) := by
    simp [FibArgs.bytes]
  have h₁₆ : ∀ bs : List Byte, bs.drop 16 = (bs.drop 8).drop 8 := fun bs => by
    rw [List.drop_drop]
  have h₂₄ : ∀ bs : List Byte, bs.drop 24 = ((bs.drop 8).drop 8).drop 8 := fun bs => by
    rw [List.drop_drop, List.drop_drop]
  rw [hsplit, FibArgs.ofBytes, h₁₆, h₂₄]
  simp only [hdrop, wordOf_append, wordOf_wordBytes]

/-- The block that `posix_memalign` returned for a stack: it is aligned, does not wrap around the
address space, and is apart from the arguments on the caller's own stack. -/
structure FibArgs.Allocated {mem : UserMemory} (a : FibArgs) (sl : Slots mem) : Prop where
  aligned : a.stackBase.toNat % 16 = 0
  fits : a.stackBase.toNat + a.stackSize.toNat ≤ 2 ^ 64
  apart : ∀ x ∈ Memory.range sl.args FibArgs.size,
    x.toNat < a.stackBase.toNat ∨ a.stackBase.toNat + a.stackSize.toNat ≤ x.toNat

section Create

variable {k : Kmalloc} {groups : Groups} {t : Task} {cpu : Cpu} {mem : UserMemory}
  {sl : Slots mem} {a : FibArgs}

/-- The distance from the block to an address outside. -/
theorem FibArgs.size_le_offset {x : Word} (hfits : a.stackBase.toNat + a.stackSize.toNat ≤ 2 ^ 64)
    (h : x.toNat < a.stackBase.toNat ∨ a.stackBase.toNat + a.stackSize.toNat ≤ x.toNat) :
    a.stackSize.toNat ≤ (x - a.stackBase).toNat := by
  have hx := x.isLt
  rw [BitVec.toNat_sub]
  obtain h | h := h
  · rw [Nat.mod_eq_of_lt (by omega)]
    omega
  · omega

/-- The zeroed stack leaves the arguments alone. -/
theorem request_createFiber_eq (h : a.Allocated sl) :
    request ((mem.store sl.args a.bytes).store a.stackBase (List.replicate a.stackSize.toNat 0))
      ioctlCreateFiber sl.args = .createFiber a := by
  have hread : (Memory.range sl.args FibArgs.size).all ((mem.store sl.args a.bytes).store
      a.stackBase (List.replicate a.stackSize.toNat 0)).readable = true := sl.args_readable
  have hload : ((mem.store sl.args a.bytes).store a.stackBase
      (List.replicate a.stackSize.toNat 0)).load sl.args FibArgs.size = a.bytes := by
    rw [Memory.load_store_of_apart, ← a.length_bytes]
    · apply Memory.load_store
      rw [a.length_bytes]
      decide
    · intro x hx
      rw [List.length_replicate]
      exact FibArgs.size_le_offset h.fits (h.apart x hx)
  simp only [request, Memory.copyFrom_of_readable hread, hload]
  rw [if_neg (by decide), if_pos trivial]
  show Request.createFiber (.ofBytes a.bytes) = _
  rw [FibArgs.ofBytes_bytes]

theorem createFiber_eq (h : a.Allocated sl) :
    createFiber k groups t cpu mem sl a =
      (doCreateFiber k groups t cpu a).map fun x =>
        ⟨x.1, cpu, (mem.store sl.args a.bytes).store a.stackBase
          (List.replicate a.stackSize.toNat 0), 0, ioctlReturn x.2.toLong⟩ := by
  rw [createFiber, libIoctl_eq, request_createFiber_eq h, Request.serve, Option.map_map]
  rfl

/-! ## The initial stack pointer -/

/-- A fiber starts with its stack pointer in the block, at a slot of 8 bytes, and aligned as at the
entry of a function. -/
structure StartsInside (a : FibArgs) (f : Fiber) : Prop where
  above : a.stackBase.toNat ≤ f.context.regs.sp.toNat
  below : f.context.regs.sp.toNat + 8 ≤ a.stackBase.toNat + a.stackSize.toNat
  aligned : f.context.regs.sp.toNat % 16 = 8

theorem startsInside_iff {f : Fiber} (hf : f.context.regs.sp = a.stackBase + a.stackSize - 8)
    (haligned : a.stackBase.toNat % 16 = 0)
    (hfits : a.stackBase.toNat + a.stackSize.toNat ≤ 2 ^ 64) :
    StartsInside a f ↔ 0 < a.stackSize.toNat ∧ a.stackSize.toNat % 16 = 0 := by
  have hsize := a.stackSize.isLt
  have hsp : f.context.regs.sp.toNat =
      (2 ^ 64 - 8 + (a.stackBase.toNat + a.stackSize.toNat) % 2 ^ 64) % 2 ^ 64 := by
    rw [hf, BitVec.toNat_sub, BitVec.toNat_add]
    rfl
  constructor
  · rintro ⟨habove, hbelow, hmod⟩
    rw [hsp] at habove hbelow hmod
    omega
  · rintro ⟨hpos, hmod⟩
    -- the end of the block is 16 bytes above its beginning or more
    refine ⟨?_, ?_, ?_⟩ <;>
    · rw [hsp]
      omega

/-- A create that succeeds leaves a fiber that starts 8 bytes below the end of its block. -/
theorem sp_of_doCreateFiber {g : Groups} {fid : ℤ}
    (h : doCreateFiber k groups t cpu a = some (g, .ok fid)) :
    ∃ tg f, getGroup t.tgid g = some tg ∧ getFiber fid tg = some f ∧
      f.context.regs.sp = a.stackBase + a.stackSize - 8 := by
  rw [doCreateFiber_eq] at h
  split at h
  · cases h
  · next tg hg =>
    split at h
    · cases h
    · next th ht =>
      split at h
      · cases h
        have htg : (created tg th cpu a).tgid = t.tgid :=
          (tgid_created tg th cpu a).trans (tgid_of_getGroup hg)
        refine ⟨created tg th cpu a, createdFiber tg th cpu a, ?_, ?_, rfl⟩
        · rw [getGroup_storeGroup, htg, if_pos rfl, hg]
          rfl
        · rw [getFiber_created, if_pos rfl]
      · cases h

/-- A new fiber starts inside its stack, aligned, exactly if the size of the stack is a positive
multiple of 16: the library hands the size over as it is, and nobody rounds it. -/
theorem new_fiber_stack {g : Groups} {fid : ℤ} (ha : a.Allocated sl)
    (hcall : doCreateFiber k groups t cpu a = some (g, .ok fid)) :
    ∃ tg f mem', createFiber k groups t cpu mem sl a = some ⟨g, cpu, mem', 0, ioctlReturn fid⟩ ∧
      getGroup t.tgid g = some tg ∧ getFiber fid tg = some f ∧
      (StartsInside a f ↔ 0 < a.stackSize.toNat ∧ a.stackSize.toNat % 16 = 0) := by
  obtain ⟨tg, f, hg, hf, hsp⟩ := sp_of_doCreateFiber hcall
  refine ⟨tg, f, (mem.store sl.args a.bytes).store a.stackBase
    (List.replicate a.stackSize.toNat 0), ?_, hg, hf, startsInside_iff hsp ha.aligned ha.fits⟩
  rw [createFiber_eq ha, hcall]
  rfl

end Create

/-! ## Two sizes -/

/-- A stack of some size. -/
def stackOf (size : Word) : FibArgs := ⟨0x4000, size, 0x400000, 7⟩

/-- The arguments on a stack that ends below the block. -/
def lowSlots : Slots flatMemory where
  args := 0x1000
  result := 0x2000
  args_readable := by decide
  result_writable := by decide

theorem stackOf_allocated {s : Word} (h : s.toNat ≤ 2 ^ 32) : (stackOf s).Allocated lowSlots where
  aligned := by
    show (0x4000 : Word).toNat % 16 = 0
    rfl
  fits := by
    show (0x4000 : Word).toNat + s.toNat ≤ 2 ^ 64
    have hbase : (0x4000 : Word).toNat = 0x4000 := rfl
    omega
  apart := by
    intro x hx
    obtain ⟨i, hi, rfl⟩ := Memory.mem_range.mp hx
    left
    show ((0x1000 : Word) + BitVec.ofNat 64 i).toNat < 0x4000
    rw [BitVec.toNat_add, BitVec.toNat_ofNat]
    have hsize : FibArgs.size = 32 := rfl
    have hargs : (0x1000 : Word).toNat = 0x1000 := rfl
    omega

/-- The size of the tests. -/
theorem new_fiber_stack_8192 :
    ∃ g tg f mem', createFiber .succeeds oneFiber ⟨1, 1⟩ default flatMemory lowSlots
        (stackOf 8192) = some ⟨g, default, mem', 0, 1⟩ ∧
      getGroup 1 g = some tg ∧ getFiber 1 tg = some f ∧ StartsInside (stackOf 8192) f := by
  have hrun : ((doCreateFiber .succeeds oneFiber ⟨1, 1⟩ default (stackOf 8192)).map
      Prod.snd) = some (.ok 1) := by decide +kernel
  obtain ⟨⟨g, r⟩, hcall, rfl⟩ := Option.map_eq_some_iff.mp hrun
  have ha := stackOf_allocated (s := 8192) (by decide)
  obtain ⟨tg, f, mem', hlib, hg, hf, hiff⟩ := new_fiber_stack ha hcall
  exact ⟨g, tg, f, mem', hlib, hg, hf, hiff.mpr (by decide)⟩

/-- A stack of 100 bytes: the fiber starts at an address that is 12 modulo 16. -/
theorem starts_unaligned :
    (stackOf 100).Allocated lowSlots ∧
      ∃ o tg f, createFiber .succeeds oneFiber ⟨1, 1⟩ default flatMemory lowSlots
          (stackOf 100) = some o ∧ o.ret = 1 ∧
        getGroup 1 o.groups = some tg ∧ getFiber 1 tg = some f ∧
        f.context.regs.sp = 0x405c ∧ ¬ StartsInside (stackOf 100) f := by
  have ha := stackOf_allocated (s := 100) (by decide)
  have hrun : ((doCreateFiber .succeeds oneFiber ⟨1, 1⟩ default (stackOf 100)).map
      Prod.snd) = some (.ok 1) := by decide +kernel
  obtain ⟨⟨g, r⟩, hcall, rfl⟩ := Option.map_eq_some_iff.mp hrun
  obtain ⟨tg, f, hg, hf, hsp⟩ := sp_of_doCreateFiber hcall
  have hsp' : f.context.regs.sp = 0x405c := hsp.trans (by decide)
  refine ⟨ha, _, tg, f, (createFiber_eq ha).trans (by rw [hcall]; rfl), rfl, hg, hf, hsp', ?_⟩
  intro h
  have := h.aligned
  rw [hsp'] at this
  exact absurd this (by decide)

end Fibers
