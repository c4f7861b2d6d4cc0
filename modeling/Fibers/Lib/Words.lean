import Fibers.Lib.Memory

/-!
# Words and buffers in a flat memory

The memory of a machine as bytes by address, all of it accessible. Addresses wrap around, so two
regions are apart when neither of them begins inside the other, and an address is written as a base
with an offset: `off p i`.

## Main results

- `quadAt_setQuad`, `quadAt_setQuad_of_apart` — a word after a word has been written
- `Apart.sub`, `apart_off` — regions that are apart inside others, and at offsets of one base
-/

namespace Words

abbrev Addr := BitVec 64

abbrev Quad := BitVec 64

abbrev Bytes := Addr → Byte

/-- The address `i` bytes behind `p`. -/
def off (p : Addr) (i : ℕ) : Addr := p + BitVec.ofNat 64 i

/-- The memory with `bs` at the addresses from `a` on. -/
def setBytes (m : Bytes) (a : Addr) (bs : List Byte) : Bytes := fun x => bs.getD (x - a).toNat (m x)

/-- The `n` bytes from `a` on. -/
def bytesAt (m : Bytes) (a : Addr) (n : ℕ) : List Byte := (List.range n).map fun i => m (off a i)

def quadAt (m : Bytes) (a : Addr) : Quad := BitVec.ofNat 64 (decode (bytesAt m a 8))

def setQuad (m : Bytes) (a : Addr) (v : Quad) : Bytes := setBytes m a (encode 8 v.toNat)

/-- The `n` bytes from `a` on and the `k` bytes from `b` on have no address in common. -/
def Apart (a : Addr) (n : ℕ) (b : Addr) (k : ℕ) : Prop := n ≤ (b - a).toNat ∧ k ≤ (a - b).toNat

instance (a : Addr) (n : ℕ) (b : Addr) (k : ℕ) : Decidable (Apart a n b k) :=
  inferInstanceAs (Decidable (_ ∧ _))

variable {m m' : Bytes} {p a b : Addr} {n k i j : ℕ}

/-! ## Offsets -/

@[simp] theorem off_zero : off p 0 = p := by simp [off]

@[simp] theorem off_off : off (off p i) j = off p (i + j) := by
  simp [off, BitVec.ofNat_add, BitVec.add_assoc]

theorem off_sub (h : j ≤ i) : off p i - BitVec.ofNat 64 j = off p (i - j) := by
  obtain ⟨d, rfl⟩ := Nat.exists_eq_add_of_le h
  rw [Nat.add_sub_cancel_left, Nat.add_comm, ← off_off]
  exact BitVec.add_sub_cancel _ _

/-! ## Regions -/

theorem Apart.symm (h : Apart a n b k) : Apart b k a n := ⟨h.2, h.1⟩

/-- An address in the first region, seen from the second one. -/
theorem Apart.le_offset (h : Apart a n b k) (hi : i < n) : k ≤ (off a i - b).toNat := by
  have hab := h.1
  have hba := h.2
  have hlt := (b - a).isLt
  have hlt' := (a - b).isLt
  simp only [off, BitVec.toNat_sub, BitVec.toNat_add, BitVec.toNat_ofNat] at *
  omega

theorem Apart.sub {n' k' : ℕ} (h : Apart a n b k) (hi : i + n' ≤ n) (hj : j + k' ≤ k)
    (hn : 0 < n') (hk : 0 < k') : Apart (off a i) n' (off b j) k' := by
  have hab := h.1
  have hba := h.2
  have hlt := (b - a).isLt
  have hlt' := (a - b).isLt
  simp only [Apart, off, BitVec.toNat_sub, BitVec.toNat_add, BitVec.toNat_ofNat] at *
  omega

/-- An address behind a region, seen from inside the region. -/
theorem le_sub_off {x : Addr} (h : n ≤ (x - a).toNat) (hi : i + k ≤ n) :
    k ≤ (x - off a i).toNat := by
  have hlt := (x - a).isLt
  simp only [off, BitVec.toNat_sub, BitVec.toNat_add, BitVec.toNat_ofNat] at *
  omega

/-- Two regions at offsets of the same base. -/
theorem apart_off (h : i + n ≤ j ∨ j + k ≤ i) (hn : 0 < n) (hk : 0 < k) (hi : i + n ≤ 2 ^ 63)
    (hj : j + k ≤ 2 ^ 63) : Apart (off p i) n (off p j) k := by
  have hp := p.isLt
  simp only [Apart, off, BitVec.toNat_sub, BitVec.toNat_add, BitVec.toNat_ofNat]
  omega

/-! ## Buffers -/

@[simp] theorem length_bytesAt : (bytesAt m a n).length = n := by simp [bytesAt]

theorem bytesAt_congr (h : ∀ i < n, m (off a i) = m' (off a i)) : bytesAt m a n = bytesAt m' a n :=
  List.map_congr_left fun i hi => h i (List.mem_range.mp hi)

theorem setBytes_of_le {bs : List Byte} {x : Addr} (h : bs.length ≤ (x - a).toNat) :
    setBytes m a bs x = m x :=
  List.getD_eq_default _ _ h

theorem bytesAt_setBytes {bs : List Byte} (h : bs.length ≤ 2 ^ 64) :
    bytesAt (setBytes m a bs) a bs.length = bs := by
  refine List.ext_getElem length_bytesAt (fun i hi hi' => ?_)
  have hoff : (off a i - a).toNat = i := by
    rw [off, BitVec.add_comm, BitVec.add_sub_cancel, BitVec.toNat_ofNat]
    exact Nat.mod_eq_of_lt (by omega)
  simp only [bytesAt, List.getElem_map, List.getElem_range, setBytes, hoff]
  exact List.getD_eq_getElem _ _ hi'

theorem bytesAt_setBytes_of_apart {bs : List Byte} (h : Apart a n b bs.length) :
    bytesAt (setBytes m b bs) a n = bytesAt m a n :=
  bytesAt_congr fun _ hi => setBytes_of_le (h.le_offset hi)

/-! ## Words -/

theorem setQuad_of_le {v : Quad} {x : Addr} (h : 8 ≤ (x - a).toNat) : setQuad m a v x = m x :=
  setBytes_of_le (by simpa using h)

@[simp] theorem quadAt_setQuad (v : Quad) : quadAt (setQuad m a v) a = v := by
  have hget : bytesAt (setQuad m a v) a 8 = encode 8 v.toNat := by
    have hput : bytesAt (setQuad m a v) a (encode 8 v.toNat).length = encode 8 v.toNat :=
      bytesAt_setBytes (by simp)
    rwa [length_encode] at hput
  have hlt : v.toNat < 256 ^ 8 := v.isLt
  rw [quadAt, hget, decode_encode, Nat.mod_eq_of_lt hlt, BitVec.ofNat_toNat, BitVec.setWidth_eq]

theorem bytesAt_setQuad_of_apart {v : Quad} (h : Apart a n b 8) :
    bytesAt (setQuad m b v) a n = bytesAt m a n :=
  bytesAt_setBytes_of_apart (by simpa using h)

theorem quadAt_setQuad_of_apart {v : Quad} (h : Apart a 8 b 8) :
    quadAt (setQuad m b v) a = quadAt m a := by
  rw [quadAt, quadAt, bytesAt_setQuad_of_apart h]

theorem quadAt_setBytes_of_apart {bs : List Byte} (h : Apart a 8 b bs.length) :
    quadAt (setBytes m b bs) a = quadAt m a := by
  rw [quadAt, quadAt, bytesAt_setBytes_of_apart h]

end Words
