import Mathlib.Data.BitVec
import Mathlib.Data.List.GetD
import Mathlib.Data.List.TakeWhile

/-!
# Byte-addressed memory with access rights

The memory of a user process as a kernel sees it: bytes at machine addresses, some of which
can be read or written, and a limit that no accessible address reaches. Copying in needs the
whole range to be readable; copying out writes nothing if the range crosses the limit, and
otherwise as far as the range is writable.

Numbers are laid out with the least significant byte first.

## Main results

- `load_store` — what was stored is read back
- `decode_encode` — a number survives being laid out in bytes
- `accessOk_of_readable` — a range that can be read passes the limit check
- `copied_eq_iff`, `copied_eq_zero_iff` — when everything is copied out, and when nothing is
-/

abbrev Byte := BitVec 8

/-! ## Numbers as bytes -/

/-- The `n` low bytes of a number, the least significant one first. -/
def encode : (n v : ℕ) → List Byte
  | 0, _ => []
  | n + 1, v => BitVec.ofNat 8 v :: encode n (v / 256)

def decode : List Byte → ℕ
  | [] => 0
  | b :: bs => b.toNat + 256 * decode bs

@[simp] theorem length_encode (n v : ℕ) : (encode n v).length = n := by
  induction n generalizing v with
  | zero => rfl
  | succ n ih => simp [encode, ih]

/-- Bytes that are left out are the high ones. -/
theorem take_encode {k n : ℕ} (h : k ≤ n) (v : ℕ) : (encode n v).take k = encode k v := by
  induction k generalizing n v with
  | zero => rfl
  | succ k ih =>
    cases n with
    | zero => omega
    | succ n =>
      simp only [encode, List.take_succ_cons, List.cons.injEq, true_and]
      exact ih (by omega) (v / 256)

theorem decode_encode (n v : ℕ) : decode (encode n v) = v % 256 ^ n := by
  induction n generalizing v with
  | zero => simp [encode, decode, Nat.mod_one]
  | succ n ih =>
    have hpow : 256 ^ (n + 1) = 256 * 256 ^ n := pow_succ' 256 n
    simp only [encode, decode, ih, BitVec.toNat_ofNat]
    rw [hpow, Nat.mod_mul]

/-! ## Memory -/

/-- Bytes with access rights, by address. -/
structure Memory (w : ℕ) where
  byte : BitVec w → Byte
  readable : BitVec w → Bool
  writable : BitVec w → Bool
  limit : ℕ
  limit_lt : limit < 2 ^ w
  readable_lt : ∀ a, readable a = true → a.toNat < limit
  writable_lt : ∀ a, writable a = true → a.toNat < limit

namespace Memory

variable {w : ℕ} (m : Memory w) (a : BitVec w) (n : ℕ)

/-- The addresses from `a` on. -/
def range : List (BitVec w) := (List.range n).map (fun i => a + BitVec.ofNat w i)

/-- The range ends below the limit. -/
def accessOk : Bool := a.toNat + n ≤ m.limit

def load : List Byte := (range a n).map m.byte

/-- The memory with `bs` at the addresses from `a` on. -/
def store (bs : List Byte) : Memory w :=
  { m with byte := fun x => bs.getD (x - a).toNat (m.byte x) }

/-- The bytes of a range that can be read. -/
def copyFrom : Option (List Byte) :=
  if (range a n).all m.readable then some (m.load a n) else none

/-- The number of bytes that can be written from `a` on. -/
def room : ℕ := ((range a n).takeWhile m.writable).length

/-- The number of bytes that a copy out writes: none if the limit check rejects the range. -/
def copied : ℕ := if m.accessOk a n then m.room a n else 0

/-- The memory after copying out as much of `bs` as can be written, and the number of bytes
written. -/
def copyTo (bs : List Byte) : Memory w × ℕ :=
  (m.store a (bs.take (m.copied a bs.length)), m.copied a bs.length)

@[simp] theorem length_range : (range a n).length = n := by simp [range]

@[simp] theorem length_load : (m.load a n).length = n := by simp [load]

theorem getElem_load {i : ℕ} (hi : i < (m.load a n).length) :
    (m.load a n)[i] = m.byte (a + BitVec.ofNat w i) := by simp [load, range]

theorem byte_store (bs : List Byte) (x : BitVec w) :
    (m.store a bs).byte x = bs.getD (x - a).toNat (m.byte x) := rfl

theorem mem_range {a x : BitVec w} {n : ℕ} : x ∈ range a n ↔ ∃ i < n, a + BitVec.ofNat w i = x := by
  simp [range]

@[simp] theorem readable_store (bs : List Byte) : (m.store a bs).readable = m.readable := rfl

@[simp] theorem writable_store (bs : List Byte) : (m.store a bs).writable = m.writable := rfl

@[simp] theorem limit_store (bs : List Byte) : (m.store a bs).limit = m.limit := rfl

variable {m a b n}

/-- The offset of an address in the range it was made for. -/
theorem toNat_offset {i : ℕ} (hi : i < 2 ^ w) : (a + BitVec.ofNat w i - a).toNat = i := by
  rw [BitVec.add_comm, BitVec.add_sub_cancel, BitVec.toNat_ofNat, Nat.mod_eq_of_lt hi]

/-- The beginning of what was stored. -/
theorem load_store_take {bs : List Byte} (hn : n ≤ bs.length) (h : bs.length ≤ 2 ^ w) :
    (m.store a bs).load a n = bs.take n := by
  refine List.ext_getElem (by simp [hn]) (fun i hi hi' => ?_)
  have hin : i < n := by simpa using hi
  rw [getElem_load, byte_store, toNat_offset (by omega), List.getD_eq_getElem _ _ (by omega),
    List.getElem_take]

theorem load_store {bs : List Byte} (h : bs.length ≤ 2 ^ w) :
    (m.store a bs).load a bs.length = bs := by
  rw [load_store_take le_rfl h, List.take_length]

/-- A store elsewhere is not read. -/
theorem load_store_of_apart {b : BitVec w} {bs : List Byte}
    (h : ∀ x ∈ range a n, bs.length ≤ (x - b).toNat) :
    (m.store b bs).load a n = m.load a n := by
  apply List.map_congr_left
  intro x hx
  rw [byte_store, List.getD_eq_default _ _ (h x hx)]

/-- A store without bytes changes nothing. -/
@[simp] theorem store_nil : m.store a [] = m := rfl

/-! ## Copies -/

theorem copyFrom_of_readable (h : (range a n).all m.readable = true) :
    m.copyFrom a n = some (m.load a n) := by
  rw [copyFrom, if_pos h]

theorem copyFrom_eq_none_iff : m.copyFrom a n = none ↔ (range a n).all m.readable = false := by
  unfold copyFrom
  split
  · next h => simp [h]
  · next h => simpa using h

/-- A range within which every address is below the limit ends below the limit. -/
theorem accessOk_of_lt (h : ∀ x ∈ range a n, x.toNat < m.limit) (hn : 0 < n) :
    m.accessOk a n = true := by
  have hlast : ∀ i < n, a.toNat + i < m.limit := by
    intro i hi
    induction i with
    | zero => simpa using h a (mem_range.mpr ⟨0, hn, by simp⟩)
    | succ i ih =>
      -- the address after one below the limit does not wrap around
      have hlt := ih (by omega)
      have hlimit := m.limit_lt
      have hx := h _ (mem_range.mpr ⟨i + 1, hi, rfl⟩)
      rwa [BitVec.toNat_add, BitVec.toNat_ofNat, Nat.add_mod_mod, Nat.mod_eq_of_lt (by omega)] at hx
  have := hlast (n - 1) (by omega)
  simp only [accessOk, decide_eq_true_eq]
  omega

theorem accessOk_of_readable (h : (range a n).all m.readable = true) (hn : 0 < n) :
    m.accessOk a n = true :=
  accessOk_of_lt (fun x hx => m.readable_lt x (List.all_eq_true.mp h x hx)) hn

/-- What the limit check rejects cannot be copied in. -/
theorem copyFrom_of_not_accessOk (h : m.accessOk a n = false) (hn : 0 < n) :
    m.copyFrom a n = none := by
  rw [copyFrom_eq_none_iff]
  by_contra hr
  rw [accessOk_of_readable (by simpa using hr) hn] at h
  cases h

/-- There is room for everything exactly when the whole range can be written. -/
theorem room_eq_iff : m.room a n = n ↔ (range a n).all m.writable = true := by
  have hp := List.takeWhile_prefix m.writable (l := range a n)
  constructor
  · intro h
    have he : (range a n).takeWhile m.writable = range a n :=
      hp.eq_of_length (by simpa [room] using h)
    rw [List.all_eq_true]
    intro x hx
    rw [← he] at hx
    exact List.mem_takeWhile_imp hx
  · intro h
    have he : (range a n).takeWhile m.writable = range a n :=
      List.takeWhile_eq_self_iff.mpr (List.all_eq_true.mp h)
    simp [room, he]

/-- There is no room exactly when the first address cannot be written. -/
theorem room_eq_zero_iff (hn : 0 < n) : m.room a n = 0 ↔ m.writable a = false := by
  obtain ⟨k, rfl⟩ : ∃ k, n = k + 1 := ⟨n - 1, by omega⟩
  have hr : range a (k + 1) = a :: (List.range k).map (fun i => a + BitVec.ofNat w (i + 1)) := by
    simp [range, List.range_succ_eq_map, Function.comp_def]
  unfold room
  rw [hr, List.takeWhile_cons]
  cases m.writable a <;> simp

theorem accessOk_of_writable (h : (range a n).all m.writable = true) (hn : 0 < n) :
    m.accessOk a n = true :=
  accessOk_of_lt (fun x hx => m.writable_lt x (List.all_eq_true.mp h x hx)) hn

/-- Everything is copied out exactly when the whole range can be written. -/
theorem copied_eq_iff : m.copied a n = n ↔ (range a n).all m.writable = true := by
  obtain rfl | hn := Nat.eq_zero_or_pos n
  · simp [copied, room, range]
  · unfold copied
    split
    · exact room_eq_iff
    · next hok =>
      -- a range that can be written passes the limit check
      exact iff_of_false (by omega) (fun h => hok (accessOk_of_writable h hn))

/-- Nothing is copied out exactly when the limit check rejects the range or its first address
cannot be written. -/
theorem copied_eq_zero_iff (hn : 0 < n) :
    m.copied a n = 0 ↔ m.accessOk a n = false ∨ m.writable a = false := by
  unfold copied
  cases m.accessOk a n with
  | false => simp
  | true => simp [room_eq_zero_iff hn]

/-- What was copied out completely is read back. -/
theorem load_copyTo {bs : List Byte} (h : (range a bs.length).all m.writable = true)
    (hn : bs.length ≤ 2 ^ w) :
    m.copyTo a bs = (m.store a bs, bs.length) ∧ (m.store a bs).load a bs.length = bs := by
  have hcopied := copied_eq_iff.mpr h
  refine ⟨?_, load_store hn⟩
  unfold copyTo
  rw [hcopied, List.take_length]

end Memory
