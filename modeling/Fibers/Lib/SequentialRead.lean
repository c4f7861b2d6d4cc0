import Mathlib.Data.List.TakeDrop
import Mathlib.Data.Nat.Find

/-!
# Reading a file in pieces

A reader answers a buffer and an offset with a return value, the next offset and the piece that
it put in the buffer. Successive reads start at 0, each with a buffer of its own, and end at the
first return of 0.

## Main results

- `SequentialRead.Serves.readsOut` — a reader of the first `m` items of `data` yields them however
  they are split into buffers
- `SequentialRead.ReadsOut.unique` — what the reads yield is determined by the buffers
-/

namespace SequentialRead

variable {α σ : Type*}

/-- The outcome of one read. -/
structure Result (α : Type*) where
  returned : ℤ
  offset : ℕ
  piece : List α

section Reads

variable (read : σ → ℕ → Result α) (buffers : ℕ → σ)

/-- Where read `n` starts. -/
def offsetAt : ℕ → ℕ
  | 0 => 0
  | n + 1 => (read (buffers n) (offsetAt n)).offset

def readAt (n : ℕ) : Result α := read (buffers n) (offsetAt read buffers n)

/-- The pieces of the first `n` reads, one after the other. -/
def collected : ℕ → List α
  | 0 => []
  | n + 1 => collected n ++ (readAt read buffers n).piece

/-- The reads up to the first return of 0 yield `text`, in pieces that fit their buffers and at
offsets inside it. -/
def ReadsOut (room : σ → ℕ) (text : List α) : Prop :=
  ∃ n, (∀ k < n, (readAt read buffers k).returned ≠ 0) ∧ (readAt read buffers n).returned = 0 ∧
    collected read buffers n = text ∧
    (∀ k, (readAt read buffers k).piece.length ≤ room (buffers k)) ∧
    ∀ k, offsetAt read buffers k ≤ text.length

end Reads

theorem ReadsOut.unique {read : σ → ℕ → Result α} {buffers : ℕ → σ} {room : σ → ℕ}
    {s t : List α} (hs : ReadsOut read buffers room s) (ht : ReadsOut read buffers room t) :
    s = t := by
  obtain ⟨n, hn, hn₀, rfl, -⟩ := hs
  obtain ⟨m, hm, hm₀, rfl, -⟩ := ht
  obtain h | h | h := lt_trichotomy n m
  · exact absurd hn₀ (hm n h)
  · rw [h]
  · exact absurd hm₀ (hn m h)

/-- The reader hands out the first `m` items of `data`, as many as are left and fit. -/
def Serves (read : σ → ℕ → Result α) (room : σ → ℕ) (data : List α) (m : ℕ) : Prop :=
  ∀ b o, o ≤ m → read b o =
    ⟨(min (room b) (m - o) : ℕ), o + min (room b) (m - o), (data.drop o).take (min (room b) (m - o))⟩

section Serves

variable {read : σ → ℕ → Result α} {room : σ → ℕ} {data : List α} {m : ℕ} {buffers : ℕ → σ}
  (h : Serves read room data m)

include h

theorem Serves.offsetAt_le (n : ℕ) : offsetAt read buffers n ≤ m := by
  induction n with
  | zero => exact Nat.zero_le m
  | succ n ih =>
    rw [offsetAt, h _ _ ih]
    show offsetAt read buffers n + _ ≤ m
    omega

theorem Serves.offsetAt_succ (n : ℕ) : offsetAt read buffers (n + 1) =
    offsetAt read buffers n + min (room (buffers n)) (m - offsetAt read buffers n) := by
  rw [offsetAt, h _ _ (h.offsetAt_le n)]

theorem Serves.collected_eq (n : ℕ) :
    collected read buffers n = data.take (offsetAt read buffers n) := by
  induction n with
  | zero => simp [collected, offsetAt]
  | succ n ih =>
    rw [collected, ih, readAt, h _ _ (h.offsetAt_le n), h.offsetAt_succ n, List.take_add]

/-- While something is left each read moves on. -/
theorem Serves.offsetAt_ge (hb : ∀ k, 0 < room (buffers k)) (n : ℕ) :
    min n m ≤ offsetAt read buffers n := by
  induction n with
  | zero => simp
  | succ n ih =>
    have hroom := hb n
    rw [h.offsetAt_succ n]
    omega

theorem Serves.returned_eq_zero_iff (hb : ∀ k, 0 < room (buffers k)) (n : ℕ) :
    (readAt read buffers n).returned = 0 ↔ offsetAt read buffers n = m := by
  have hroom := hb n
  have hle : offsetAt read buffers n ≤ m := h.offsetAt_le n
  rw [readAt, h _ _ hle]
  show ((min (room (buffers n)) (m - offsetAt read buffers n) : ℕ) : ℤ) = 0 ↔ _
  omega

theorem Serves.length_piece_le (n : ℕ) :
    (readAt read buffers n).piece.length ≤ room (buffers n) := by
  rw [readAt, h _ _ (h.offsetAt_le n)]
  show (List.take _ _).length ≤ _
  rw [List.length_take]
  omega

theorem Serves.readsOut (hm : m ≤ data.length) (hb : ∀ k, 0 < room (buffers k)) :
    ReadsOut read buffers room (data.take m) := by
  have hend : ∃ n, (readAt read buffers n).returned = 0 := by
    refine ⟨m, (h.returned_eq_zero_iff hb m).mpr ?_⟩
    have hge := h.offsetAt_ge hb m
    have hle : offsetAt read buffers m ≤ m := h.offsetAt_le m
    omega
  have hlast := (h.returned_eq_zero_iff hb _).mp (Nat.find_spec hend)
  refine ⟨Nat.find hend, fun k hk => Nat.find_min hend hk, Nat.find_spec hend, ?_,
    h.length_piece_le, fun k => ?_⟩
  · rw [h.collected_eq, hlast]
  · rw [List.length_take, min_eq_left hm]
    exact h.offsetAt_le k

end Serves

end SequentialRead
