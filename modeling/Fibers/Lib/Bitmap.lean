import Mathlib.Data.BitVec
import Mathlib.Data.List.Range
import Mathlib.Data.List.Perm.Basic
import Mathlib.Logic.Function.Basic

/-!
# Bitmaps packed into words

Bit `i` of a map lies in word `i / n`, at position `i % n`. `check`, `set` and `reset` work on a
word with a mask; `test` is the bit as such.

## Main results

- `Bitmap.check_eq_zero_iff`, `Bitmap.test_set`, `Bitmap.test_reset` — the operations bit by bit
- `Bitmap.clear_add_length` — how many of the first bits are clear
-/

namespace Bitmap

variable {n : ℕ}

def check (w : ℕ → BitVec n) (i : ℕ) : BitVec n := w (i / n) &&& (1#n <<< (i % n))

def set (w : ℕ → BitVec n) (i : ℕ) : ℕ → BitVec n :=
  Function.update w (i / n) (w (i / n) ||| (1#n <<< (i % n)))

def reset (w : ℕ → BitVec n) (i : ℕ) : ℕ → BitVec n :=
  Function.update w (i / n) (w (i / n) &&& ~~~(1#n <<< (i % n)))

def test (w : ℕ → BitVec n) (i : ℕ) : Bool := (w (i / n)).getLsbD (i % n)

/-- The clear bits among the first `m`. -/
def clear (w : ℕ → BitVec n) (m : ℕ) : ℕ := (List.range m).countP fun i => !test w i

theorem getLsbD_mask {k : ℕ} (hk : k < n) (j : ℕ) : (1#n <<< k).getLsbD j = decide (j = k) := by
  rw [BitVec.getLsbD_shiftLeft, BitVec.getLsbD_one]
  by_cases hj : j = k
  · subst hj
    simp [hk]
    omega
  · simp [hj]
    omega

theorem check_eq_zero_iff (hn : 0 < n) (w : ℕ → BitVec n) (i : ℕ) :
    check w i = 0 ↔ test w i = false := by
  have hk : i % n < n := Nat.mod_lt i hn
  constructor
  · intro h
    have hbit := congrArg (fun v => BitVec.getLsbD v (i % n)) h
    simpa [check, getLsbD_mask hk, test] using hbit
  · intro h
    apply BitVec.eq_of_getLsbD_eq
    intro j hj
    rw [check, BitVec.getLsbD_and, getLsbD_mask hk]
    by_cases hji : j = i % n
    · rw [hji]
      rw [test] at h
      simp [h]
    · simp [hji]

theorem div_mod_ext {i j : ℕ} (hd : i / n = j / n) (hm : i % n = j % n) : i = j := by
  rw [← Nat.div_add_mod i n, ← Nat.div_add_mod j n, hd, hm]

theorem test_set (hn : 0 < n) (w : ℕ → BitVec n) (i j : ℕ) :
    test (set w i) j = (decide (j = i) || test w j) := by
  have hk : i % n < n := Nat.mod_lt i hn
  unfold test set
  by_cases hd : j / n = i / n
  · rw [hd, Function.update_self, BitVec.getLsbD_or, getLsbD_mask hk]
    have hiff : j % n = i % n ↔ j = i := ⟨fun hm => div_mod_ext hd hm, fun h => by rw [h]⟩
    simp only [hiff]
    exact Bool.or_comm _ _
  · rw [Function.update_of_ne hd]
    have hne : j ≠ i := fun h => hd (by rw [h])
    simp [hne]

theorem test_reset (hn : 0 < n) (w : ℕ → BitVec n) (i j : ℕ) :
    test (reset w i) j = (decide (j ≠ i) && test w j) := by
  have hk : i % n < n := Nat.mod_lt i hn
  unfold test reset
  by_cases hd : j / n = i / n
  · have hjk : j % n < n := Nat.mod_lt j hn
    rw [hd, Function.update_self, BitVec.getLsbD_and, BitVec.getLsbD_not, getLsbD_mask hk]
    have hiff : j % n = i % n ↔ j = i := ⟨fun hm => div_mod_ext hd hm, fun h => by rw [h]⟩
    simp only [hiff, hjk, decide_true, Bool.true_and, decide_not]
    exact Bool.and_comm _ _
  · rw [Function.update_of_ne hd]
    have hne : j ≠ i := fun h => hd (by rw [h])
    simp [hne]

/-- A list of the set bits among the first `m` leaves the clear ones. -/
theorem clear_add_length {w : ℕ → BitVec n} {m : ℕ} {l : List ℕ} (hd : l.Nodup)
    (hl : ∀ i, i ∈ l ↔ i < m ∧ test w i = true) : clear w m + l.length = m := by
  have hperm : l.Perm ((List.range m).filter (test w)) := by
    rw [List.perm_ext_iff_of_nodup hd (List.nodup_range.filter _)]
    intro i
    rw [hl, List.mem_filter, List.mem_range]
  have hcount := List.length_eq_countP_add_countP (test w) (l := List.range m)
  rw [List.length_range] at hcount
  rw [hperm.length_eq, ← List.countP_eq_length_filter, clear]
  have hnot : (List.range m).countP (fun i => !test w i) =
      (List.range m).countP fun i => decide ¬test w i = true := by
    congr 1
    funext i
    cases test w i <;> rfl
  rw [hnot]
  omega

end Bitmap
