import Mathlib.Algebra.BigOperators.Group.Finset.Basic
import Mathlib.Algebra.Order.Floor.Semiring
import Mathlib.Algebra.Order.Field.Basic
import Mathlib.Data.Multiset.AddSub
import Mathlib.Tactic.Abel
import Mathlib.Tactic.Linarith
import Mathlib.Tactic.Positivity
import Mathlib.Tactic.Ring

/-!
# Calendars

Time divided into days of one width, and days dealt out in turn to a number of buckets. A
time that lies in the bucket of a day, and not much after it, lies in the day itself: this is
what lets a search look at one bucket instead of all of them.

## Main results

- `Calendar.lt_limit_iff` — one comparison tells the times of a day in its bucket
- `Calendar.sum_update` — the contents of all buckets when one of them changes
-/

namespace Calendar

section Days

variable {K : Type*} [Field K]

/-- The middle of the day after the day `n`, with days of width `w`. -/
def limit (w : K) (n : ℕ) : K := (n + 1) * w + 1 / 2 * w

theorem limit_succ (w : K) (n : ℕ) : limit w (n + 1) = limit w n + w := by
  unfold limit
  push_cast
  ring

variable [LinearOrder K] [IsStrictOrderedRing K] [FloorSemiring K]

/-- The day of a time. -/
def day (w t : K) : ℕ := ⌊t / w⌋₊

variable {w s t : K} {n m : ℕ}

theorem day_le_day (hw : 0 < w) (h : s ≤ t) : day w s ≤ day w t := by
  apply Nat.floor_le_floor
  gcongr

theorem le_day_iff (hw : 0 < w) (ht : 0 ≤ t) : n ≤ day w t ↔ n * w ≤ t := by
  unfold day
  rw [Nat.le_floor_iff (div_nonneg ht hw.le), le_div_iff₀ hw]

theorem day_lt_iff (hw : 0 < w) (ht : 0 ≤ t) : day w t < n ↔ t < n * w := by
  rw [← not_le, le_day_iff hw ht, not_le]

/-- Times of an earlier day are earlier. -/
theorem lt_of_day_lt (hw : 0 < w) (h : day w s < day w t) : s < t := by
  by_contra hn
  have := day_le_day hw (not_lt.mp hn)
  omega

theorem lt_limit_of_day_le (hw : 0 < w) (ht : 0 ≤ t) (h : day w t ≤ n) : t < limit w n := by
  have hlt : t < (n + 1 : ℕ) * w := (day_lt_iff hw ht).mp (Nat.lt_succ_of_le h)
  have hhalf : 0 < 1 / 2 * w := by positivity
  push_cast at hlt
  unfold limit
  linarith

theorem day_le_succ_of_lt_limit (hw : 0 < w) (ht : 0 ≤ t) (h : t < limit w n) :
    day w t ≤ n + 1 := by
  have hlt : t < (n + 2 : ℕ) * w := by
    push_cast
    unfold limit at h
    linarith
  have := (day_lt_iff hw ht).mpr hlt
  omega

/-- In the bucket of the day `n`, from that day on, the times below the limit are those of the
day. -/
theorem lt_limit_iff {b : ℕ} (hb : 2 ≤ b) (hw : 0 < w) (ht : 0 ≤ t) (hn : n ≤ day w t)
    (hmod : day w t % b = n % b) : t < limit w n ↔ day w t = n := by
  constructor
  · intro h
    -- the next day of the bucket is at least two days later
    have hle := day_le_succ_of_lt_limit hw ht h
    by_contra hne
    have hday : day w t = n + 1 := by omega
    rw [hday] at hmod
    have hzero := Nat.sub_mod_eq_zero_of_mod_eq hmod
    rw [Nat.add_sub_cancel_left, Nat.mod_eq_of_lt (by omega)] at hzero
    omega
  · intro h
    exact lt_limit_of_day_le hw ht h.le

end Days

section Buckets

variable {α : Type*} {b i : ℕ} {f g : ℕ → Multiset α}

/-- The bucket of the next day. -/
theorem succ_mod (hb : 2 ≤ b) (n : ℕ) :
    (n + 1) % b = if n % b + 1 = b then 0 else n % b + 1 := by
  have hlt : n % b < b := Nat.mod_lt n (by omega)
  rw [Nat.add_mod_eq_ite, Nat.mod_eq_of_lt hb]
  split_ifs <;> omega

/-- Two families of buckets that differ in one of them. -/
theorem sum_update (hi : i < b) (h : ∀ j, j ≠ i → g j = f j) :
    ∑ j ∈ Finset.range b, g j + f i = ∑ j ∈ Finset.range b, f j + g i := by
  have hmem : i ∈ Finset.range b := Finset.mem_range.mpr hi
  have hrest : ∑ j ∈ (Finset.range b).erase i, g j = ∑ j ∈ (Finset.range b).erase i, f j :=
    Finset.sum_congr rfl (fun j hj => h j (Finset.ne_of_mem_erase hj))
  rw [← Finset.add_sum_erase _ f hmem, ← Finset.add_sum_erase _ g hmem, hrest]
  abel

end Buckets

end Calendar
