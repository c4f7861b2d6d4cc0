import Mathlib.Tactic.FieldSimp
import Fibers.Testbed.CalqueueInvariant

/-!
# The sample that decides the width

`new_width` takes the next elements out of the calendar and averages their separations, leaving
out the separations that are twice the average or more. What is left may add up to nothing:
elements of equal priority have no separation at all.

## Main results

- `widthOf_eq_error_iff` — the samples that give no positive width
- `spread_iff_of_sorted` — the same for a sample in the order of the priorities
-/

namespace Fibers.Testbed

namespace Calqueue

variable {α : Type}

/-- The next `n` elements that are taken out of the calendar as it is. -/
def upcoming : ℕ → Calqueue α → List (CalqueueNode α)
  | 0, _ => []
  | n + 1, q =>
    match q.unlink with
    | .error _ => []
    | .ok (e, q') => e :: upcoming n q'

/-- The average separation of consecutive elements. -/
def average (es : List (CalqueueNode α)) : ℚ := (separations es).sum / (es.length - 1)

/-- The separations that are large, twice the average or more, add up to less than all of them. -/
def Spread (es : List (CalqueueNode α)) : Prop :=
  ((separations es).filter (average es * 2 ≤ ·)).sum < (separations es).sum

instance (es : List (CalqueueNode α)) : Decidable (Spread es) :=
  inferInstanceAs (Decidable (_ < _))

/-- The elements that a resize samples are spread; with fewer than two elements there is no
sample. -/
def SampleSpread (q : Calqueue α) : Prop :=
  2 ≤ q.qsize → Spread (upcoming (nsamples q.qsize) q)

instance (q : Calqueue α) : Decidable q.SampleSpread :=
  inferInstanceAs (Decidable (2 ≤ _ → _))

/-! ## The width of a sample -/

section Lists

variable {l : List ℚ} {a : ℚ}

theorem sum_filter_add_sum_filter (l : List ℚ) (a : ℚ) :
    (l.filter (· < a)).sum + (l.filter (a ≤ ·)).sum = l.sum := by
  have h := Multiset.sum_filter_add_sum_filter_not (s := (l : Multiset ℚ)) (· < a)
  simpa only [Multiset.filter_coe, Multiset.sum_coe, not_lt] using h

/-- The mean of some numbers has the sign of their sum; of no numbers there is no mean. -/
theorem mean_pos_iff : 0 < l.sum / l.length * 3 ↔ 0 < l.sum := by
  cases l with
  | nil => simp
  | cons x l =>
    have hlen : (0 : ℚ) < (x :: l).length := by
      rw [List.length_cons]
      positivity
    rw [mul_pos_iff_of_pos_right three_pos, div_pos_iff_of_pos_right hlen]

theorem sum_pos_iff_of_nonneg (h : ∀ x ∈ l, 0 ≤ x) : 0 < l.sum ↔ ∃ x ∈ l, 0 < x := by
  induction l with
  | nil => simp
  | cons x l ih =>
    have hx := h x List.mem_cons_self
    have hl : ∀ y ∈ l, 0 ≤ y := fun y hy => h y (List.mem_cons_of_mem x hy)
    have hsum := List.sum_nonneg hl
    rw [List.sum_cons, List.exists_mem_cons_iff, ← ih hl]
    constructor
    · intro hpos
      by_contra hno
      obtain ⟨hx', hl'⟩ := not_or.mp hno
      linarith
    · rintro (hpos | hpos)
      · linarith
      · linarith

end Lists

/-- The width fails exactly for the samples that are not spread. -/
theorem widthOf_eq_error_iff {es : List (CalqueueNode α)} :
    widthOf es = .error .width ↔ ¬ Spread es := by
  have hsplit := sum_filter_add_sum_filter (separations es) (average es * 2)
  have hkept : 0 < ((separations es).filter (· < average es * 2)).sum ↔ Spread es := by
    unfold Spread
    constructor
    · intro h
      linarith
    · intro h
      linarith
  rw [← hkept, ← mean_pos_iff]
  show (if _ then _ else _) = _ ↔ _
  split
  · next hpos => exact iff_of_false (by simp) (not_not_intro hpos)
  · next hneg => exact iff_of_true rfl hneg

/-- In a sample in the order of the priorities, some separation is positive and not large. -/
theorem spread_iff_of_sorted {es : List (CalqueueNode α)}
    (h : es.Pairwise (fun x y => x.priority ≤ y.priority)) :
    Spread es ↔ ∃ g ∈ separations es, 0 < g ∧ g < average es * 2 := by
  have hnonneg : ∀ g ∈ separations es, 0 ≤ g := by
    intro g hg
    induction es with
    | nil => cases hg
    | cons x es ih =>
      cases es with
      | nil => cases hg
      | cons y es =>
        obtain ⟨hx, hes⟩ := List.pairwise_cons.mp h
        rcases List.mem_cons.mp hg with rfl | hg
        · exact sub_nonneg.mpr (hx y List.mem_cons_self)
        · exact ih hes hg
  have hsplit := sum_filter_add_sum_filter (separations es) (average es * 2)
  have hkept : ∀ g ∈ (separations es).filter (· < average es * 2), 0 ≤ g := fun g hg =>
    hnonneg g (List.mem_of_mem_filter hg)
  have hiff := sum_pos_iff_of_nonneg hkept
  have hspread : Spread es ↔ 0 < ((separations es).filter (· < average es * 2)).sum := by
    unfold Spread
    constructor
    · intro h
      linarith
    · intro h
      linarith
  rw [hspread, hiff]
  constructor
  · rintro ⟨g, hg, hpos⟩
    obtain ⟨hmem, hlt⟩ := List.mem_filter.mp hg
    exact ⟨g, hmem, hpos, by simpa using hlt⟩
  · rintro ⟨g, hmem, hpos, hlt⟩
    exact ⟨g, List.mem_filter.mpr ⟨hmem, by simpa using hlt⟩, hpos⟩

/-! ## Whether resizing is enabled -/

section Enabled

variable (q : Calqueue α) (b : Bool)

theorem scan_setResizeEnabled (k i : ℕ) (top : ℚ) :
    ({ q with resizeEnabled := b } : Calqueue α).scan k i top = q.scan k i top := by
  induction k generalizing i top with
  | zero => rfl
  | succ k ih =>
    rw [scan, scan, ih]
    rfl

theorem directSearch_setResizeEnabled (n : ℕ) :
    ({ q with resizeEnabled := b } : Calqueue α).directSearch n = q.directSearch n := by
  induction n with
  | zero => rfl
  | succ n ih =>
    rw [directSearch, directSearch, ih]
    rfl

theorem unlink_setResizeEnabled :
    ({ q with resizeEnabled := b } : Calqueue α).unlink =
      q.unlink.map fun r => (r.1, { r.2 with resizeEnabled := b }) := by
  unfold unlink
  rw [scan_setResizeEnabled, directSearch_setResizeEnabled]
  dsimp only
  generalize (q.scan q.nbuckets q.lastbucket q.buckettop).1.or
    ((q.directSearch q.nbuckets).map Prod.fst) = found
  cases found with
  | none => rfl
  | some i =>
    have hbucket : ({ q with resizeEnabled := b } : Calqueue α).bucket i = q.bucket i := rfl
    dsimp only
    rw [hbucket]
    cases q.bucket i with
    | nil => rfl
    | cons e l => rfl

theorem upcoming_setResizeEnabled (n : ℕ) :
    upcoming n ({ q with resizeEnabled := b } : Calqueue α) = upcoming n q := by
  induction n generalizing q with
  | zero => rfl
  | succ n ih =>
    rw [upcoming, upcoming, unlink_setResizeEnabled]
    cases q.unlink with
    | error f => rfl
    | ok r => exact congrArg (r.1 :: ·) (ih r.2)

end Enabled

end Calqueue

end Fibers.Testbed
