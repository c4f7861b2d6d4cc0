import Fibers.Testbed.CalqueueOrder

/-!
# The width of a new calendar

A calendar in use has a positive width, and then every quotient by the width is defined and
every bucket lies in the calendar. The next width is computed when the calendar is resized, and
it is usable exactly for a sample that is spread.

## Main results

- `newWidth_eq_error` — a resize whose sample is not spread has no width
- `calqueue_width_usable` — when the operations of a reachable queue find a width
-/

namespace Fibers.Testbed

open Calendar

namespace Calqueue

variable {α : Type} {q q₁ : Calqueue α} {x e : CalqueueNode α} {d : ℕ}

theorem newWidth_eq_error (h : q.WellFormed) (hn : ¬ q.SampleSpread) :
    newWidth (ops α (d + 1)) q = .error .width := by
  obtain ⟨htwo, hspread⟩ : 2 ≤ q.qsize ∧ ¬ Spread (upcoming (nsamples q.qsize) q) := by
    simpa [SampleSpread] using hn
  obtain ⟨q₁, hsample, -⟩ := exists_sample (d := d) h
  unfold newWidth
  rw [if_neg (by omega), hsample]
  show (widthOf _ >>= _) = _
  rw [widthOf_eq_error_iff.mpr hspread]
  rfl

theorem resize_eq_error (h : q.WellFormed) (hen : q.resizeEnabled = true) (hn : ¬ q.SampleSpread)
    (n : ℕ) : resize (ops α (d + 1)) q n = .error .width := by
  unfold resize
  rw [if_neg (by simp [hen]), newWidth_eq_error h hn]
  rfl

theorem put_eq_error (h : q.Inv) (hx : 0 ≤ x.priority) (hlink : q.link x = .ok q₁)
    (hgrow : q₁.Grows) (hn : ¬ q₁.SampleSpread) : q.put x = .error .width := by
  have hlinked : Yields (fun _ => True) (q.link x) (Gains q {x}) :=
    link_spec trivial h.wellFormed hx
  have hg := hlinked.of_ok hlink
  show (q.link x >>= _) = _
  rw [hlink]
  show (if q₁.Grows then _ else _) = _
  rw [if_pos hgrow, resize_eq_error hg.wellFormed (hg.same.resizeEnabled.trans h.enabled) hn]

theorem stored_ne_zero_of_unlink (h : q.WellFormed) (hunlink : q.unlink = .ok (e, q₁)) :
    q.stored ≠ 0 := by
  intro hz
  have hnil : ∀ i < q.nbuckets, q.bucket i = [] := by
    intro i hi
    rw [List.eq_nil_iff_forall_not_mem]
    intro y hy
    have hmem : y ∈ q.stored := mem_stored.mpr ⟨i, hi, hy⟩
    rw [hz] at hmem
    exact Multiset.notMem_zero y hmem
  have hdirect := directSearch_none.mpr hnil
  have hscan : (q.scan q.nbuckets q.lastbucket q.buckettop).1 = none := by
    cases hs : (q.scan q.nbuckets q.lastbucket q.buckettop).1 with
    | none => rfl
    | some j =>
      obtain ⟨hj, hhead⟩ := scan_found h.position (Prod.ext hs rfl)
      obtain ⟨y, l, hb, -⟩ := headBelow_iff.mp hhead
      rw [hnil j hj] at hb
      cases hb
  unfold unlink at hunlink
  dsimp only at hunlink
  rw [hscan, hdirect] at hunlink
  cases hunlink

theorem deq_eq_error (h : q.Inv) (hunlink : q.unlink = .ok (e, q₁)) (hshrink : q₁.Shrinks)
    (hn : ¬ q₁.SampleSpread) : q.deq = .error .width := by
  have hne := stored_ne_zero_of_unlink h.wellFormed hunlink
  obtain ⟨e', q', hunlink', hu⟩ := unlink_spec h.wellFormed hne
  obtain ⟨rfl, rfl⟩ : e = e' ∧ q₁ = q' := by
    have := hunlink.symm.trans hunlink'
    simpa using this
  have hsize : q.qsize ≠ 0 := by rwa [h.wellFormed.qsize, Ne, Multiset.card_eq_zero]
  show deqWith (ops α 1) q = _
  unfold deqWith
  rw [if_neg hsize, hunlink]
  show (if q₁.Shrinks then _ else _) = _
  rw [if_pos hshrink, resize_eq_error hu.wellFormed (hu.same.resizeEnabled.trans h.enabled) hn]
  rfl

/-! ## The operations -/

theorem put_width_iff (h : q.Inv) (hx : 0 ≤ x.priority) :
    q.put x ≠ .error .width ↔ ∀ q₁, q.link x = .ok q₁ → q₁.Grows → q₁.SampleSpread := by
  constructor
  · intro hput q₁ hlink hgrow
    by_contra hn
    exact hput (put_eq_error h hx hlink hgrow hn)
  · intro hspread hput
    have hy : Yields (· = .quotient) (q.put x) fun q' => ∃ q₁, Gains q {x} q₁ ∧ Settles q₁ q' :=
      put_spec rfl (fun q₁ hlink hgrow hn => absurd (hspread q₁ hlink hgrow) hn) h hx
    cases hy.of_error hput

theorem deq_width_iff (h : q.Inv) :
    q.deq ≠ .error .width ↔
      ∀ e q₁, q.unlink = .ok (e, q₁) → q₁.Shrinks → q₁.SampleSpread := by
  constructor
  · intro hdeq e q₁ hunlink hshrink
    by_contra hn
    exact hdeq (deq_eq_error h hunlink hshrink hn)
  · intro hspread hdeq
    by_cases hz : q.stored = 0
    · rw [deq_empty h.wellFormed hz] at hdeq
      cases hdeq
    · have hy : ∃ e q₁, q.unlink = .ok (e, q₁) ∧ Unlinked q e q₁ ∧
          Yields (· = .quotient) q.deq (fun r => r.1 = some e ∧ Settles q₁ r.2 ∧
            ((q.qsize : ℤ) - 1 < q.botThreshold → r.2.InPhase)) :=
        deq_spec rfl (fun e q₁ hunlink hshrink hn => absurd (hspread e q₁ hunlink hshrink) hn) h hz
      obtain ⟨e, q₁, -, -, hy⟩ := hy
      cases hy.of_error hdeq

theorem get_error_iff {f : Fault} : q.get = .error f ↔ q.deq = .error f := by
  rw [get_eq]
  cases q.deq with
  | ok r => simp [Except.map]
  | error g => simp [Except.map]

/-- A priority has its bucket in the calendar, if its quotient fits an `int`. -/
theorem exists_bucket (h : q.WellFormed) {p : ℚ} (hp : 0 ≤ p) {z : ℤ}
    (hz : intOf p q.cwidth = .ok z) : ∃ i < q.nbuckets, bucketOf z q.nbuckets = .ok i := by
  have hquot : Yields (fun _ => True) (intOf p q.cwidth) fun z => z = day q.cwidth p :=
    quotientOf_spec trivial hp h.width
  have hday := hquot.of_ok hz
  refine ⟨day q.cwidth p % q.nbuckets, Nat.mod_lt _ (by have := h.two_le; omega), ?_⟩
  rw [hday, bucketOf_natCast]

variable {mem q₀ : Calqueue α} {h : History α}

/-- Every reachable queue has a positive width, and the bucket of every priority whose quotient fits
an `int` lies in the calendar. An operation of it has a usable width for its resize, if it makes one,
exactly when the sample is spread. -/
theorem calqueue_width_usable (hinit : init mem = .ok q₀) (hr : Run Step q₀ h q) :
    0 < q.cwidth ∧
      (∀ p, 0 ≤ p → ∀ z, intOf p q.cwidth = .ok z →
        ∃ i < q.nbuckets, bucketOf z q.nbuckets = .ok i) ∧
      (∀ p x, 0 ≤ p → q.put ⟨p, x⟩ ≠ .error .bounds ∧
        (q.put ⟨p, x⟩ ≠ .error .width ↔
          ∀ q₁, q.link ⟨p, x⟩ = .ok q₁ → q₁.Grows → q₁.SampleSpread)) ∧
      q.get ≠ .error .bounds ∧
      (q.get ≠ .error .width ↔
        ∀ e q₁, q.unlink = .ok (e, q₁) → q₁.Shrinks → q₁.SampleSpread) := by
  have hi := inv_of_run hinit hr
  refine ⟨hi.wellFormed.width, fun p hp z hz => exists_bucket hi.wellFormed hp hz, ?_, ?_, ?_⟩
  · intro p x hp
    refine ⟨fun hbounds => ?_, put_width_iff hi hp⟩
    exact (put_spec_ofNumbers hi (x := ⟨p, x⟩) hp).of_error hbounds
  · intro hbounds
    exact (get_spec hi).of_error hbounds
  · rw [Ne, get_error_iff]
    exact deq_width_iff hi

/-- A calendar of four buckets, from elements one apart. -/
theorem calqueue_width_usable_doubled :
    ∃ h q, Run Step (started blank) h q ∧ q.nbuckets = 4 ∧ 0 < q.cwidth ∧
      q.get ≠ .error .bounds := by
  obtain ⟨h, q, he, hc⟩ := Run.exists_execute call (started blank)
    [.put 1 10, .put 2 20, .put 3 30, .put 4 40, .put 5 50] (fun _ q => decide (q.nbuckets = 4))
    (by decide +kernel)
  have hr := run_of_calls _ he
  obtain ⟨hwidth, -, -, hbounds, -⟩ := calqueue_width_usable (init_eq blank) hr
  exact ⟨h, q, hr, of_decide_eq_true hc, hwidth, hbounds⟩

/-- The fifth of five equal priorities: no separation is below twice the average of 0, and the width
is 0 divided by 0. -/
theorem calqueue_ties_without_width :
    ∃ h q, Run Step (started blank) h q ∧ EveryEntry PutsLater h ∧ lastReturned h ≤ 1 ∧
      q.put ⟨1, 50⟩ = .error .width := by
  obtain ⟨h, q, he, hc⟩ := Run.exists_execute call (started blank)
    [.put 1 10, .put 1 20, .put 1 30, .put 1 40]
    (fun h q => decide (EveryEntry PutsLater h ∧ lastReturned h ≤ 1) &&
      (q.link ⟨1, 50⟩).toOption.any fun q₁ : Calqueue ℕ =>
        decide (q₁.Grows ∧ ¬ q₁.SampleSpread))
    (by decide +kernel)
  obtain ⟨hputs, hlinked⟩ := Bool.and_eq_true_iff.mp hc
  obtain ⟨hlater, hlast⟩ := of_decide_eq_true hputs
  obtain ⟨q₁, hq₁, hgrows⟩ := (Option.any_eq_true _ _).mp hlinked
  obtain ⟨hgrow, hspread⟩ := of_decide_eq_true hgrows
  have hr := run_of_calls _ he
  have hlink : q.link ⟨1, 50⟩ = .ok q₁ := by
    cases hl : q.link ⟨1, 50⟩ with
    | ok q' =>
      rw [hl] at hq₁
      exact congrArg Except.ok (Option.some_inj.mp hq₁)
    | error f =>
      rw [hl] at hq₁
      cases hq₁
  exact ⟨h, q, hr, hlater, hlast,
    put_eq_error (inv_of_run (init_eq blank) hr) one_pos.le hlink hgrow hspread⟩

end Calqueue

end Fibers.Testbed
