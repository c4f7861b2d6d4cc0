import Fibers.Lib.Run
import Fibers.Testbed.CalqueueSample

/-!
# The calendar queue keeps its elements

Sampling takes nodes out and puts them back, and a resize puts the nodes of the old calendar
into a new one at the other end of the array. Neither resizes again: sampling disables it, and
the new calendar is large enough for all nodes.

## Main results

- `resize_spec` — a resize keeps the elements
- `calqueue_keeps_elements` — nothing is lost or duplicated in any run
-/

namespace Fibers.Testbed

open Calendar

namespace Calqueue

variable {α : Type}

variable {q q' q'' : Calqueue α} {x e : CalqueueNode α} {i : ℕ} {o : Ops α}

variable {allowed : Fault → Prop}

theorem WellFormed.setResizeEnabled (h : q.WellFormed) (b : Bool) :
    ({ q with resizeEnabled := b } : Calqueue α).WellFormed :=
  ⟨h.size, h.region, h.width, h.position, h.started, h.top, h.bot, h.qsize, h.sorted, h.placed⟩

/-! ## Operations that do not resize -/

theorem resize_disabled (h : q.resizeEnabled = false) (n : ℕ) : resize o q n = .ok q := by
  unfold resize
  rw [if_pos h]
  rfl

/-- The calendar has room for `n` more nodes without a resize. -/
def Quiet (q : Calqueue α) (n : ℕ) : Prop :=
  q.resizeEnabled = false ∨ Multiset.card q.stored + n ≤ q.topThreshold

theorem putWith_quiet (hquot : allowed .quotient) (h : q.WellFormed) (hx : 0 ≤ x.priority)
    (hq : Quiet q 1) : Yields allowed (putWith o q x) (Gains q {x}) := by
  refine (link_spec hquot h hx).bind ?_
  intro q' hg
  split
  · rename_i hlarge
    rcases hq with hdis | hroom
    · rw [resize_disabled (hg.same.resizeEnabled.trans hdis)]
      exact .pure hg
    · have hcard := congrArg Multiset.card hg.stored
      rw [Multiset.card_add, Multiset.card_singleton, ← hg.wellFormed.qsize] at hcard
      have htop := hg.same.topThreshold
      omega
  · exact .pure hg

theorem deqWith_disabled (h : q.WellFormed) (hdis : q.resizeEnabled = false)
    (hne : q.stored ≠ 0) :
    ∃ e q', q.unlink = .ok (e, q') ∧ deqWith o q = .ok (some e, q') ∧ Unlinked q e q' := by
  obtain ⟨e, q', hunlink, hu⟩ := unlink_spec h hne
  refine ⟨e, q', hunlink, ?_, hu⟩
  have hsize : q.qsize ≠ 0 := by rwa [h.qsize, Ne, Multiset.card_eq_zero]
  unfold deqWith
  rw [if_neg hsize, hunlink]
  show (if _ then _ else _) = _
  split
  · rw [resize_disabled (hu.same.resizeEnabled.trans hdis)]
    rfl
  · rfl

/-! ## Sampling -/

section Nested

variable {d : ℕ}

/-- The nodes `es` have been taken out. -/
structure Sampled (q : Calqueue α) (es : List (CalqueueNode α)) (q' : Calqueue α) : Prop where
  wellFormed : q'.WellFormed
  stored : q.stored = es + q'.stored
  same : SameCalendar q q'

theorem sample_spec {n : ℕ} (h : q.WellFormed) (hdis : q.resizeEnabled = false)
    (hn : n ≤ Multiset.card q.stored) :
    ∃ q', sample (ops α (d + 1)) n q = .ok (upcoming n q, q') ∧ Sampled q (upcoming n q) q' := by
  induction n generalizing q with
  | zero => exact ⟨q, rfl, h, (zero_add _).symm, .refl q⟩
  | succ n ih =>
    have hne : q.stored ≠ 0 := by
      rw [Ne, ← Multiset.card_eq_zero]
      omega
    obtain ⟨e, q₁, hunlink, hdeq, hu⟩ := deqWith_disabled (o := ops α d) h hdis hne
    have hcard : Multiset.card q.stored = Multiset.card q₁.stored + 1 := by
      rw [hu.stored, Multiset.card_cons]
    have hnext : upcoming (n + 1) q = e :: upcoming n q₁ := by rw [upcoming, hunlink]
    obtain ⟨q', hsample, hs⟩ :=
      ih hu.wellFormed (hu.same.resizeEnabled.trans hdis) (by omega)
    rw [hnext]
    refine ⟨q', ?_, hs.wellFormed, ?_, hu.same.trans hs.same⟩
    · show (deqWith (ops α d) q >>= _) = _
      rw [hdeq]
      show (sample (ops α (d + 1)) n q₁ >>= _) = _
      rw [hsample]
      rfl
    · rw [hu.stored, hs.stored, ← Multiset.cons_coe, Multiset.cons_add]

theorem putAll_spec (hquot : allowed .quotient) {l : List (CalqueueNode α)} (h : q.WellFormed)
    (hl : ∀ x ∈ l, 0 ≤ x.priority) (hq : Quiet q l.length) :
    Yields allowed (putAll (ops α (d + 1)) l q) (Gains q l) := by
  induction l generalizing q with
  | nil => exact .pure (.refl h)
  | cons x l ih =>
    rw [List.length_cons] at hq
    refine (putWith_quiet hquot h (hl x List.mem_cons_self) (hq.imp_right (by omega))).bind ?_
    intro q₁ hg
    have hq₁ : Quiet q₁ l.length := by
      unfold Quiet
      rw [hg.same.resizeEnabled, hg.same.topThreshold, hg.stored, Multiset.card_add,
        Multiset.card_singleton]
      exact hq.imp_right (by omega)
    refine (ih hg.wellFormed (fun y hy => hl y (List.mem_cons_of_mem x hy)) hq₁).mono ?_
    intro q' hg'
    have := hg.trans hg'
    rwa [Multiset.singleton_add, Multiset.cons_coe] at this

theorem widthOf_spec (es : List (CalqueueNode α)) (hwidth : ¬ Spread es → allowed .width) :
    Yields allowed (widthOf es) (fun w => 0 < w) := by
  cases hw : widthOf es with
  | ok w =>
    unfold widthOf at hw
    dsimp only at hw
    split at hw
    · next hpos =>
      cases hw
      exact .pure hpos
    · cases hw
  | error f =>
    have hf : f = .width := by
      unfold widthOf at hw
      dsimp only at hw
      split at hw <;> cases hw
      rfl
    subst hf
    exact .fault (hwidth (widthOf_eq_error_iff.mp hw))

theorem nsamples_le (n : ℕ) : nsamples n ≤ n := by
  unfold nsamples
  split <;> omega

/-- What `new_width` samples are the next elements of the calendar. -/
theorem exists_sample (h : q.WellFormed) :
    ∃ q₁, sample (ops α (d + 1)) (nsamples q.qsize) { q with resizeEnabled := false } =
        .ok (upcoming (nsamples q.qsize) q, q₁) ∧
      Sampled { q with resizeEnabled := false } (upcoming (nsamples q.qsize) q) q₁ := by
  have hle := nsamples_le q.qsize
  nth_rewrite 2 [h.qsize] at hle
  obtain ⟨q₁, hsample, hs⟩ := sample_spec (d := d) (h.setResizeEnabled false) rfl hle
  rw [upcoming_setResizeEnabled] at hsample hs
  exact ⟨q₁, hsample, hs⟩

/-- Sampling restores the queue. -/
theorem newWidth_spec (hquot : allowed .quotient) (hwidth : ¬ q.SampleSpread → allowed .width)
    (h : q.WellFormed) (hen : q.resizeEnabled = true) :
    Yields allowed (newWidth (ops α (d + 1)) q) (fun r => 0 < r.1 ∧ Gains q 0 r.2) := by
  unfold newWidth
  split
  · exact .pure ⟨one_pos, .refl h⟩
  · next htwo =>
    obtain ⟨q₁, hsample, hs⟩ := exists_sample (d := d) h
    rw [hsample]
    refine (widthOf_spec _ fun hspread => hwidth fun hall => hspread (hall (by omega))).bind ?_
    intro w hw
    have hes : ∀ x ∈ upcoming (nsamples q.qsize) q, 0 ≤ x.priority := by
      intro x hx
      refine (h.setResizeEnabled false).priority_nonneg ?_
      rw [hs.stored]
      exact Multiset.mem_add.mpr (.inl hx)
    refine (putAll_spec hquot hs.wellFormed hes (.inl hs.same.resizeEnabled)).bind ?_
    intro q₂ hg
    have hsame := hs.same.trans hg.same
    have hw₂ := hg.wellFormed
    refine .pure ⟨hw, ?_, ?_, ?_, ⟨rfl, rfl, rfl⟩⟩
    · refine ⟨hw₂.size, hw₂.region, hw₂.width, ?_, h.started, hw₂.top, hw₂.bot, hw₂.qsize,
        hw₂.sorted, hw₂.placed⟩
      exact h.position.trans_eq hsame.nbuckets.symm
    · rw [zero_add]
      exact hg.stored.trans hs.stored.symm
    · exact ⟨hsame.firstsub, hsame.nbuckets, hen.symm, hsame.topThreshold, hsame.botThreshold,
        hsame.cwidth, hsame.outside⟩

/-! ## The new calendar -/

/-- The position is the day of the last priority. -/
structure InPhase (q : Calqueue α) : Prop where
  lastbucket : q.lastbucket = day q.cwidth q.lastprio % q.nbuckets
  buckettop : q.buckettop = limit q.cwidth (day q.cwidth q.lastprio)

/-- An empty calendar at `base`. -/
structure Fresh (q : Calqueue α) (base n : ℕ) (q' : Calqueue α) : Prop where
  wellFormed : q'.WellFormed
  stored : q'.stored = 0
  inPhase : q'.InPhase
  firstsub : q'.firstsub = base
  nbuckets : q'.nbuckets = n
  resizeEnabled : q'.resizeEnabled = q.resizeEnabled
  outside : ∀ k, k < base ∨ base + n ≤ k → q'.calq k = q.calq k

theorem localinit_spec (hquot : allowed .quotient) {base k : ℕ} {bwidth startprio : ℚ} (hk : 1 ≤ k) (hk' : k ≤ 15)
    (hbase : base = 0 ∨ base + 2 ^ k = calqSpace) (hw : 0 < bwidth) (hs : 0 ≤ startprio) :
    Yields allowed (q.localinit base (2 ^ k) bwidth startprio)
      (fun q' => Fresh q base (2 ^ k) q' ∧ q'.lastprio = startprio) := by
  unfold localinit
  refine (quotientOf_spec hquot hs hw).bind ?_
  rintro n rfl
  rw [bucketOf_natCast]
  have hnil : ∀ i < 2 ^ k,
      (if base ≤ base + i ∧ base + i < base + 2 ^ k then [] else q.calq (base + i)) = [] :=
    fun i hi => if_pos ⟨by omega, by omega⟩
  have hzero : ∑ i ∈ Finset.range (2 ^ k), ((if base ≤ base + i ∧ base + i < base + 2 ^ k then []
      else q.calq (base + i) : List (CalqueueNode α)) : Multiset (CalqueueNode α)) = 0 := by
    refine Finset.sum_eq_zero (fun i hi => ?_)
    rw [hnil i (Finset.mem_range.mp hi)]
    rfl
  refine .pure ⟨⟨⟨⟨k, hk, hk', rfl⟩, hbase, hw, Nat.mod_lt _ (by positivity), hs, rfl, rfl,
    (congrArg Multiset.card hzero).symm, ?_, ?_⟩, hzero, ⟨rfl, by simp [limit]⟩, rfl, rfl, rfl,
    fun k' hk' => if_neg (by omega)⟩, rfl⟩
  · intro i hi
    show List.Pairwise _ (if _ then _ else _)
    rw [hnil i hi]
    exact .nil
  · intro i hi x hx
    have hx : x ∈ (if base ≤ base + i ∧ base + i < base + 2 ^ k then [] else q.calq (base + i)) :=
      hx
    rw [hnil i hi] at hx
    exact absurd hx List.not_mem_nil

/-- The nodes of `n` buckets from `base` on. -/
def region (q : Calqueue α) (base n : ℕ) : Multiset (CalqueueNode α) :=
  ∑ i ∈ Finset.range n, (q.calq (base + i) : Multiset (CalqueueNode α))

theorem copyCalendar_spec (hquot : allowed .quotient) {base n : ℕ} (h : q.WellFormed)
    (hdisj : ∀ i < n, base + i < q.firstsub ∨ q.firstsub + q.nbuckets ≤ base + i)
    (hpos : ∀ x ∈ q.region base n, 0 ≤ x.priority)
    (hq : Quiet q (Multiset.card (q.region base n))) :
    Yields allowed (copyCalendar (ops α (d + 1)) base n q)
      (Gains q (q.region base n)) := by
  induction n generalizing q with
  | zero => exact .pure (.refl h)
  | succ n ih =>
    have hsplit : q.region base (n + 1) = q.region base n + q.calq (base + n) :=
      Finset.sum_range_succ _ n
    rw [hsplit] at hpos hq ⊢
    rw [Multiset.card_add, Multiset.coe_card] at hq
    refine (putAll_spec hquot h (fun x hx => hpos x (Multiset.mem_add.mpr (.inr hx)))
      (hq.imp_right (by omega))).bind ?_
    intro q₁ hg
    -- the puts do not write the old calendar
    have hsame : q₁.region base n = q.region base n := by
      refine Finset.sum_congr rfl (fun i hi => ?_)
      rw [hg.same.outside _ (hdisj i (by have := Finset.mem_range.mp hi; omega))]
    have hdisj₁ : ∀ i < n, base + i < q₁.firstsub ∨ q₁.firstsub + q₁.nbuckets ≤ base + i := by
      intro i hi
      rw [hg.same.firstsub, hg.same.nbuckets]
      exact hdisj i (by omega)
    have hq₁ : Quiet q₁ (Multiset.card (q₁.region base n)) := by
      unfold Quiet
      rw [hg.same.resizeEnabled, hg.same.topThreshold, hg.stored, hsame, Multiset.card_add,
        Multiset.coe_card]
      exact hq.imp_right (by omega)
    refine (ih hg.wellFormed hdisj₁ (fun x hx => hpos x ?_) hq₁).mono ?_
    · rw [hsame] at hx
      exact Multiset.mem_add.mpr (.inl hx)
    · intro q' hg'
      have := hg.trans hg'
      rwa [hsame, add_comm] at this

/-- The calendar has been replaced by one of `n` buckets with the same nodes. -/
structure Resized (q : Calqueue α) (n : ℕ) (q' : Calqueue α) : Prop where
  wellFormed : q'.WellFormed
  stored : q'.stored = q.stored
  inPhase : q'.InPhase
  nbuckets : q'.nbuckets = n
  resizeEnabled : q'.resizeEnabled = true
  lastprio : q'.lastprio = q.lastprio

theorem resize_spec (hquot : allowed .quotient) (hwidth : ¬ q.SampleSpread → allowed .width) {k : ℕ}
    (h : q.WellFormed) (hen : q.resizeEnabled = true) (hk : 1 ≤ k) (hk' : k ≤ 15)
    (hroom : q.nbuckets + 2 ^ k ≤ calqSpace) (hcard : Multiset.card q.stored ≤ 2 * 2 ^ k) :
    Yields allowed (resize (ops α (d + 1)) q (2 ^ k)) (Resized q (2 ^ k)) := by
  unfold resize
  rw [if_neg (by simp [hen])]
  refine (newWidth_spec hquot hwidth h hen).bind ?_
  rintro ⟨w, q₁⟩ ⟨hw, hg⟩
  replace hg : Gains q 0 q₁ := hg
  have hbase : (if q₁.firstsub = 0 then calqSpace - 2 ^ k else 0) = 0 ∨
      (if q₁.firstsub = 0 then calqSpace - 2 ^ k else 0) + 2 ^ k = calqSpace := by
    split <;> omega
  refine (localinit_spec hquot hk hk' hbase hw hg.wellFormed.started).bind ?_
  rintro q₂ ⟨hf, hlast⟩
  -- the old calendar is at the other end of the array
  have hdisj : ∀ i < q₁.nbuckets, q₁.firstsub + i < q₂.firstsub ∨
      q₂.firstsub + q₂.nbuckets ≤ q₁.firstsub + i := by
    intro i hi
    have hn := hg.same.nbuckets
    have htwo := Nat.one_le_two_pow (n := k)
    have hregion := hg.wellFormed.region
    rw [hf.firstsub, hf.nbuckets]
    show _ < (if q₁.firstsub = 0 then calqSpace - 2 ^ k else 0) ∨
      (if q₁.firstsub = 0 then calqSpace - 2 ^ k else 0) + 2 ^ k ≤ _
    split <;> omega
  have hold : q₂.region q₁.firstsub q₁.nbuckets = q.stored := by
    rw [← zero_add q.stored, ← hg.stored]
    refine Finset.sum_congr rfl (fun i hi => ?_)
    rw [hf.outside]
    · rfl
    · rw [← hf.firstsub, ← hf.nbuckets]
      exact hdisj i (Finset.mem_range.mp hi)
  have hquiet : Quiet q₂ (Multiset.card (q₂.region q₁.firstsub q₁.nbuckets)) := by
    right
    rw [hf.stored, hold, hf.wellFormed.top, hf.nbuckets]
    simpa using hcard
  refine (copyCalendar_spec hquot hf.wellFormed hdisj ?_ hquiet).mono ?_
  · rw [hold]
    intro x hx
    exact h.priority_nonneg hx
  · intro q' hg'
    rw [hold] at hg'
    refine ⟨hg'.wellFormed, ?_, ⟨?_, ?_⟩, ?_, ?_, ?_⟩
    · rw [hg'.stored, hf.stored, add_zero]
    · rw [hg'.position.lastbucket, hf.inPhase.lastbucket, hg'.same.cwidth, hg'.position.lastprio,
        hg'.same.nbuckets]
    · rw [hg'.position.buckettop, hf.inPhase.buckettop, hg'.same.cwidth, hg'.position.lastprio]
    · rw [hg'.same.nbuckets, hf.nbuckets]
    · rw [hg'.same.resizeEnabled, hf.resizeEnabled, hg.same.resizeEnabled, hen]
    · rw [hg'.position.lastprio, hlast, hg.position.lastprio]

end Nested

/-! ## The operations of the queue -/

/-- A put that has left the queue so is going to double the calendar. -/
def Grows (q : Calqueue α) : Prop := q.topThreshold < q.qsize ∧ q.nbuckets < maxNBuckets

instance (q : Calqueue α) : Decidable q.Grows := inferInstanceAs (Decidable (_ ∧ _))

/-- A get that has left the queue so is going to halve the calendar. -/
def Shrinks (q : Calqueue α) : Prop := (q.qsize : ℤ) < q.botThreshold

instance (q : Calqueue α) : Decidable q.Shrinks := inferInstanceAs (Decidable (_ < _))

/-- What holds between the operations. -/
structure Inv (q : Calqueue α) : Prop where
  wellFormed : q.WellFormed
  enabled : q.resizeEnabled = true
  room : Multiset.card q.stored ≤ 2 * q.nbuckets ∨ q.nbuckets = maxNBuckets

/-- The end of an operation, after the bucket has been written: the calendar may be resized. -/
structure Settles (q q' : Calqueue α) : Prop where
  inv : q'.Inv
  stored : q'.stored = q.stored
  lastprio : q'.lastprio = q.lastprio
  inPhase : q.InPhase → q'.InPhase

theorem Resized.settles {n : ℕ} (h : Resized q n q') (hn : Multiset.card q.stored ≤ 2 * n) :
    Settles q q' where
  inv := ⟨h.wellFormed, h.resizeEnabled, .inl (by rwa [h.stored, h.nbuckets])⟩
  stored := h.stored
  lastprio := h.lastprio
  inPhase := fun _ => h.inPhase

theorem Inv.settles (h : q.Inv) : Settles q q := ⟨h, rfl, rfl, id⟩

theorem put_spec (hquot : allowed .quotient)
    (hwidth : ∀ q₁, q.link x = .ok q₁ → q₁.Grows → ¬ q₁.SampleSpread → allowed .width) (h : q.Inv)
    (hx : 0 ≤ x.priority) :
    Yields allowed (q.put x) (fun q' => ∃ q₁, Gains q {x} q₁ ∧ Settles q₁ q') := by
  have hlink : Yields allowed (q.link x) fun q₁ => Gains q {x} q₁ ∧ q.link x = .ok q₁ := by
    have hy := link_spec hquot h.wellFormed hx
    cases he : q.link x with
    | ok q₁ => exact .pure ⟨hy.of_ok he, rfl⟩
    | error f => exact .fault (hy.of_error he)
  refine hlink.bind ?_
  rintro q₁ ⟨hg, hlinked⟩
  have hw := hg.wellFormed
  have hen := hg.same.resizeEnabled.trans h.enabled
  have hcard : Multiset.card q₁.stored = Multiset.card q.stored + 1 := by
    rw [hg.stored, Multiset.card_add, Multiset.card_singleton, add_comm]
  have hroom := h.room
  have htop := hw.top
  have hn := hg.same.nbuckets
  have hwidth₁ := hwidth q₁ hlinked
  unfold Grows at hwidth₁
  rw [hw.qsize] at hwidth₁ ⊢
  split
  · rename_i hgrow
    -- the calendar had room before, so that now it lacks room for one node
    obtain ⟨k, hk, hk', hsize⟩ := hw.size
    have hlt : k < 15 := by
      by_contra hge
      obtain rfl : k = 15 := by omega
      rw [hsize] at hgrow
      exact absurd hgrow.2 (by decide)
    have hpow : (2 : ℕ) ^ k ≤ 2 ^ 14 := Nat.pow_le_pow_right (by omega) (by omega)
    have hdouble : 2 * q₁.nbuckets = 2 ^ (k + 1) := by rw [hsize, pow_succ, mul_comm]
    have htwo := hw.two_le
    have hfit : Multiset.card q₁.stored ≤ 2 * 2 ^ (k + 1) := by
      rw [← hdouble]
      omega
    rw [hdouble]
    refine (resize_spec hquot (hwidth₁ hgrow) hw hen (by omega) (by omega) ?_ hfit).mono ?_
    · rw [pow_succ, hsize]
      unfold calqSpace
      omega
    · intro q' hr
      exact ⟨q₁, hg, hr.settles hfit⟩
  · rename_i hkeep
    refine .pure ⟨q₁, hg, Inv.settles ⟨hw, hen, ?_⟩⟩
    have hmax := hw.nbuckets_le
    omega

theorem deq_empty (h : q.WellFormed) (hz : q.stored = 0) : q.deq = .ok (none, q) := by
  have hsize : q.qsize = 0 := by rw [h.qsize, hz, Multiset.card_zero]
  show deqWith _ q = _
  unfold deqWith
  rw [if_pos hsize]
  rfl

theorem deq_spec (hquot : allowed .quotient)
    (hwidth : ∀ e q₁, q.unlink = .ok (e, q₁) → q₁.Shrinks → ¬ q₁.SampleSpread → allowed .width)
    (h : q.Inv) (hne : q.stored ≠ 0) :
    ∃ e q₁, q.unlink = .ok (e, q₁) ∧ Unlinked q e q₁ ∧
      Yields allowed q.deq (fun r => r.1 = some e ∧ Settles q₁ r.2 ∧
        ((q.qsize : ℤ) - 1 < q.botThreshold → r.2.InPhase)) := by
  obtain ⟨e, q₁, hunlink, hu⟩ := unlink_spec h.wellFormed hne
  refine ⟨e, q₁, hunlink, hu, ?_⟩
  have hw := hu.wellFormed
  have hen := hu.same.resizeEnabled.trans h.enabled
  have hcard : Multiset.card q.stored = Multiset.card q₁.stored + 1 := by
    rw [hu.stored, Multiset.card_cons]
  have hsize : q.qsize ≠ 0 := by rwa [h.wellFormed.qsize, Ne, Multiset.card_eq_zero]
  have hbot := hu.same.botThreshold
  have hless : q.qsize = q₁.qsize + 1 := by rw [h.wellFormed.qsize, hw.qsize, hcard]
  show Yields _ (deqWith _ q) _
  unfold deqWith
  rw [if_neg hsize, hunlink]
  show Yields _ (if _ then _ else _) _
  split
  · rename_i hshrink
    have hwidth₁ := hwidth e q₁ hunlink hshrink
    rw [hw.qsize, hw.bot] at hshrink
    obtain ⟨k, hk, hk', hsize⟩ := hw.size
    obtain ⟨m, rfl⟩ : ∃ m, k = m + 1 := ⟨k - 1, by omega⟩
    have hhalf : q₁.nbuckets / 2 = 2 ^ m := by rw [hsize, pow_succ, Nat.mul_div_cancel _ two_pos]
    have hpow : (2 : ℕ) ^ m ≤ 2 ^ 14 := Nat.pow_le_pow_right (by omega) (by omega)
    rw [hhalf] at hshrink ⊢
    -- a calendar of two buckets is never halved
    have hm : 1 ≤ m := by
      by_contra hzero
      obtain rfl : m = 0 := by omega
      omega
    have hfit : Multiset.card q₁.stored ≤ 2 * 2 ^ m := by omega
    refine (resize_spec hquot hwidth₁ hw hen hm (by omega) ?_ hfit).bind ?_
    · rw [hsize, pow_succ]
      unfold calqSpace
      omega
    · intro q' hr
      exact .pure ⟨rfl, hr.settles hfit, fun _ => hr.inPhase⟩
  · rename_i hkeep
    refine .pure ⟨rfl, Inv.settles ⟨hw, hen, ?_⟩, fun hlow => absurd hlow ?_⟩
    · have hn := hu.same.nbuckets
      have hroom := h.room
      omega
    · rw [hless, ← hbot]
      push_cast
      rwa [add_sub_cancel_right]

/-- A put, with any fault of the numbers. -/
theorem put_spec_ofNumbers (h : q.Inv) (hx : 0 ≤ x.priority) :
    Yields Fault.OfNumbers (q.put x) (fun q' => ∃ q₁, Gains q {x} q₁ ∧ Settles q₁ q') :=
  put_spec trivial (fun _ _ _ _ => trivial) h hx

theorem deq_spec_ofNumbers (h : q.Inv) (hne : q.stored ≠ 0) :
    ∃ e q₁, q.unlink = .ok (e, q₁) ∧ Unlinked q e q₁ ∧
      Yields Fault.OfNumbers q.deq (fun r => r.1 = some e ∧ Settles q₁ r.2 ∧
        ((q.qsize : ℤ) - 1 < q.botThreshold → r.2.InPhase)) :=
  deq_spec trivial (fun _ _ _ _ _ => trivial) h hne

/-- The queue that `calqueue_init` makes of the memory. -/
def started (mem : Calqueue α) : Calqueue α where
  calq := fun k => if 0 ≤ k ∧ k < 0 + 2 then [] else mem.calq k
  firstsub := 0
  nbuckets := 2
  qsize := 0
  lastbucket := 0
  resizeEnabled := true
  topThreshold := 4
  botThreshold := -1
  lastprio := 0
  buckettop := 3 / 2
  cwidth := 1

theorem init_eq (mem : Calqueue α) : init mem = .ok (started mem) := by
  have hzero : longOf 0 1 = .ok 0 := by decide +kernel
  have htop : ((0 : ℤ) + 1 : ℚ) * 1 + 1 / 2 * 1 = 3 / 2 := by norm_num
  unfold init localinit
  rw [hzero]
  show Except.ok _ = _
  rw [htop]
  rfl

theorem init_spec (mem : Calqueue α) :
    Yields Fault.OfNumbers (init mem) (fun q => q.Inv ∧ q.InPhase ∧ q.stored = 0 ∧ q.lastprio = 0) := by
  unfold init
  refine (localinit_spec (k := 1) trivial le_rfl (by omega) (.inl rfl) one_pos le_rfl).bind ?_
  rintro q ⟨hf, hlast⟩
  refine .pure ⟨⟨hf.wellFormed.setResizeEnabled true, rfl, .inl ?_⟩,
    ⟨hf.inPhase.lastbucket, hf.inPhase.buckettop⟩, hf.stored, hlast⟩
  show Multiset.card q.stored ≤ _
  rw [hf.stored]
  exact Nat.zero_le _

/-! ## Runs -/

/-- A call of `calqueue_put`, or of `calqueue_get` with the node that it takes out and frees. -/
inductive Call (α : Type)
  | put (priority : ℚ) (payload : α)
  | get (e : Option (CalqueueNode α))
  deriving DecidableEq

/-- One call that ends without a fault. -/
def Step (q : Calqueue α) : Call α → Calqueue α → Prop
  | .put p x, q' => 0 ≤ p ∧ q.put ⟨p, x⟩ = .ok q'
  | .get e, q' => q.deq = .ok (e, q')

/-- A call as a function, for runs on given queues. -/
def call [DecidableEq α] (q : Calqueue α) : Call α → Option (Calqueue α)
  | .put p x => if 0 ≤ p then (q.put ⟨p, x⟩).toOption else none
  | .get e =>
    match q.deq with
    | .error _ => none
    | .ok (e', q') => if e = e' then some q' else none

abbrev History (α : Type) := List (Entry (Calqueue α) (Call α))

/-- The payload that a call puts into the queue. -/
def Call.given : Call α → Option α
  | .put _ x => some x
  | .get _ => none

/-- The payload that a call returns. -/
def Call.returned : Call α → Option α
  | .put _ _ => none
  | .get e => e.map (·.payload)

/-- The payloads of all puts. -/
def payloadsPut (h : History α) : Multiset α := (h.filterMap (·.act.given) : List α)

/-- The payloads that the gets returned. -/
def payloadsReturned (h : History α) : Multiset α := (h.filterMap (·.act.returned) : List α)

variable {mem q₀ : Calqueue α} {h : History α}

theorem step_inv {a : Call α} (hi : q.Inv) (hs : Step q a q') : q'.Inv := by
  cases a with
  | put p x =>
    obtain ⟨q₁, -, hset⟩ := (put_spec_ofNumbers hi hs.1).of_ok hs.2
    exact hset.inv
  | get e =>
    by_cases hz : q.stored = 0
    · have heq : Except.ok (none, q) = Except.ok (e, q') := (deq_empty hi.wellFormed hz).symm.trans hs
      cases heq
      exact hi
    · obtain ⟨e', q₁, -, -, hy⟩ := deq_spec_ofNumbers hi hz
      exact (hy.of_ok hs).2.1.inv

theorem step_payloads {a : Call α} (hi : q.Inv) (hs : Step q a q') :
    (a.given.toList : Multiset α) + q.stored.map (·.payload) =
      a.returned.toList + q'.stored.map (·.payload) := by
  cases a with
  | put p x =>
    obtain ⟨q₁, hg, hset⟩ := (put_spec_ofNumbers hi hs.1).of_ok hs.2
    rw [hset.stored, hg.stored, Multiset.map_add]
    simp [Call.given, Call.returned]
  | get e =>
    by_cases hz : q.stored = 0
    · have heq : Except.ok (none, q) = Except.ok (e, q') := (deq_empty hi.wellFormed hz).symm.trans hs
      cases heq
      rfl
    · obtain ⟨e', q₁, -, hu, hy⟩ := deq_spec_ofNumbers hi hz
      obtain ⟨he, hset, -⟩ := hy.of_ok hs
      obtain rfl : e = some e' := he
      rw [hset.stored, hu.stored, Multiset.map_cons]
      simp [Call.given, Call.returned]

theorem step_of_call [DecidableEq α] {a : Call α} (hc : call q a = some q') : Step q a q' := by
  cases a with
  | put p x =>
    obtain ⟨hp, hq⟩ : 0 ≤ p ∧ (q.put ⟨p, x⟩).toOption = some q' := by simpa [call] using hc
    refine ⟨hp, ?_⟩
    cases hput : q.put ⟨p, x⟩ with
    | ok q₁ =>
      rw [hput] at hq
      exact congrArg Except.ok (Option.some_inj.mp hq)
    | error f =>
      rw [hput] at hq
      cases hq
  | get e =>
    show q.deq = _
    rw [call] at hc
    cases hdeq : q.deq with
    | error f =>
      rw [hdeq] at hc
      cases hc
    | ok r =>
      rw [hdeq] at hc
      obtain ⟨rfl, rfl⟩ : e = r.1 ∧ r.2 = q' := by simpa using hc
      rfl

theorem run_of_calls [DecidableEq α] (calls : List (Call α))
    (he : Run.execute call [] q₀ calls = some (h, q)) : Run Step q₀ h q :=
  (Run.of_execute calls .start he).mono (fun _ _ _ => step_of_call)

theorem inv_of_run (hinit : init mem = .ok q₀) (hr : Run Step q₀ h q) : q.Inv :=
  hr.invariant ((init_spec mem).of_ok hinit).1 (fun _ _ _ => step_inv)

theorem payloads_of_run (hinit : init mem = .ok q₀) (hr : Run Step q₀ h q) :
    payloadsPut h = payloadsReturned h + q.stored.map (·.payload) := by
  refine hr.induct (I := fun h q => payloadsPut h = payloadsReturned h + q.stored.map (·.payload))
    ?_ ?_
  · rw [((init_spec mem).of_ok hinit).2.2.1]
    rfl
  · intro h q a q' hr ih hs
    have hstep := step_payloads (inv_of_run hinit hr) hs
    have hput : payloadsPut (⟨q, a, q'⟩ :: h) = a.given.toList + payloadsPut h := by
      unfold payloadsPut
      cases hg : a.given <;> simp [hg]
    have hret : payloadsReturned (⟨q, a, q'⟩ :: h) = a.returned.toList + payloadsReturned h := by
      unfold payloadsReturned
      cases hg : a.returned <;> simp [hg]
    rw [hput, hret, ih, add_left_comm, hstep]
    abel

theorem get_eq (q : Calqueue α) : q.get = q.deq.map (fun r => (r.1.map (·.payload), r.2)) := by
  unfold get
  cases q.deq <;> rfl

theorem get_spec (h : q.Inv) :
    Yields Fault.OfNumbers q.get (fun r => r.1 = none ↔ q.stored = 0) := by
  rw [get_eq]
  by_cases hz : q.stored = 0
  · rw [deq_empty h.wellFormed hz]
    exact .pure (iff_of_true rfl hz)
  · obtain ⟨e, q₁, -, -, hy⟩ := deq_spec_ofNumbers h hz
    cases hd : q.deq with
    | ok r =>
      rw [hd] at hy
      have he : r.1 = some e := (hy.of_ok rfl).1
      refine .pure (iff_of_false ?_ hz)
      simp [he]
    | error f => exact .fault (hy.of_error hd)

/-- No run of puts and gets loses or duplicates an element. -/
theorem calqueue_keeps_elements (hinit : init mem = .ok q₀) (hr : Run Step q₀ h q) :
    payloadsPut h = payloadsReturned h + q.stored.map (·.payload) ∧
      q.qsize = Multiset.card q.stored ∧
      (∀ r q', q.get = .ok (r, q') → (r = none ↔ q.stored = 0)) ∧
      (∀ i < q.nbuckets, (q.bucket i).Pairwise (fun x y => x.priority ≤ y.priority)) ∧
      (∀ x : CalqueueNode α, 0 ≤ x.priority →
        Yields Fault.OfNumbers (q.put x) (fun _ => True)) ∧
      Yields Fault.OfNumbers q.get (fun _ => True) := by
  have hi := inv_of_run hinit hr
  refine ⟨payloads_of_run hinit hr, hi.wellFormed.qsize, ?_, hi.wellFormed.sorted, ?_, ?_⟩
  · intro r q' hget
    exact (get_spec hi).of_ok hget
  · intro x hx
    exact (put_spec_ofNumbers hi hx).mono (fun _ _ => trivial)
  · exact (get_spec hi).mono (fun _ _ => trivial)

/-- Memory with no nodes. -/
def blank : Calqueue ℕ := ⟨fun _ => [], 0, 0, 0, 0, false, 0, 0, 0, 0, 0⟩

/-- The fifth put doubles the calendar. -/
theorem calqueue_keeps_elements_doubled :
    ∃ h q, Run Step (started blank) h q ∧ q.nbuckets = 4 ∧
      payloadsPut h = payloadsReturned h + q.stored.map (·.payload) ∧
      q.qsize = Multiset.card q.stored ∧
      (∀ r q', q.get = .ok (r, q') → (r = none ↔ q.stored = 0)) ∧
      (∀ i < q.nbuckets, (q.bucket i).Pairwise (fun x y => x.priority ≤ y.priority)) ∧
      (∀ x : CalqueueNode ℕ, 0 ≤ x.priority →
        Yields Fault.OfNumbers (q.put x) (fun _ => True)) ∧
      Yields Fault.OfNumbers q.get (fun _ => True) := by
  obtain ⟨h, q, he, hc⟩ := Run.exists_execute call (started blank)
    [.put 1 10, .put 2 20, .put 3 30, .put 4 40, .put 5 50, .get (some ⟨1, 10⟩)]
    (fun _ q => decide (q.nbuckets = 4)) (by decide +kernel)
  have hr := run_of_calls _ he
  exact ⟨h, q, hr, of_decide_eq_true hc, calqueue_keeps_elements (init_eq blank) hr⟩

end Calqueue

end Fibers.Testbed
