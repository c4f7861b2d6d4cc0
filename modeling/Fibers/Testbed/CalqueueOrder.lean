import Fibers.Testbed.CalqueueElements

/-!
# The order in which the calendar queue returns its elements

The scan looks at one bucket a day, from the day of the last priority on, and trusts that
`buckettop` belongs to that day. It finds the earliest element when there is one within a year
of `nbuckets` days; when there is none the direct search finds it, but leaves `buckettop` where
the scan ended.

## Main results

- `scan_inPhase` — the scan passes by the days that have no element
- `calqueue_ordered_within_reach` — the order in runs that reach no further than a year
- `calqueue_get_out_of_order` — a run that returns a later element before an earlier one
-/

namespace Fibers.Testbed

open Calendar

namespace Calqueue

variable {α : Type}

variable {q q' q₁ : Calqueue α} {x e : CalqueueNode α} {i : ℕ}

/-- All elements are stored for the day `n` or later. -/
def From (q : Calqueue α) (n : ℕ) : Prop := ∀ x ∈ q.stored, n ≤ day q.cwidth x.priority

theorem WellFormed.mem_bucket (h : q.WellFormed) (hx : x ∈ q.stored) :
    x ∈ q.bucket (day q.cwidth x.priority % q.nbuckets) := by
  obtain ⟨i, hi, hxi⟩ := mem_stored.mp hx
  rwa [(h.placed i hi x hxi).2]

/-- The head of a bucket is not later than the other nodes in it. -/
theorem WellFormed.head_le {l : List (CalqueueNode α)} (h : q.WellFormed) (hi : i < q.nbuckets)
    (hb : q.bucket i = e :: l) (hx : x ∈ q.bucket i) : e.priority ≤ x.priority := by
  have hsorted := h.sorted i hi
  rw [hb] at hsorted hx
  rcases List.mem_cons.mp hx with rfl | hx
  · exact le_rfl
  · exact List.rel_of_pairwise_cons hsorted hx

theorem WellFormed.head_mem {l : List (CalqueueNode α)} (hi : i < q.nbuckets)
    (hb : q.bucket i = e :: l) : e ∈ q.stored :=
  mem_stored.mpr ⟨i, hi, hb ▸ List.mem_cons_self⟩

/-- A bucket that fails the check of a day has no element of that day. -/
theorem From.succ {n : ℕ} (hfrom : q.From n) (h : q.WellFormed)
    (hhead : q.headBelow (n % q.nbuckets) (limit q.cwidth n) = false) : q.From (n + 1) := by
  intro x hx
  have hle := hfrom x hx
  by_contra hlt
  have hday : day q.cwidth x.priority = n := by omega
  have hbucket := h.mem_bucket hx
  rw [hday] at hbucket
  have hi : n % q.nbuckets < q.nbuckets := Nat.mod_lt _ (by have := h.two_le; omega)
  obtain ⟨e, l, hb⟩ := List.exists_cons_of_ne_nil (List.ne_nil_of_mem hbucket)
  have hbelow : x.priority < limit q.cwidth n :=
    lt_limit_of_day_le h.width (h.priority_nonneg hx) hday.le
  rw [headBelow_iff.mpr ⟨e, l, hb, (h.head_le hi hb hbucket).trans_lt hbelow⟩] at hhead
  cases hhead

/-- The scan from the day `n` on ends at the first day that has an element, or passes by all `k`
days. -/
theorem scan_inPhase {k n : ℕ} (h : q.WellFormed) (hfrom : q.From n) :
    (∃ m, q.scan k (n % q.nbuckets) (limit q.cwidth n) =
        (some (m % q.nbuckets), limit q.cwidth m) ∧
      q.From m ∧ q.headBelow (m % q.nbuckets) (limit q.cwidth m) = true) ∨
    q.scan k (n % q.nbuckets) (limit q.cwidth n) = (none, limit q.cwidth (n + k)) ∧
      q.From (n + k) := by
  induction k generalizing n with
  | zero => exact .inr ⟨rfl, hfrom⟩
  | succ k ih =>
    by_cases hhead : q.headBelow (n % q.nbuckets) (limit q.cwidth n) = true
    · left
      refine ⟨n, ?_, hfrom, hhead⟩
      rw [scan, if_pos hhead]
    · have hshift : n + (k + 1) = n + 1 + k := by omega
      rw [scan, if_neg hhead, ← succ_mod h.two_le, ← limit_succ, hshift]
      exact ih (hfrom.succ h (by simpa using hhead))

/-! ## Taking the earliest element out -/

/-- All elements are at least as late as the last one returned. -/
def NoneEarlier (q : Calqueue α) : Prop := ∀ x ∈ q.stored, q.lastprio ≤ x.priority

theorem NoneEarlier.from (hlater : q.NoneEarlier) (h : q.WellFormed) :
    q.From (day q.cwidth q.lastprio) := fun x hx => day_le_day h.width (hlater x hx)

/-- Some element is stored for a day within a year of the time `t`. -/
def WithinYear (q : Calqueue α) (t : ℚ) : Prop :=
  ∃ x ∈ q.stored, day q.cwidth x.priority ≤ day q.cwidth t + q.nbuckets

theorem unlink_minimal (h : q.WellFormed) (hphase : q.InPhase) (hlater : q.NoneEarlier)
    (hu : q.unlink = .ok (e, q₁)) (hne : q.stored ≠ 0) :
    e ∈ q.stored ∧ (∀ x ∈ q.stored, e.priority ≤ x.priority) ∧
      (q.WithinYear q.lastprio → q₁.InPhase) := by
  obtain ⟨i, top, e', l, hf, heq⟩ := exists_found h hne
  obtain ⟨rfl, rfl⟩ : e = e' ∧ _ = q₁ := by
    have := heq.symm.trans hu
    simpa [eq_comm] using this
  have hmem := WellFormed.head_mem hf.lt hf.bucket
  have hpos := h.priority_nonneg hmem
  have hplaced : day q.cwidth e.priority % q.nbuckets = i :=
    (h.placed i hf.lt e (hf.bucket ▸ List.mem_cons_self)).2
  refine ⟨hmem, ?_⟩
  have hchosen := hf.chosen
  rw [hphase.lastbucket, hphase.buckettop] at hchosen
  rcases scan_inPhase (k := q.nbuckets) h (hlater.from h) with
    ⟨m, hscan, hfrom, hhead⟩ | ⟨hscan, hfrom⟩
  · -- the scan has found the day of `e`
    have hfound : i = m % q.nbuckets ∧ top = limit q.cwidth m := by
      rw [hscan] at hchosen
      simpa [eq_comm] using hchosen
    obtain ⟨rfl, rfl⟩ := hfound
    have hday : day q.cwidth e.priority = m := by
      obtain ⟨e', l', hb, hlt⟩ := headBelow_iff.mp hhead
      obtain ⟨rfl, rfl⟩ : e = e' ∧ l = l' := by simpa [hf.bucket] using hb
      exact (lt_limit_iff h.two_le h.width hpos (hfrom e hmem) hplaced).mp hlt
    refine ⟨?_, fun _ => ⟨hplaced.symm, congrArg (limit q.cwidth) hday.symm⟩⟩
    intro x hx
    rcases (hfrom x hx).eq_or_lt with hsame | hlater
    · refine h.head_le hf.lt hf.bucket ?_
      rw [hsame]
      exact h.mem_bucket hx
    · exact (lt_of_day_lt h.width (hday.trans_lt hlater)).le
  · -- no element within a year of days: the direct search
    have hlow : top = limit q.cwidth (day q.cwidth q.lastprio + q.nbuckets) ∧
        Lowest q q.nbuckets i e.priority := by
      rw [hscan] at hchosen
      simpa [eq_comm] using hchosen
    obtain ⟨rfl, hlow⟩ := hlow
    have hmin : ∀ x ∈ q.stored, e.priority ≤ x.priority := by
      intro x hx
      obtain ⟨j, hj, hxj⟩ := mem_stored.mp hx
      obtain ⟨y, l', hb⟩ := List.exists_cons_of_ne_nil (List.ne_nil_of_mem hxj)
      exact (hlow.le j hj y l' hb).trans (h.head_le hj hb hxj)
    refine ⟨hmin, ?_⟩
    rintro ⟨x, hx, hreach⟩
    have hday : day q.cwidth e.priority = day q.cwidth q.lastprio + q.nbuckets :=
      le_antisymm ((day_le_day h.width (hmin x hx)).trans hreach) (hfrom e hmem)
    exact ⟨hplaced.symm, congrArg (limit q.cwidth) hday.symm⟩

/-! ## Runs -/

/-- The priority of the last element returned; `calqueue_init` starts at 0. -/
def lastReturned : History α → ℚ
  | [] => 0
  | ⟨_, .get (some e), _⟩ :: _ => e.priority
  | _ :: past => lastReturned past

/-- The priorities returned, the latest first. -/
def prioritiesReturned : History α → List ℚ
  | [] => []
  | ⟨_, .get (some e), _⟩ :: past => e.priority :: prioritiesReturned past
  | _ :: past => prioritiesReturned past

/-- The priority of a put. -/
def Call.priority : Call α → Option ℚ
  | .put p _ => some p
  | .get _ => none

/-- The outcome of a get. -/
def Call.result : Call α → Option (Option (CalqueueNode α))
  | .put _ _ => none
  | .get e => some e

/-- A put is not earlier than the last element returned. -/
def PutsLater (past : History α) (e : Entry (Calqueue α) (Call α)) : Prop :=
  ∀ p ∈ e.act.priority, lastReturned past ≤ p

/-- A get of a queue that is not empty finds an element within a year of the last one returned, or
halves the calendar, which starts it anew. -/
def WithinReach (past : History α) (e : Entry (Calqueue α) (Call α)) : Prop :=
  ∀ _r ∈ e.act.result, e.pre.stored ≠ 0 →
    e.pre.WithinYear (lastReturned past) ∨ (e.pre.qsize : ℤ) - 1 < e.pre.botThreshold

/-- The outcome is an element that is minimal in the queue. -/
def IsMinimum (q : Calqueue α) (r : Option (CalqueueNode α)) : Prop :=
  ∃ x ∈ q.stored, r = some x ∧ ∀ y ∈ q.stored, x.priority ≤ y.priority

/-- A get of a queue that is not empty returns a minimal element. -/
def ReturnsMinimum (_ : History α) (e : Entry (Calqueue α) (Call α)) : Prop :=
  ∀ r ∈ e.act.result, e.pre.stored ≠ 0 → e.pre.IsMinimum r

section Decidable

variable [DecidableEq α] (past : History α) (e : Entry (Calqueue α) (Call α))

instance : Decidable (PutsLater past e) :=
  inferInstanceAs (Decidable (∀ p ∈ e.act.priority, lastReturned past ≤ p))

instance (q : Calqueue α) (t : ℚ) : Decidable (q.WithinYear t) :=
  Multiset.decidableExistsMultiset

instance : Decidable (WithinReach past e) :=
  inferInstanceAs (Decidable (∀ _r ∈ e.act.result, e.pre.stored ≠ 0 →
    e.pre.WithinYear (lastReturned past) ∨ (e.pre.qsize : ℤ) - 1 < e.pre.botThreshold))

instance (q : Calqueue α) (r : Option (CalqueueNode α)) : Decidable (q.IsMinimum r) :=
  Multiset.decidableExistsMultiset

instance : Decidable (ReturnsMinimum past e) :=
  inferInstanceAs (Decidable (∀ r ∈ e.act.result, e.pre.stored ≠ 0 → e.pre.IsMinimum r))

end Decidable

/-- Between the operations of a run in which every get was within reach. -/
structure OnTime (h : History α) (q : Calqueue α) : Prop where
  inv : q.Inv
  inPhase : q.InPhase
  noneEarlier : q.NoneEarlier
  lastprio : q.lastprio = lastReturned h
  returned : ∀ p ∈ prioritiesReturned h, p ≤ q.lastprio
  ordered : (prioritiesReturned h).Pairwise (· ≥ ·)

variable {mem q₀ : Calqueue α} {h : History α}

theorem OnTime.put {p : ℚ} {x : α} (ht : OnTime h q) (hs : Step q (.put p x) q')
    (hlater : lastReturned h ≤ p) : OnTime (⟨q, .put p x, q'⟩ :: h) q' := by
  obtain ⟨q₁, hg, hset⟩ := (put_spec_ofNumbers ht.inv hs.1).of_ok hs.2
  have hprio : q'.lastprio = q.lastprio := hset.lastprio.trans hg.position.lastprio
  refine ⟨hset.inv, hset.inPhase ⟨?_, ?_⟩, ?_, hprio.trans ht.lastprio, ?_, ht.ordered⟩
  · rw [hg.position.lastbucket, hg.same.cwidth, hg.position.lastprio, hg.same.nbuckets,
      ht.inPhase.lastbucket]
  · rw [hg.position.buckettop, hg.same.cwidth, hg.position.lastprio, ht.inPhase.buckettop]
  · intro y hy
    rw [hset.stored, hg.stored, Multiset.mem_add, Multiset.mem_singleton] at hy
    rw [hprio]
    rcases hy with rfl | hy
    · exact ht.lastprio.trans_le hlater
    · exact ht.noneEarlier y hy
  · intro r hr
    exact (ht.returned r hr).trans_eq hprio.symm

theorem OnTime.get {r : Option (CalqueueNode α)} (ht : OnTime h q) (hs : Step q (.get r) q')
    (hreach : WithinReach h ⟨q, .get r, q'⟩) :
    ReturnsMinimum h ⟨q, .get r, q'⟩ ∧ OnTime (⟨q, .get r, q'⟩ :: h) q' := by
  by_cases hz : q.stored = 0
  · have heq : Except.ok (none, q) = Except.ok (r, q') :=
      (deq_empty ht.inv.wellFormed hz).symm.trans hs
    cases heq
    exact ⟨fun _ _ hne => absurd hz hne, ht.inv, ht.inPhase, ht.noneEarlier, ht.lastprio,
      ht.returned, ht.ordered⟩
  · obtain ⟨e, q₁, hunlink, hu, hy⟩ := deq_spec_ofNumbers ht.inv hz
    obtain ⟨hr, hset, hhalved⟩ := hy.of_ok hs
    obtain rfl : r = some e := hr
    obtain ⟨hmem, hmin, hphase⟩ :=
      unlink_minimal ht.inv.wellFormed ht.inPhase ht.noneEarlier hunlink hz
    have hprio : q'.lastprio = e.priority := hset.lastprio.trans hu.lastprio
    have hlater : q.lastprio ≤ e.priority := ht.noneEarlier e hmem
    refine ⟨?_, hset.inv, ?_, ?_, hprio, ?_, ?_⟩
    · rintro _ ⟨⟩ _
      exact ⟨e, hmem, rfl, hmin⟩
    · rcases hreach _ rfl hz with hyear | hsmall
      · exact hset.inPhase (hphase (by rwa [ht.lastprio]))
      · exact hhalved hsmall
    · intro x hx
      rw [hprio]
      refine hmin x ?_
      rw [hu.stored, ← hset.stored]
      exact Multiset.mem_cons_of_mem hx
    · intro p hp
      rw [hprio]
      rcases List.mem_cons.mp hp with rfl | hp
      · exact le_rfl
      · exact (ht.returned p hp).trans hlater
    · exact List.pairwise_cons.mpr ⟨fun p hp => (ht.returned p hp).trans hlater, ht.ordered⟩

theorem onTime_init (hinit : init mem = .ok q₀) : OnTime [] q₀ := by
  obtain ⟨hinv, hphase, hstored, hlast⟩ := (init_spec mem).of_ok hinit
  refine ⟨hinv, hphase, ?_, hlast, ?_, .nil⟩
  · intro x hx
    simp [hstored] at hx
  · simp [prioritiesReturned]

/-- In a run within reach every get returns a minimal element, and the priorities returned do not
decrease. -/
theorem calqueue_ordered_within_reach (hinit : init mem = .ok q₀) (hr : Run Step q₀ h q)
    (hputs : EveryEntry PutsLater h) (hreach : EveryEntry WithinReach h) :
    EveryEntry ReturnsMinimum h ∧ (prioritiesReturned h).Pairwise (· ≥ ·) := by
  suffices hi : EveryEntry ReturnsMinimum h ∧ OnTime h q from ⟨hi.1, hi.2.ordered⟩
  induction hr with
  | start => exact ⟨trivial, onTime_init hinit⟩
  | @next h q q' a hr hs ih =>
    obtain ⟨hmin, ht⟩ := ih hputs.2 hreach.2
    cases a with
    | put p x =>
      refine ⟨⟨?_, hmin⟩, ht.put hs (hputs.1 p rfl)⟩
      rintro _ ⟨⟩
    | get r =>
      obtain ⟨hminimum, ht'⟩ := ht.get hs hreach.1
      exact ⟨⟨hminimum, hmin⟩, ht'⟩

theorem calqueue_ordered_within_reach_run :
    ∃ h q, Run Step (started blank) h q ∧ prioritiesReturned h = [5 / 2, 1 / 2] ∧
      EveryEntry ReturnsMinimum h ∧ (prioritiesReturned h).Pairwise (· ≥ ·) := by
  obtain ⟨h, q, he, hc⟩ := Run.exists_execute call (started blank)
    [.put (5 / 2) 1, .put (1 / 2) 2, .get (some ⟨1 / 2, 2⟩), .get (some ⟨5 / 2, 1⟩)]
    (fun h _ => decide (prioritiesReturned h = [5 / 2, 1 / 2] ∧
      EveryEntry PutsLater h ∧ EveryEntry WithinReach h)) (by decide +kernel)
  obtain ⟨hreturned, hputs, hreach⟩ := of_decide_eq_true hc
  have hr := run_of_calls _ he
  exact ⟨h, q, hr, hreturned,
    calqueue_ordered_within_reach (init_eq blank) hr hputs hreach⟩

/-- The direct search for an element of the day 3 leaves `buckettop` in the day 3 of a calendar of
two days, so that the next scan passes by the other element of that day. -/
theorem calqueue_get_out_of_order :
    ¬ ∀ (mem q₀ q : Calqueue ℕ) (h : History ℕ), init mem = .ok q₀ → Run Step q₀ h q →
      EveryEntry PutsLater h → EveryEntry ReturnsMinimum h := by
  intro hall
  obtain ⟨h, q, he, hc⟩ := Run.exists_execute call (started blank)
    [.put (13 / 4) 1, .put (15 / 4) 2, .put (17 / 4) 3, .get (some ⟨13 / 4, 1⟩),
      .get (some ⟨17 / 4, 3⟩)]
    (fun h _ => decide (EveryEntry PutsLater h ∧ ¬ EveryEntry ReturnsMinimum h))
    (by decide +kernel)
  obtain ⟨hputs, hminimum⟩ := of_decide_eq_true hc
  exact hminimum (hall blank (started blank) q h (init_eq blank) (run_of_calls _ he) hputs)

end Calqueue

end Fibers.Testbed
