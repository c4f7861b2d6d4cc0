import Fibers.Testbed.CalqueueElements

/-!
# The size of the calendar

A put that finds more than two elements a bucket doubles the calendar, and a get that leaves less
than half an element a bucket halves it. The calendar of a run is never far too small or too large,
and what the resizes move is paid by the calls in between.

## Main results

- `put_size`, `get_size` — the number of elements and of buckets after an operation
- `calendar_fits` — the number of buckets and the number of elements in every run
- `resizes_amortized` — the elements that all resizes of a run move
-/

namespace Fibers.Testbed.Calqueue

variable {α : Type} {q q' : Calqueue α} {x e : CalqueueNode α}

/-! ## One operation -/

/-- What `calqueue_put` makes of the number of buckets, with `n` elements in the end. -/
def bucketsAfterPut (n nbuckets : ℕ) : ℕ :=
  if 2 * nbuckets < n ∧ nbuckets < maxNBuckets then 2 * nbuckets else nbuckets

/-- What `calqueue_get` makes of the number of buckets, with `n` elements in the end. -/
def bucketsAfterGet (n nbuckets : ℕ) : ℕ :=
  if n + 2 < nbuckets / 2 then nbuckets / 2 else nbuckets

/-- A resize to a number of buckets that fits gives that number. -/
theorem nbuckets_of_resize {k : ℕ} (hw : q.WellFormed) (hen : q.resizeEnabled = true) (hk : 1 ≤ k)
    (hk' : k ≤ 15) (hcard : q.qsize ≤ 2 * 2 ^ k)
    (hresize : resize (ops α 1) q (2 ^ k) = .ok q') : q'.nbuckets = 2 ^ k := by
  have hpow : (2 : ℕ) ^ k ≤ 2 ^ 15 := Nat.pow_le_pow_right (by omega) hk'
  have hmax := hw.nbuckets_le
  have hroom : q.nbuckets + 2 ^ k ≤ calqSpace := by
    unfold maxNBuckets at hmax
    unfold calqSpace
    omega
  have hspec : Yields Fault.OfNumbers (resize (ops α 1) q (2 ^ k)) _ :=
    resize_spec (d := 0) trivial (fun _ => trivial) hw hen hk hk' hroom (hw.qsize ▸ hcard)
  exact (hspec.of_ok hresize).nbuckets

theorem put_size (h : q.Inv) (hx : 0 ≤ x.priority) (hput : q.put x = .ok q') :
    q'.Inv ∧ q'.qsize = q.qsize + 1 ∧ q'.nbuckets = bucketsAfterPut (q.qsize + 1) q.nbuckets := by
  obtain ⟨q₂, hg₂, hset⟩ := (put_spec_ofNumbers h hx).of_ok hput
  have hcount : q'.qsize = q.qsize + 1 := by
    rw [hset.inv.wellFormed.qsize, hset.stored, hg₂.stored, h.wellFormed.qsize, Multiset.card_add,
      Multiset.card_singleton, add_comm]
  refine ⟨hset.inv, hcount, ?_⟩
  cases hlink : q.link x with
  | error f =>
    change (q.link x >>= _) = _ at hput
    rw [hlink] at hput
    cases hput
  | ok q₁ =>
    have hspec : Yields Fault.OfNumbers (q.link x) _ := link_spec trivial h.wellFormed hx
    have hg := hspec.of_ok hlink
    have hw := hg.wellFormed
    have hn := hg.same.nbuckets
    have hsize₁ : q₁.qsize = q.qsize + 1 := by
      rw [hw.qsize, hg.stored, h.wellFormed.qsize, Multiset.card_add, Multiset.card_singleton,
        add_comm]
    change (q.link x >>= _) = _ at hput
    rw [hlink] at hput
    change (if q₁.topThreshold < q₁.qsize ∧ q₁.nbuckets < maxNBuckets then _ else _) = _ at hput
    rw [hw.top, hsize₁, hn] at hput
    rw [bucketsAfterPut]
    split at hput
    · next hgrow =>
      rw [if_pos hgrow]
      obtain ⟨k, hk, hk', hsize⟩ := h.wellFormed.size
      have hlt : k < 15 := by
        by_contra hge
        obtain rfl : k = 15 := by omega
        rw [hsize] at hgrow
        exact absurd hgrow.2 (by decide)
      have hdouble : 2 * q.nbuckets = 2 ^ (k + 1) := by rw [hsize, pow_succ, mul_comm]
      have hroom := h.room
      rw [← h.wellFormed.qsize] at hroom
      have htwo := h.wellFormed.two_le
      rw [hdouble] at hput ⊢
      refine nbuckets_of_resize hw (hg.same.resizeEnabled.trans h.enabled) (by omega) (by omega) ?_
        hput
      omega
    · next hkeep =>
      rw [if_neg hkeep]
      obtain rfl := Except.ok.inj hput
      exact hn

theorem get_size {r : Option (CalqueueNode α)} (h : q.Inv) (hne : q.stored ≠ 0)
    (hget : q.deq = .ok (r, q')) :
    q'.Inv ∧ q.qsize = q'.qsize + 1 ∧ q'.nbuckets = bucketsAfterGet q'.qsize q.nbuckets := by
  obtain ⟨e, q₁, hunlink, hu, hy⟩ := deq_spec_ofNumbers h hne
  obtain ⟨-, hset, -⟩ := hy.of_ok hget
  have hw := hu.wellFormed
  have hn := hu.same.nbuckets
  have hsame : q'.qsize = q₁.qsize := by
    rw [hset.inv.wellFormed.qsize, hset.stored, hw.qsize]
  have hcount : q.qsize = q₁.qsize + 1 := by
    rw [h.wellFormed.qsize, hu.stored, hw.qsize, Multiset.card_cons]
  refine ⟨hset.inv, by rw [hsame, hcount], ?_⟩
  change deqWith (ops α 1) q = _ at hget
  rw [deqWith, if_neg (by omega), hunlink] at hget
  change (if (q₁.qsize : ℤ) < q₁.botThreshold then _ else _) = _ at hget
  rw [hw.bot, hn] at hget
  rw [bucketsAfterGet, hsame]
  split at hget
  · next hshrink =>
    rw [if_pos (by omega)]
    obtain ⟨k, hk, hk', hsize⟩ := h.wellFormed.size
    obtain ⟨m, rfl⟩ : ∃ m, k = m + 1 := ⟨k - 1, by omega⟩
    have hhalf : q.nbuckets / 2 = 2 ^ m := by rw [hsize, pow_succ, Nat.mul_div_cancel _ two_pos]
    rw [hhalf] at hshrink ⊢
    -- a calendar of two buckets is never halved
    have hm : 1 ≤ m := by
      by_contra hzero
      obtain rfl : m = 0 := by omega
      omega
    rw [hhalf] at hget
    cases hresize : resize (ops α 1) q₁ (2 ^ m) with
    | error f =>
      rw [hresize] at hget
      cases hget
    | ok q₂ =>
      rw [hresize] at hget
      cases hget
      exact nbuckets_of_resize hw (hu.same.resizeEnabled.trans h.enabled) hm (by omega) (by omega)
        hresize
  · next hkeep =>
    rw [if_neg (by omega)]
    cases hget
    exact hn

/-! ## Runs -/

variable {mem q₀ : Calqueue α} {h : History α}

/-- The calendar has at most four buckets for each element but for a few, and at most two elements a
bucket unless it has the largest size. -/
structure Fits (q : Calqueue α) : Prop where
  inv : q.Inv
  few : q.nbuckets / 2 ≤ q.qsize + 2

theorem fits_of_step {a : Call α} (hf : Fits q) (hs : Step q a q') : Fits q' := by
  cases a with
  | put p x =>
    obtain ⟨hi, hsize, hbuckets⟩ := put_size hf.inv hs.1 hs.2
    refine ⟨hi, ?_⟩
    have hfew := hf.few
    rw [hbuckets, hsize, bucketsAfterPut]
    split <;> omega
  | get r =>
    by_cases hz : q.stored = 0
    · have heq : Except.ok (none, q) = Except.ok (r, q') :=
        (deq_empty hf.inv.wellFormed hz).symm.trans hs
      cases heq
      exact hf
    · obtain ⟨hi, hsize, hbuckets⟩ := get_size hf.inv hz hs
      refine ⟨hi, ?_⟩
      have hfew := hf.few
      rw [hbuckets, bucketsAfterGet]
      split <;> omega

theorem fits_init (hinit : init mem = .ok q₀) : Fits q₀ := by
  have hi := ((init_spec mem).of_ok hinit).1
  rw [init_eq] at hinit
  cases hinit
  exact ⟨hi, by simp [started]⟩

/-- In every run of calls that do not fault the calendar is one of `2 ^ k` buckets at one end of the
array, it has less than `2 * qsize + 6` buckets, and it has at least half as many as elements, if there
can be so many. -/
theorem calendar_fits (hinit : init mem = .ok q₀) (hr : Run Step q₀ h q) :
    (∃ k, 1 ≤ k ∧ k ≤ 15 ∧ q.nbuckets = 2 ^ k) ∧
      (q.firstsub = 0 ∨ q.firstsub + q.nbuckets = calqSpace) ∧
      q.nbuckets < 2 * q.qsize + 6 ∧ (q.qsize ≤ 2 * q.nbuckets ∨ q.nbuckets = maxNBuckets) := by
  have hf := hr.invariant (fits_init hinit) (fun _ _ _ => fits_of_step)
  have hroom := hf.inv.room
  rw [← hf.inv.wellFormed.qsize] at hroom
  have hfew := hf.few
  exact ⟨hf.inv.wellFormed.size, hf.inv.wellFormed.region, by omega, hroom⟩

/-- Five puts, of which the last one doubles the calendar, and a get. -/
def doubled : List (Call ℕ) :=
  [.put 1 10, .put 2 20, .put 3 30, .put 4 40, .put 5 50, .get (some ⟨1, 10⟩)]

theorem calendar_fits_doubled : ∃ h q, Run.execute call [] (started blank) doubled = some (h, q) ∧
    ((∃ k, 1 ≤ k ∧ k ≤ 15 ∧ q.nbuckets = 2 ^ k) ∧
      (q.firstsub = 0 ∨ q.firstsub + q.nbuckets = calqSpace) ∧
      q.nbuckets < 2 * q.qsize + 6 ∧ (q.qsize ≤ 2 * q.nbuckets ∨ q.nbuckets = maxNBuckets)) := by
  obtain ⟨h, q, he, -⟩ := Run.exists_execute call (started blank) doubled
    (fun _ q => decide (q.nbuckets = 4)) (by decide +kernel)
  exact ⟨h, q, he, calendar_fits (init_eq blank) (run_of_calls _ he)⟩

/-! ## The cost of resizing -/

/-- The elements that the resize of a call moves from one calendar to the other, if there is one. -/
def moved (e : Entry (Calqueue α) (Call α)) : ℕ :=
  if e.post.nbuckets = e.pre.nbuckets then 0 else e.post.qsize

/-- How far the number of elements is from that of the buckets. -/
def drift (q : Calqueue α) : ℕ := 2 * ((q.qsize - q.nbuckets) + (q.nbuckets - q.qsize))

theorem moved_add_drift {a : Call α} (hf : Fits q) (hs : Step q a q') :
    moved ⟨q, a, q'⟩ + drift q' ≤ drift q + 3 := by
  unfold moved drift
  dsimp only
  cases a with
  | put p x =>
    obtain ⟨hi, hsize, hbuckets⟩ := put_size hf.inv hs.1 hs.2
    have hroom := hf.inv.room
    rw [← hf.inv.wellFormed.qsize] at hroom
    rw [hbuckets, hsize, bucketsAfterPut]
    split
    · next hgrow =>
      have htwo := hf.inv.wellFormed.two_le
      rw [if_neg (by omega)]
      omega
    · next hkeep =>
      rw [if_pos rfl]
      omega
  | get r =>
    by_cases hz : q.stored = 0
    · have heq : Except.ok (none, q) = Except.ok (r, q') :=
        (deq_empty hf.inv.wellFormed hz).symm.trans hs
      cases heq
      rw [if_pos rfl]
      omega
    · obtain ⟨hi, hsize, hbuckets⟩ := get_size hf.inv hz hs
      rw [hbuckets, bucketsAfterGet]
      split
      · next hshrink =>
        rw [if_neg (by omega)]
        omega
      · next hkeep =>
        rw [if_pos rfl]
        omega

/-- In every run of calls that do not fault the resizes move at most three elements a call, but for the
four of an empty calendar, however large the queue gets. -/
theorem resizes_amortized (hinit : init mem = .ok q₀) (hr : Run Step q₀ h q) :
    (h.map moved).sum ≤ 3 * h.length + 4 := by
  have hsum := hr.sum_cost_le (fits_init hinit) (fun _ _ _ => fits_of_step)
    (fun _ _ _ => moved_add_drift)
  rw [init_eq] at hinit
  cases hinit
  have hdrift : drift (started mem) = 4 := rfl
  omega

theorem resizes_amortized_doubled : ∃ h q,
    Run.execute call [] (started blank) doubled = some (h, q) ∧ (h.map moved).sum = 5 ∧
      (h.map moved).sum ≤ 3 * h.length + 4 := by
  obtain ⟨h, q, he, hc⟩ := Run.exists_execute call (started blank) doubled
    (fun h _ => decide ((h.map moved).sum = 5)) (by decide +kernel)
  exact ⟨h, q, he, of_decide_eq_true hc, resizes_amortized (init_eq blank) (run_of_calls _ he)⟩

end Fibers.Testbed.Calqueue
