import Fibers.Lib.Calendar
import Fibers.Lib.Partial
import Fibers.Testbed.Calqueue

/-!
# The calendar and one node

What is stored in a calendar queue is the multiset of the nodes in its buckets. Putting a node
into its bucket adds it to what is stored, and taking the head of a bucket removes it, with
the calendar well formed before and after.

## Main results

- `link_spec` — a node is put into its bucket
- `unlink_spec` — a node is found and taken out
-/

namespace Fibers.Testbed

open Calendar

/-- The faults that stem from the numbers of the queue: a quotient that does not fit its type, or
a width that is not positive. -/
def Fault.OfNumbers : Fault → Prop
  | .quotient => True
  | .width => True
  | _ => False

/-! ## Quotients and buckets -/

theorem quotientOf_spec {allowed : Fault → Prop} (hquot : allowed .quotient) {limit : ℤ} {x y : ℚ}
    (hx : 0 ≤ x) (hy : 0 < y) : Yields allowed (quotientOf limit x y) (fun z => z = day y x) := by
  have hpos : 0 ≤ x / y := by positivity
  unfold quotientOf
  rw [if_neg hy.ne', if_pos hpos]
  dsimp only
  split
  · exact .pure (Int.natCast_floor_eq_floor hpos).symm
  · exact .fault hquot

theorem bucketOf_natCast (n b : ℕ) : bucketOf n b = .ok (n % b) := by
  have h : (n : ℤ).tmod b = (n % b : ℕ) := by simp [Int.tmod_eq_emod_of_nonneg]
  unfold bucketOf
  rw [h, if_pos (by omega)]
  rfl

namespace Calqueue

variable {α : Type}

/-- The nodes in the buckets. -/
def stored (q : Calqueue α) : Multiset (CalqueueNode α) :=
  ∑ i ∈ Finset.range q.nbuckets, (q.bucket i : Multiset (CalqueueNode α))

/-- What holds of a calendar whenever the code is not in the middle of changing it. -/
structure WellFormed (q : Calqueue α) : Prop where
  size : ∃ k, 1 ≤ k ∧ k ≤ 15 ∧ q.nbuckets = 2 ^ k
  /-- the calendar is at one end of the array -/
  region : q.firstsub = 0 ∨ q.firstsub + q.nbuckets = calqSpace
  width : 0 < q.cwidth
  position : q.lastbucket < q.nbuckets
  started : 0 ≤ q.lastprio
  top : q.topThreshold = 2 * q.nbuckets
  bot : q.botThreshold = (q.nbuckets / 2 : ℕ) - 2
  qsize : q.qsize = Multiset.card q.stored
  sorted : ∀ i < q.nbuckets, (q.bucket i).Pairwise (fun x y => x.priority ≤ y.priority)
  placed : ∀ i < q.nbuckets, ∀ x ∈ q.bucket i,
    0 ≤ x.priority ∧ day q.cwidth x.priority % q.nbuckets = i

/-- The same calendar, but for the contents of its buckets and the position in it. -/
structure SameCalendar (q q' : Calqueue α) : Prop where
  firstsub : q'.firstsub = q.firstsub
  nbuckets : q'.nbuckets = q.nbuckets
  resizeEnabled : q'.resizeEnabled = q.resizeEnabled
  topThreshold : q'.topThreshold = q.topThreshold
  botThreshold : q'.botThreshold = q.botThreshold
  cwidth : q'.cwidth = q.cwidth
  outside : ∀ k, k < q.firstsub ∨ q.firstsub + q.nbuckets ≤ k → q'.calq k = q.calq k

/-- The same position in the calendar. -/
structure SamePosition (q q' : Calqueue α) : Prop where
  lastbucket : q'.lastbucket = q.lastbucket
  lastprio : q'.lastprio = q.lastprio
  buckettop : q'.buckettop = q.buckettop

variable {q q' q'' : Calqueue α} {x e : CalqueueNode α} {i : ℕ}

theorem SameCalendar.refl (q : Calqueue α) : SameCalendar q q :=
  ⟨rfl, rfl, rfl, rfl, rfl, rfl, fun _ _ => rfl⟩

theorem SameCalendar.trans (h : SameCalendar q q') (h' : SameCalendar q' q'') :
    SameCalendar q q'' where
  firstsub := h'.firstsub.trans h.firstsub
  nbuckets := h'.nbuckets.trans h.nbuckets
  resizeEnabled := h'.resizeEnabled.trans h.resizeEnabled
  topThreshold := h'.topThreshold.trans h.topThreshold
  botThreshold := h'.botThreshold.trans h.botThreshold
  cwidth := h'.cwidth.trans h.cwidth
  outside := by
    intro k hk
    refine (h'.outside k ?_).trans (h.outside k hk)
    rwa [h.firstsub, h.nbuckets]

theorem SamePosition.refl (q : Calqueue α) : SamePosition q q := ⟨rfl, rfl, rfl⟩

theorem SamePosition.trans (h : SamePosition q q') (h' : SamePosition q' q'') :
    SamePosition q q'' :=
  ⟨h'.lastbucket.trans h.lastbucket, h'.lastprio.trans h.lastprio, h'.buckettop.trans h.buckettop⟩

theorem mem_stored : x ∈ q.stored ↔ ∃ i < q.nbuckets, x ∈ q.bucket i := by
  simp [stored, Multiset.mem_sum]

theorem WellFormed.two_le (h : q.WellFormed) : 2 ≤ q.nbuckets := by
  obtain ⟨k, hk, _, hn⟩ := h.size
  rw [hn]
  exact Nat.le_self_pow (by omega) 2

theorem WellFormed.nbuckets_le (h : q.WellFormed) : q.nbuckets ≤ maxNBuckets := by
  obtain ⟨k, _, hk, hn⟩ := h.size
  rw [hn]
  exact Nat.pow_le_pow_right two_pos hk

theorem WellFormed.priority_nonneg (h : q.WellFormed) (hx : x ∈ q.stored) : 0 ≤ x.priority := by
  obtain ⟨i, hi, hx⟩ := mem_stored.mp hx
  exact (h.placed i hi x hx).1

/-! ## Writing one bucket -/

@[simp] theorem bucket_setBucket_self (l : List (CalqueueNode α)) :
    (q.setBucket i l).bucket i = l := by
  simp [bucket, setBucket]

theorem bucket_setBucket_of_ne {j : ℕ} (l : List (CalqueueNode α)) (h : j ≠ i) :
    (q.setBucket i l).bucket j = q.bucket j := by
  simp [bucket, setBucket, h]

/-- A bucket is written, the size is counted, and the position may change. -/
structure Writes (q : Calqueue α) (i : ℕ) (l : List (CalqueueNode α)) (n : ℕ) (q' : Calqueue α) :
    Prop where
  same : SameCalendar q q'
  self : q'.bucket i = l
  others : ∀ j, j ≠ i → q'.bucket j = q.bucket j
  qsize : q'.qsize = n

theorem Writes.stored {l : List (CalqueueNode α)} {n : ℕ} (h : Writes q i l n q')
    (hi : i < q.nbuckets) :
    q'.stored + (q.bucket i : Multiset (CalqueueNode α)) = q.stored + l := by
  have hsum := sum_update (f := fun j => (q.bucket j : Multiset (CalqueueNode α)))
    (g := fun j => (q'.bucket j : Multiset (CalqueueNode α))) hi (fun j hj => by rw [h.others j hj])
  rw [h.self] at hsum
  unfold Calqueue.stored
  rw [h.same.nbuckets]
  exact hsum

theorem Writes.wellFormed {l : List (CalqueueNode α)} {n : ℕ} (h : Writes q i l n q')
    (hq : q.WellFormed) (hpos : q'.lastbucket < q.nbuckets) (hstart : 0 ≤ q'.lastprio)
    (hsize : q'.qsize = Multiset.card q'.stored)
    (hsorted : l.Pairwise (fun x y => x.priority ≤ y.priority))
    (hplaced : ∀ x ∈ l, 0 ≤ x.priority ∧ day q.cwidth x.priority % q.nbuckets = i) :
    q'.WellFormed where
  size := by
    rw [h.same.nbuckets]
    exact hq.size
  region := by
    rw [h.same.firstsub, h.same.nbuckets]
    exact hq.region
  width := by
    rw [h.same.cwidth]
    exact hq.width
  position := by rwa [h.same.nbuckets]
  started := hstart
  top := by rw [h.same.topThreshold, h.same.nbuckets, hq.top]
  bot := by rw [h.same.botThreshold, h.same.nbuckets, hq.bot]
  qsize := hsize
  sorted := by
    intro j hj
    rw [h.same.nbuckets] at hj
    by_cases hji : j = i
    · rw [hji, h.self]
      exact hsorted
    · rw [h.others j hji]
      exact hq.sorted j hj
  placed := by
    intro j hj y hy
    rw [h.same.nbuckets] at hj
    rw [h.same.cwidth, h.same.nbuckets]
    by_cases hji : j = i
    · rw [hji, h.self] at hy
      rw [hji]
      exact hplaced y hy
    · rw [h.others j hji] at hy
      exact hq.placed j hj y hy

theorem insertNode_perm (x : CalqueueNode α) (l : List (CalqueueNode α)) :
    (insertNode x l).Perm (x :: l) := by
  induction l with
  | nil => exact .refl _
  | cons y l ih =>
    rw [insertNode]
    split
    · exact .refl _
    · exact (ih.cons y).trans (.swap x y l)

/-- A new node goes behind the nodes of its own priority. -/
theorem insertNode_sorted {l : List (CalqueueNode α)}
    (h : l.Pairwise (fun x y => x.priority ≤ y.priority)) :
    (insertNode x l).Pairwise (fun x y => x.priority ≤ y.priority) := by
  induction l with
  | nil => exact List.pairwise_singleton _ _
  | cons y l ih =>
    obtain ⟨hy, hl⟩ := List.pairwise_cons.mp h
    rw [insertNode]
    split
    · rename_i hlt
      refine List.pairwise_cons.mpr ⟨?_, h⟩
      intro z hz
      rcases List.mem_cons.mp hz with rfl | hz
      · exact hlt.le
      · exact hlt.le.trans (hy z hz)
    · rename_i hge
      refine List.pairwise_cons.mpr ⟨?_, ih hl⟩
      intro z hz
      rcases List.mem_cons.mp ((insertNode_perm x l).mem_iff.mp hz) with rfl | hz
      · exact not_lt.mp hge
      · exact hy z hz

theorem writes_setBucket (l : List (CalqueueNode α)) (hi : i < q.nbuckets) (n lastbucket : ℕ)
    (lastprio buckettop : ℚ) :
    Writes q i l n { q.setBucket i l with
      lastbucket := lastbucket
      lastprio := lastprio
      buckettop := buckettop
      qsize := n } where
  same := ⟨rfl, rfl, rfl, rfl, rfl, rfl, fun k hk => Function.update_of_ne (by omega) _ _⟩
  self := bucket_setBucket_self (q := q) l
  others := fun _ hj => bucket_setBucket_of_ne (q := q) l hj
  qsize := rfl

/-- The nodes `s` have been put into the calendar, which is otherwise the same. -/
structure Gains (q : Calqueue α) (s : Multiset (CalqueueNode α)) (q' : Calqueue α) : Prop where
  wellFormed : q'.WellFormed
  stored : q'.stored = s + q.stored
  same : SameCalendar q q'
  position : SamePosition q q'

theorem Gains.refl (h : q.WellFormed) : Gains q 0 q := ⟨h, (zero_add _).symm, .refl q, .refl q⟩

theorem Gains.trans {s t : Multiset (CalqueueNode α)} (h : Gains q s q') (h' : Gains q' t q'') :
    Gains q (s + t) q'' where
  wellFormed := h'.wellFormed
  stored := by rw [h'.stored, h.stored, ← add_assoc, add_comm s t]
  same := h.same.trans h'.same
  position := h.position.trans h'.position

theorem link_spec {allowed : Fault → Prop} (hquot : allowed .quotient) (h : q.WellFormed)
    (hx : 0 ≤ x.priority) : Yields allowed (q.link x) (Gains q {x}) := by
  unfold link
  refine (quotientOf_spec hquot hx h.width).bind ?_
  rintro z rfl
  rw [bucketOf_natCast]
  set i := day q.cwidth x.priority % q.nbuckets with hidef
  have hi : i < q.nbuckets := Nat.mod_lt _ (by have := h.two_le; omega)
  have hw := writes_setBucket (insertNode x (q.bucket i)) hi (q.qsize + 1) q.lastbucket q.lastprio
    q.buckettop
  have hstored := hw.stored hi
  rw [Multiset.coe_eq_coe.mpr (insertNode_perm x (q.bucket i)), ← Multiset.cons_coe,
    Multiset.add_cons, ← Multiset.cons_add, Multiset.add_left_inj, ← Multiset.singleton_add]
    at hstored
  refine Yields.pure ⟨hw.wellFormed h h.position h.started ?_ ?_ ?_, hstored, hw.same, ⟨rfl, rfl, rfl⟩⟩
  · rw [hw.qsize, hstored, Multiset.card_add, Multiset.card_singleton, h.qsize, add_comm]
  · exact insertNode_sorted (h.sorted i hi)
  · intro y hy
    rcases List.mem_cons.mp ((insertNode_perm x _).mem_iff.mp hy) with rfl | hy
    · exact ⟨hx, rfl⟩
    · exact h.placed i hi y hy

/-! ## Finding a bucket -/

theorem headBelow_iff {top : ℚ} :
    q.headBelow i top = true ↔ ∃ x l, q.bucket i = x :: l ∧ x.priority < top := by
  unfold headBelow
  cases q.bucket i with
  | nil => simp
  | cons x l => simp

theorem scan_found {k j : ℕ} {top top' : ℚ} (hi : i < q.nbuckets)
    (h : q.scan k i top = (some j, top')) : j < q.nbuckets ∧ q.headBelow j top' = true := by
  induction k generalizing i top with
  | zero => simp [scan] at h
  | succ k ih =>
    rw [scan] at h
    split at h
    · rename_i hhead
      obtain ⟨rfl, rfl⟩ : i = j ∧ top = top' := by simpa using h
      exact ⟨hi, hhead⟩
    · refine ih ?_ h
      split
      · omega
      · omega

/-- The direct search has found the lowest of the heads. -/
structure Lowest (q : Calqueue α) (n i : ℕ) (low : ℚ) : Prop where
  lt : i < n
  head : ∃ x l, q.bucket i = x :: l ∧ x.priority = low
  le : ∀ j < n, ∀ y l, q.bucket j = y :: l → low ≤ y.priority

theorem directSearch_none {n : ℕ} : q.directSearch n = none ↔ ∀ j < n, q.bucket j = [] := by
  induction n with
  | zero => simp [directSearch]
  | succ n ih =>
    rw [directSearch, Nat.forall_lt_succ_right]
    split
    · rename_i hnil
      rw [ih, and_iff_left hnil]
    · rename_i hcons
      split <;> simp_all
      split <;> simp

theorem directSearch_some {n : ℕ} {low : ℚ} (h : q.directSearch n = some (i, low)) :
    Lowest q n i low := by
  induction n generalizing i low with
  | zero => simp [directSearch] at h
  | succ n ih =>
    rw [directSearch] at h
    split at h
    · rename_i hnil
      obtain ⟨hlt, hhead, hle⟩ := ih h
      refine ⟨by omega, hhead, Nat.forall_lt_succ_right.mpr ⟨hle, ?_⟩⟩
      simp [hnil]
    · rename_i x l hcons
      split at h
      · rename_i hnone
        obtain ⟨rfl, rfl⟩ : n = i ∧ x.priority = low := by simpa using h
        refine ⟨by omega, ⟨x, l, hcons, rfl⟩, Nat.forall_lt_succ_right.mpr ⟨?_, ?_⟩⟩
        · intro j hj y m hy
          simp [directSearch_none.mp hnone j hj] at hy
        · intro y m hy
          simp_all
      · rename_i j low' hsome
        obtain ⟨hlt, hhead, hle⟩ := ih hsome
        split at h
        · rename_i hlower
          obtain ⟨rfl, rfl⟩ : n = i ∧ x.priority = low := by simpa using h
          refine ⟨by omega, ⟨x, l, hcons, rfl⟩, Nat.forall_lt_succ_right.mpr ⟨?_, ?_⟩⟩
          · intro k hk y m hy
            exact hlower.le.trans (hle k hk y m hy)
          · intro y m hy
            simp_all
        · rename_i hnot
          obtain ⟨rfl, rfl⟩ : j = i ∧ low' = low := by simpa using h
          refine ⟨by omega, hhead, Nat.forall_lt_succ_right.mpr ⟨hle, ?_⟩⟩
          intro y m hy
          simp_all

/-! ## Taking the head of a bucket -/

/-- The bucket that the code takes the head of, and `buckettop` after the scan. -/
structure Found (q : Calqueue α) (i : ℕ) (top : ℚ) (e : CalqueueNode α)
    (l : List (CalqueueNode α)) : Prop where
  lt : i < q.nbuckets
  bucket : q.bucket i = e :: l
  chosen : q.scan q.nbuckets q.lastbucket q.buckettop = (some i, top) ∨
    q.scan q.nbuckets q.lastbucket q.buckettop = (none, top) ∧ Lowest q q.nbuckets i e.priority

theorem exists_found (h : q.WellFormed) (hne : q.stored ≠ 0) :
    ∃ i top e l, Found q i top e l ∧ q.unlink = .ok (e, { q.setBucket i l with
      lastbucket := i
      lastprio := e.priority
      buckettop := top
      qsize := q.qsize - 1 }) := by
  obtain ⟨⟨f, top⟩, hscan⟩ : ∃ r, q.scan q.nbuckets q.lastbucket q.buckettop = r := ⟨_, rfl⟩
  cases f with
  | some i =>
    obtain ⟨hi, hhead⟩ := scan_found h.position hscan
    obtain ⟨e, l, hb, -⟩ := headBelow_iff.mp hhead
    refine ⟨i, top, e, l, ⟨hi, hb, .inl hscan⟩, ?_⟩
    simp [unlink, hscan, hb]
  | none =>
    cases hdirect : q.directSearch q.nbuckets with
    | none =>
      -- then every bucket is empty
      obtain ⟨x, hx⟩ := Multiset.exists_mem_of_ne_zero hne
      obtain ⟨i, hi, hx⟩ := mem_stored.mp hx
      simp [directSearch_none.mp hdirect i hi] at hx
    | some r =>
      obtain ⟨i, low⟩ := r
      have hlow := directSearch_some hdirect
      obtain ⟨e, l, hb, rfl⟩ := hlow.head
      refine ⟨i, top, e, l, ⟨hlow.lt, hb, .inr ⟨hscan, hlow⟩⟩, ?_⟩
      simp [unlink, hscan, hdirect, hb]

/-- The node has been taken out, and the position is at it. -/
structure Unlinked (q : Calqueue α) (e : CalqueueNode α) (q' : Calqueue α) : Prop where
  wellFormed : q'.WellFormed
  stored : q.stored = e ::ₘ q'.stored
  same : SameCalendar q q'
  lastprio : q'.lastprio = e.priority

theorem Found.unlinked {top : ℚ} {l : List (CalqueueNode α)} (hf : Found q i top e l)
    (h : q.WellFormed) :
    Unlinked q e { q.setBucket i l with
      lastbucket := i
      lastprio := e.priority
      buckettop := top
      qsize := q.qsize - 1 } := by
  have hw := writes_setBucket l hf.lt (q.qsize - 1) i e.priority top
  have hstored := hw.stored hf.lt
  rw [hf.bucket, ← Multiset.cons_coe, Multiset.add_cons, ← Multiset.cons_add,
    Multiset.add_left_inj] at hstored
  have hplaced := h.placed i hf.lt
  have hsorted := h.sorted i hf.lt
  rw [hf.bucket] at hplaced hsorted
  refine ⟨hw.wellFormed h hf.lt (hplaced e List.mem_cons_self).1 ?_ hsorted.of_cons ?_,
    hstored.symm, hw.same, rfl⟩
  · have hcard := congrArg Multiset.card hstored
    rw [Multiset.card_cons, ← h.qsize] at hcard
    show q.qsize - 1 = _
    omega
  · intro x hx
    exact hplaced x (List.mem_cons_of_mem e hx)

theorem unlink_spec (h : q.WellFormed) (hne : q.stored ≠ 0) :
    ∃ e q', q.unlink = .ok (e, q') ∧ Unlinked q e q' := by
  obtain ⟨i, top, e, l, hf, heq⟩ := exists_found h hne
  exact ⟨e, _, heq, hf.unlinked h⟩

end Calqueue

end Fibers.Testbed
