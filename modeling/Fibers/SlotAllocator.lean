import Fibers.Execution
import Fibers.Storage
import Mathlib

/-!
# The allocator of storage indices

The four FLS calls on a fiber as the operations of a set of live indices: an allocation takes
the least index that is not live, and the other calls succeed on live indices only. Both
directions of the bit map are one `change_bit`, so this rests on the checks in front of it. The calls
interleave with the pieces of the switches and with everything else that threads do.

## Main results

- `FlsCall.effect` — what a call does to the storage of the fiber that its thread is on
- `reflects_of_run` — the bit map and the data agree with the history of the calls
- `fls_allocator_refines` — every call is one of the set of live indices
- `fresh_slot_empty` — when a newly allocated slot reads 0
-/

namespace Fibers

/-! ## The calls -/

inductive FlsCall
  | alloc
  | free (idx : ℤ)
  | setValue (idx : ℤ) (v : Word)
  | getValue (idx : ℤ)
  deriving DecidableEq

/-- The index that a call is given. -/
def FlsCall.index : FlsCall → Option ℤ
  | .alloc => none
  | .free idx => some idx
  | .setValue idx _ => some idx
  | .getValue idx => some idx

def FlsCall.run (groups : Groups) (t : Task) : FlsCall → Groups × Ret
  | .alloc => doFlsAlloc groups t
  | .free idx => doFlsFree groups t idx
  | .setValue idx v => doFlsSetValue groups t idx v
  | .getValue idx => (groups, (doFlsGetValue groups t idx).map BitVec.toInt)

/-- A call on the set of live indices, with its result and the set that it leaves. -/
inductive LiveStep (live : Finset ℤ) : FlsCall → Ret → Finset ℤ → Prop
  | alloc {i : ℤ} (h : IsLeast {j | j ∈ Finset.Ico 0 (flsMaxSize : ℤ) ∧ j ∉ live} i) :
      LiveStep live .alloc (.ok i) (insert i live)
  | full (h : live = Finset.Ico 0 (flsMaxSize : ℤ)) : LiveStep live .alloc (.error .EINVAL) live
  | free {i : ℤ} (h : i ∈ live) : LiveStep live (.free i) (.ok 0) (live.erase i)
  | setValue {i : ℤ} {v : Word} (h : i ∈ live) : LiveStep live (.setValue i v) (.ok i) live
  | getValue {i v : ℤ} (h : i ∈ live) : LiveStep live (.getValue i) (.ok v) live
  | refused {c : FlsCall} {i : ℤ} {e : Errno} (hi : c.index = some i) (h : i ∉ live) :
      LiveStep live c (.error e) live

/-! ## What a call does to the storage of its fiber -/

/-- A call on the storage of a fiber, with its result and the storage that it leaves. -/
inductive FlsEffect (m : Fls) : FlsCall → Ret → Fls → Prop
  | alloc {i : Fin flsMaxSize} (hclear : m.bmp i = false) (hleast : ∀ j < i, m.bmp j = true) :
      FlsEffect m .alloc (.ok i.val) { m with bmp := Function.update m.bmp i true }
  | full (h : ∀ i, m.bmp i = true) : FlsEffect m .alloc (.error .EINVAL) m
  | free {i : Fin flsMaxSize} (hset : m.bmp i = true) :
      FlsEffect m (.free i.val) (.ok 0) { m with bmp := Function.update m.bmp i false }
  | setValue {i : Fin flsMaxSize} {v : Word} (hset : m.bmp i = true) :
      FlsEffect m (.setValue i.val v) (.ok i.val) { m with data := Function.update m.data i v }
  | getValue {i : Fin flsMaxSize} (hset : m.bmp i = true) :
      FlsEffect m (.getValue i.val) (.ok (m.data i).toInt) m
  | refused {c : FlsCall} {idx : ℤ} {e : Errno} (hi : c.index = some idx)
      (hclear : ∀ i : Fin flsMaxSize, idx = i.val → m.bmp i = false) : FlsEffect m c (.error e) m

/-- Every bit in front of the one that the search finds is set. -/
theorem bmp_of_lt_nextZeroBit {bmp : Fin flsMaxSize → Bool} {fuel i : ℕ} {j : Fin flsMaxSize}
    (hi : i ≤ j) (hj : j < nextZeroBit bmp fuel i) : bmp j = true := by
  induction fuel generalizing i with
  | zero =>
    have hn : nextZeroBit bmp 0 i = i := rfl
    omega
  | succ fuel ih =>
    have hlt : i < flsMaxSize := lt_of_le_of_lt hi j.isLt
    cases hb : bmp ⟨i, hlt⟩ with
    | false =>
      have hn : nextZeroBit bmp (fuel + 1) i = i := by simp [nextZeroBit, hlt, hb]
      omega
    | true =>
      have hn : nextZeroBit bmp (fuel + 1) i = nextZeroBit bmp fuel (i + 1) := by
        simp [nextZeroBit, hlt, hb]
      rw [hn] at hj
      obtain heq | hne := Nat.eq_or_lt_of_le hi
      · obtain rfl : j = ⟨i, hlt⟩ := Fin.ext heq.symm
        exact hb
      · exact ih hne hj

theorem bmp_of_lt_findFirstZeroBit {bmp : Fin flsMaxSize → Bool} {j : Fin flsMaxSize}
    (hj : j < findFirstZeroBit bmp) : bmp j = true := bmp_of_lt_nextZeroBit (Nat.zero_le _) hj

/-- A write that a call makes to its fiber: the lock and the statistics stay as they are. -/
structure StorageWrite (g : Fiber → Fiber) : Prop where
  fid : ∀ f, (g f).fid = f.fid
  flock : ∀ f, (g f).flock = f.flock
  info : ∀ f, (g f).info = f.info

theorem storeGroup_onFiber_id {groups : Groups} {tgid fid : ℤ} {tg : ThreadGroup}
    (hg : getGroup tgid groups = some tg) :
    storeGroup groups (tg.onFiber fid (fun f => f) (fun _ => rfl)) = groups := by
  have hsame : tg.onFiber fid (fun f => f) (fun _ => rfl) = tg := by
    rw [ThreadGroup.onFiber, HashTable.modify_of_same (fun _ _ => rfl)]
  rw [hsame, storeGroup_self hg]

section Calls

variable {groups : Groups} {t : Task} {tg : ThreadGroup} {f : Fiber}

/-- A call that fails changes nothing. -/
theorem FlsCall.run_error {c : FlsCall} {e : Errno} (h : (c.run groups t).2 = .error e) :
    (c.run groups t).1 = groups := by
  cases c with
  | alloc =>
    cases hc : currentFiber groups t with
    | none => simp only [FlsCall.run, doFlsAlloc, hc]
    | some x =>
      simp only [FlsCall.run, doFlsAlloc, hc] at h ⊢
      split at h
      · cases h
      · next hfull => rw [dif_neg hfull]
  | free idx =>
    simp only [FlsCall.run, doFlsFree] at h ⊢
    split at h
    · rfl
    · split at h
      · rfl
      · split at h
        · cases h
        · next hb => rw [if_neg hb]
  | setValue idx v =>
    simp only [FlsCall.run, doFlsSetValue] at h ⊢
    split at h
    · rfl
    · split at h
      · rfl
      · split at h
        · cases h
        · next hb => rw [if_neg hb]
  | getValue idx => rfl

/-- A thread that is on no fiber is refused. -/
theorem FlsCall.run_of_none (hc : currentFiber groups t = none) (c : FlsCall) :
    ∃ e, c.run groups t = (groups, .error e) := by
  cases c with
  | alloc => exact ⟨.ESRCH, by simp [FlsCall.run, doFlsAlloc, hc]⟩
  | free idx =>
    cases hi : flsIndex idx with
    | none => exact ⟨.EINVAL, by simp [FlsCall.run, doFlsFree, hi]⟩
    | some i => exact ⟨.ESRCH, by simp [FlsCall.run, doFlsFree, hi, hc]⟩
  | setValue idx v =>
    cases hi : flsIndex idx with
    | none => exact ⟨.EINVAL, by simp [FlsCall.run, doFlsSetValue, hi]⟩
    | some i => exact ⟨.ESRCH, by simp [FlsCall.run, doFlsSetValue, hi, hc]⟩
  | getValue idx =>
    cases hi : flsIndex idx with
    | none => exact ⟨.ESRCH, by simp [FlsCall.run, doFlsGetValue, hi, Except.map]⟩
    | some i => exact ⟨.ESRCH, by simp [FlsCall.run, doFlsGetValue, hi, hc, Except.map]⟩

/-- A call that leaves the storage as it is. -/
theorem exists_write_same (hc : currentFiber groups t = some (tg, f)) {c : FlsCall} {r : Ret}
    (he : FlsEffect f.fls c r f.fls) :
    ∃ g, ∃ hg : StorageWrite g, groups = storeGroup groups (tg.onFiber f.fid g hg.fid) ∧
      FlsEffect f.fls c r (g f).fls :=
  ⟨_, ⟨fun _ => rfl, fun _ => rfl, fun _ => rfl⟩,
    (storeGroup_onFiber_id (group_of_currentFiber hc)).symm, he⟩

theorem storageWrite_changeBit (i : Fin flsMaxSize) : StorageWrite (Fiber.changeBit i) :=
  ⟨fun _ => rfl, fun _ => rfl, fun _ => rfl⟩

theorem storageWrite_setData (i : Fin flsMaxSize) (v : Word) : StorageWrite (Fiber.setData i v) :=
  ⟨fun _ => rfl, fun _ => rfl, fun _ => rfl⟩

/-- An index outside of the arrays is refused. -/
theorem refused_of_range {m : Fls} {c : FlsCall} {idx : ℤ} (e : Errno) (hc : c.index = some idx)
    (hi : flsIndex idx = none) : FlsEffect m c (.error e) m := by
  refine .refused hc ?_
  rintro i rfl
  rw [flsIndex_val] at hi
  cases hi

/-- An index whose bit is clear is refused. -/
theorem refused_of_clear {m : Fls} {c : FlsCall} {idx : ℤ} {i : Fin flsMaxSize} (e : Errno)
    (hc : c.index = some idx) (hi : flsIndex idx = some i) (hb : m.bmp i = false) :
    FlsEffect m c (.error e) m := by
  refine .refused hc ?_
  rintro j rfl
  rw [flsIndex_val] at hi
  cases hi
  exact hb

theorem doFlsAlloc_of_lt (hc : currentFiber groups t = some (tg, f))
    (h : findFirstZeroBit f.fls.bmp < flsMaxSize) :
    doFlsAlloc groups t =
      (storeGroup groups (tg.onFiber f.fid (Fiber.changeBit ⟨findFirstZeroBit f.fls.bmp, h⟩)),
        .ok (findFirstZeroBit f.fls.bmp)) := by
  unfold doFlsAlloc
  rw [hc]
  exact dif_pos h

theorem doFlsAlloc_of_full (hc : currentFiber groups t = some (tg, f))
    (h : ¬ findFirstZeroBit f.fls.bmp < flsMaxSize) :
    doFlsAlloc groups t = (groups, .error .EINVAL) := by
  unfold doFlsAlloc
  rw [hc]
  exact dif_neg h

/-- What a call by a thread on a fiber does: the write to its fiber, and the effect of the write on
the storage there. -/
theorem FlsCall.effect (hc : currentFiber groups t = some (tg, f)) (c : FlsCall) :
    ∃ g, ∃ hg : StorageWrite g,
      (c.run groups t).1 = storeGroup groups (tg.onFiber f.fid g hg.fid) ∧
        FlsEffect f.fls c (c.run groups t).2 (g f).fls := by
  cases c with
  | alloc =>
    show ∃ g, ∃ hg : StorageWrite g,
      (doFlsAlloc groups t).1 = storeGroup groups (tg.onFiber f.fid g hg.fid) ∧
        FlsEffect f.fls .alloc (doFlsAlloc groups t).2 (g f).fls
    by_cases hlt : findFirstZeroBit f.fls.bmp < flsMaxSize
    · have hb := bmp_findFirstZeroBit hlt
      have he : FlsEffect f.fls .alloc _ _ := .alloc hb fun j hj => bmp_of_lt_findFirstZeroBit hj
      rw [doFlsAlloc_of_lt hc hlt]
      exact ⟨_, storageWrite_changeBit _, rfl, by simpa only [hb, Bool.not_false] using he⟩
    · rw [doFlsAlloc_of_full hc hlt]
      refine exists_write_same hc (.full fun i => bmp_of_lt_findFirstZeroBit ?_)
      exact i.isLt.trans_le (not_lt.mp hlt)
  | free idx =>
    show ∃ g, ∃ hg : StorageWrite g,
      (doFlsFree groups t idx).1 = storeGroup groups (tg.onFiber f.fid g hg.fid) ∧
        FlsEffect f.fls (.free idx) (doFlsFree groups t idx).2 (g f).fls
    unfold doFlsFree
    cases hi : flsIndex idx with
    | none => exact exists_write_same hc (refused_of_range _ rfl hi)
    | some i =>
      simp only [hc]
      split
      · next hb =>
        obtain rfl := flsIndex_eq_some_iff.mp hi
        have he : FlsEffect f.fls (.free i.val) _ _ := .free hb
        exact ⟨_, storageWrite_changeBit i, rfl, by simpa only [hb, Bool.not_true] using he⟩
      · next hb => exact exists_write_same hc (refused_of_clear _ rfl hi (by simpa using hb))
  | setValue idx v =>
    show ∃ g, ∃ hg : StorageWrite g,
      (doFlsSetValue groups t idx v).1 = storeGroup groups (tg.onFiber f.fid g hg.fid) ∧
        FlsEffect f.fls (.setValue idx v) (doFlsSetValue groups t idx v).2 (g f).fls
    unfold doFlsSetValue
    cases hi : flsIndex idx with
    | none => exact exists_write_same hc (refused_of_range _ rfl hi)
    | some i =>
      simp only [hc]
      split
      · next hb =>
        obtain rfl := flsIndex_eq_some_iff.mp hi
        exact ⟨_, storageWrite_setData i v, rfl, .setValue hb⟩
      · next hb => exact exists_write_same hc (refused_of_clear _ rfl hi (by simpa using hb))
  | getValue idx =>
    show ∃ g, ∃ hg : StorageWrite g,
      groups = storeGroup groups (tg.onFiber f.fid g hg.fid) ∧
        FlsEffect f.fls (.getValue idx) ((doFlsGetValue groups t idx).map BitVec.toInt) (g f).fls
    unfold doFlsGetValue
    cases hi : flsIndex idx with
    | none => exact exists_write_same hc (refused_of_range _ rfl hi)
    | some i =>
      simp only [hc]
      split
      · next hb =>
        obtain rfl := flsIndex_eq_some_iff.mp hi
        exact exists_write_same hc (.getValue hb)
      · next hb => exact exists_write_same hc (refused_of_clear _ rfl hi (by simpa using hb))

end Calls

/-! ## The system -/

/-- What happens: a step of the switches, converts, creates and cleanups, or an FLS call, with what
it returns. -/
inductive FlsAction
  | other (a : Action)
  | call (t : Task) (c : FlsCall) (r : Ret)

/-- An FLS call runs from user code. Any other step may come between two calls. -/
inductive FlsStep (s : Cfg) : FlsAction → Cfg → Prop
  | other {a : Action} {s' : Cfg} (h : Step (fun _ => True) s a s') : FlsStep s (.other a) s'
  | call {t : Task} {c : FlsCall} (hu : s.frame t = .user) :
      FlsStep s (.call t c (c.run s.groups t).2)
        (s.returned t (c.run s.groups t).1 (c.run s.groups t).2)

abbrev FlsHistory := List (Entry Cfg FlsAction)

/-- The calls on one fiber so far: the indices allocated and not yet freed, those of them not set
since their allocation, and the value that was set last under each index. -/
structure FlsLog where
  live : Finset ℤ
  fresh : Finset ℤ
  stored : ℤ → Word

namespace FlsLog

def empty : FlsLog := ⟨∅, ∅, fun _ => 0⟩

/-- What a call and its result add. -/
def after (l : FlsLog) : FlsCall → Ret → FlsLog
  | .alloc, .ok i => { l with live := insert i l.live, fresh := insert i l.fresh }
  | .free i, .ok _ => { l with live := l.live.erase i, fresh := l.fresh.erase i }
  | .setValue i v, .ok _ =>
    { l with fresh := l.fresh.erase i, stored := Function.update l.stored i v }
  | _, _ => l

end FlsLog

/-- The calls on the fiber `fid` of the process. A cleanup ends its fibers. -/
def flsLog (tgid fid : ℤ) : FlsHistory → FlsLog
  | [] => .empty
  | e :: past =>
    match e.act with
    | .call t c r =>
      if t.tgid = tgid ∧ e.pre.currentFid t = some fid then (flsLog tgid fid past).after c r
      else flsLog tgid fid past
    | .other (.cleanup k) => if k = tgid then .empty else flsLog tgid fid past
    | .other _ => flsLog tgid fid past

/-! ## The storage of a group -/

/-- The storage of a fiber; a fiber that is not in the table has an empty one. -/
def ThreadGroup.slots (tg : ThreadGroup) (fid : ℤ) : Fls :=
  (getFiber fid tg).elim prepareFls Fiber.fls

def GroupView.slots (v : GroupView) (fid : ℤ) : Fls :=
  v.tg.elim prepareFls fun tg => tg.slots fid

section Slots

variable {tg : ThreadGroup} {fid : ℤ} {g : Fiber → Fiber} {hg : ∀ f, (g f).fid = f.fid}

theorem slots_onFiber {f : Fiber} (hf : getFiber fid tg = some f) :
    (tg.onFiber fid g hg).slots = Function.update tg.slots fid (g f).fls :=
  seen_onFiber (fun o => o.elim prepareFls Fiber.fls) hf

@[simp] theorem slots_onThread {pid : ℤ} {g : Thread → Thread} {hg : ∀ t, (g t).pid = t.pid} :
    (tg.onThread pid g hg).slots = tg.slots := rfl

/-- A new fiber has an empty storage, like a fiber that does not exist. -/
theorem slots_converted {pid : ℤ} {cpu : Cpu} (hn : getFiber (nextFid tg) tg = none) :
    (converted tg pid cpu).slots = tg.slots :=
  seen_converted_of_same (fun o => o.elim prepareFls Fiber.fls) hn rfl

theorem slots_created {t : Thread} {cpu : Cpu} {a : FibArgs}
    (hn : getFiber (nextFid tg) tg = none) : (created tg t cpu a).slots = tg.slots :=
  seen_created_of_same (fun o => o.elim prepareFls Fiber.fls) hn rfl

/-- No piece touches the storage. -/
theorem piece_slots {pid : ℤ} {cpu : Cpu} {fr : Frame} {p : Piece}
    (hp : piece tg pid cpu fr = some p) (hn : getFiber (nextFid tg) tg = none) :
    p.tg.slots = tg.slots :=
  piece_seen (fun o => o.elim prepareFls Fiber.fls) hp hn (fun _ => rfl) fun _ => by
    cases fr <;> rfl

end Slots

theorem GroupView.Offers.slots {v : GroupView} {tgid : ℤ} {tg : ThreadGroup}
    (ho : v.Offers tgid tg) : tg.slots = v.slots := by
  have hfield : tg.field prepareFls Fiber.fls = v.field prepareFls Fiber.fls := ho.field
  exact hfield

/-- A step leaves the storage of a group alone, unless it is the cleanup of the group. -/
theorem ViewStep.slots {tgid : ℤ} {v v' : GroupView} {a : Action} {r : Option Ret}
    (hs : ViewStep tgid v a r v') (h : ViewInv v)
    (few : ∀ tg, v'.tg = some tg → tg.fibers.size < 2 ^ 31) :
    v'.slots = if a = .cleanup tgid then fun _ => prepareFls else v.slots := by
  cases hs with
  | elsewhere ha =>
    rw [if_neg]
    rintro rfl
    exact ha rfl
  | user _ | call _ | noGroup _ _ | createUnknown _ => rw [if_neg (by simp)]; rfl
  | plock _ ho | convertAgain _ ho _ =>
    rw [if_neg (by simp), ← ho.slots]
    rfl
  | piece hg hp =>
    have hn := (h.grouped _ hg).numbered
    have few₀ := lt_of_le_of_lt (piece_effect hp).size_le (few _ rfl)
    rw [if_neg (by simp)]
    show _ = fun fid => GroupView.slots v fid
    simp only [GroupView.slots, hg]
    exact piece_slots hp (hn.getFiber_nextFid few₀)
  | convert _ ho ht =>
    have hn := (h.of_offers ho).numbered
    have few₀ := lt_of_le_of_lt (converted_effects ht _).size_le (few _ rfl)
    rw [if_neg (by simp), ← ho.slots]
    exact slots_converted (hn.getFiber_nextFid few₀)
  | @create pid k a tg th _ hg _ =>
    have hn := (h.grouped _ hg).numbered
    have few₀ := lt_of_le_of_lt (created_effects tg pid th _ a).size_le (few _ rfl)
    rw [if_neg (by simp)]
    show _ = fun fid => GroupView.slots v fid
    simp only [GroupView.slots, hg]
    exact slots_created (hn.getFiber_nextFid few₀)
  | cleanup _ => rw [if_pos rfl]; rfl

/-! ## The history and the storage -/

/-- The storage of a fiber holds what the calls on it have left. -/
structure Reflects (l : FlsLog) (m : Fls) : Prop where
  range : l.live ⊆ Finset.Ico 0 (flsMaxSize : ℤ)
  live : ∀ i : Fin flsMaxSize, (i.val : ℤ) ∈ l.live ↔ m.bmp i = true
  fresh : l.fresh ⊆ l.live
  stored : ∀ i : Fin flsMaxSize, m.data i = l.stored i.val

theorem Reflects.empty : Reflects .empty prepareFls where
  range := by simp [FlsLog.empty]
  live := by simp [FlsLog.empty, prepareFls]
  fresh := subset_rfl
  stored := fun _ => rfl

theorem mem_indices {i : ℤ} :
    i ∈ Finset.Ico 0 (flsMaxSize : ℤ) ↔ ∃ j : Fin flsMaxSize, (j.val : ℤ) = i := by
  rw [Finset.mem_Ico]
  constructor
  · rintro ⟨h₀, h₁⟩
    exact ⟨⟨i.toNat, by omega⟩, Int.toNat_of_nonneg h₀⟩
  · rintro ⟨j, rfl⟩
    have hj := j.isLt
    omega

/-- A position of the arrays as an index. -/
theorem val_eq_iff {i j : Fin flsMaxSize} : (i.val : ℤ) = j.val ↔ i = j := by
  rw [Int.ofNat_inj, Fin.ext_iff]

namespace Reflects

variable {l : FlsLog} {m m' : Fls} {c : FlsCall} {r : Ret}

/-- A call keeps the agreement. -/
theorem effect (h : Reflects l m) (he : FlsEffect m c r m') : Reflects (l.after c r) m' := by
  cases he with
  | @alloc i hclear hleast =>
    constructor
    · exact Finset.insert_subset (mem_indices.mpr ⟨i, rfl⟩) h.range
    · intro j
      by_cases hj : j = i
      · subst hj
        simp [FlsLog.after]
      · have hne : (j.val : ℤ) ≠ i.val := fun he => hj (val_eq_iff.mp he)
        simp [FlsLog.after, hj, ← h.live, hne]
    · exact Finset.insert_subset_insert _ h.fresh
    · exact h.stored
  | @free i hset =>
    constructor
    · exact (Finset.erase_subset _ _).trans h.range
    · intro j
      by_cases hj : j = i
      · subst hj
        simp [FlsLog.after]
      · have hne : (j.val : ℤ) ≠ i.val := fun he => hj (val_eq_iff.mp he)
        simp [FlsLog.after, hj, ← h.live, hne]
    · exact Finset.erase_subset_erase _ h.fresh
    · exact h.stored
  | @setValue i v hset =>
    constructor
    · exact h.range
    · exact h.live
    · exact (Finset.erase_subset _ _).trans h.fresh
    · intro j
      by_cases hj : j = i
      · subst hj
        simp [FlsLog.after]
      · have hne : (j.val : ℤ) ≠ i.val := fun he => hj (val_eq_iff.mp he)
        simp [FlsLog.after, hj, hne, h.stored]
  | full _ => exact h
  | getValue _ => exact h
  | refused _ _ => cases c <;> exact h

/-- The least clear bit is the least index that is not live. -/
theorem isLeast (h : Reflects l m) {i : Fin flsMaxSize} (hclear : m.bmp i = false)
    (hleast : ∀ j < i, m.bmp j = true) :
    IsLeast {j | j ∈ Finset.Ico 0 (flsMaxSize : ℤ) ∧ j ∉ l.live} i.val := by
  constructor
  · refine ⟨mem_indices.mpr ⟨i, rfl⟩, ?_⟩
    rw [h.live, hclear]
    decide
  · rintro _ ⟨hj, hdead⟩
    obtain ⟨j, rfl⟩ := mem_indices.mp hj
    by_contra hlt
    apply hdead
    rw [h.live]
    apply hleast
    rw [Fin.lt_def]
    omega

/-- What a call does to the storage is what it does to the set of live indices. -/
theorem liveStep (h : Reflects l m) (he : FlsEffect m c r m') :
    LiveStep l.live c r (l.after c r).live := by
  cases he with
  | alloc hclear hleast => exact .alloc (h.isLeast hclear hleast)
  | full hset =>
    refine .full (subset_antisymm h.range ?_)
    intro j hj
    obtain ⟨j, rfl⟩ := mem_indices.mp hj
    exact (h.live j).mpr (hset j)
  | @free i hset => exact .free ((h.live i).mpr hset)
  | @setValue i v hset => exact .setValue ((h.live i).mpr hset)
  | @getValue i hset => exact .getValue ((h.live i).mpr hset)
  | @refused _ idx e hi hclear =>
    have hstep : LiveStep l.live c (.error e) l.live := by
      refine .refused hi fun hlive => ?_
      obtain ⟨j, rfl⟩ := mem_indices.mp (h.range hlive)
      have hset := (h.live j).mp hlive
      rw [hclear j rfl] at hset
      cases hset
    cases c <;> exact hstep

end Reflects

/-! ## The registry under the calls -/

theorem GroupInv.onFiber {tg : ThreadGroup} {frame : ℤ → Frame} (h : GroupInv tg frame) {fid : ℤ}
    {g : Fiber → Fiber} (hg : StorageWrite g) : GroupInv (tg.onFiber fid g hg.fid) frame where
  numbered := h.numbered.onFiber fid g hg.fid
  frames := by
    intro pid
    have he : GroupEffect tg pid (tg.onFiber fid g hg.fid) := .writeFiber fid g hg.fid
    exact (h.frames pid).mono (fun _ => he.getFiber_isSome) rfl
  locks := by
    have hv : lockView (tg.onFiber fid g hg.fid) frame = lockView tg frame :=
      Handover.State.ext (locked_onFiber_of_same hg.flock)
        (state_onFiber_of_same fun f => by rw [hg.info]) rfl rfl
    rw [hv]
    exact h.locks

section Lookups

variable {s : Cfg} {t : Task} {tg : ThreadGroup} {f : Fiber} {fid : ℤ}

/-- The fiber that a thread is on, as its calls find it. -/
theorem Inv.exists_currentFiber (hi : Inv s) (hc : s.currentFid t = some fid) :
    ∃ tg f, currentFiber s.groups t = some (tg, f) ∧ f.fid = fid := by
  obtain ⟨tg, hg, hcur⟩ := Option.bind_eq_some_iff.mp hc
  have hfiber := ((hi.views t.tgid).grouped tg hg).hasFiber_of_current hcur
  obtain ⟨f, hf⟩ := Option.isSome_iff_exists.mp hfiber
  obtain ⟨th, ht, he⟩ := Option.bind_eq_some_iff.mp hcur
  refine ⟨tg, f, currentFiber_eq_some_iff.mpr ⟨hg, th, ht, ?_⟩, fid_of_getFiber hf⟩
  split at he
  · cases he
  · cases he
    exact hf

theorem Inv.currentFid_eq (hi : Inv s) (hc : currentFiber s.groups t = some (tg, f)) :
    s.currentFid t = some f.fid ∧ getFiber f.fid tg = some f := by
  obtain ⟨hg, th, ht, hf⟩ := currentFiber_eq_some_iff.mp hc
  have hfid := fid_of_getFiber hf
  have hhas : tg.HasFiber f.fid := by simp [ThreadGroup.HasFiber, hfid, hf]
  have hne := ((hi.views t.tgid).grouped tg hg).fid_ne_noFibers hhas
  rw [hfid] at hne ⊢
  refine ⟨?_, hf⟩
  rw [Cfg.currentFid, hg, Option.bind_some, ThreadGroup.current, ht, Option.bind_some, if_neg hne]

end Lookups

/-- The storage of the fiber that the thread is on, after a call. -/
theorem slots_call {s : Cfg} {t : Task} {tg : ThreadGroup} {f : Fiber} {g : Fiber → Fiber}
    (hg : StorageWrite g) (hgroup : getGroup t.tgid s.groups = some tg)
    (hf : getFiber f.fid tg = some f) (r : Ret) (tgid : ℤ) :
    ((s.returned t (storeGroup s.groups (tg.onFiber f.fid g hg.fid)) r).view tgid).slots =
      if tgid = t.tgid then Function.update ((s.view tgid).slots) f.fid (g f).fls
      else (s.view tgid).slots := by
  have htg : (tg.onFiber f.fid g hg.fid).tgid = t.tgid :=
    (tgid_onFiber tg f.fid g hg.fid).trans (tgid_of_getGroup hgroup)
  by_cases hne : tgid = t.tgid
  · subst hne
    have hpost : getGroup t.tgid (storeGroup s.groups (tg.onFiber f.fid g hg.fid)) =
        some (tg.onFiber f.fid g hg.fid) := getGroup_storeGroup_self _ htg hgroup
    funext k
    simp only [GroupView.slots, Cfg.view, Cfg.returned, hpost, hgroup, Option.elim_some, if_true,
      slots_onFiber hf]
    rfl
  · have hpost : getGroup tgid (storeGroup s.groups (tg.onFiber f.fid g hg.fid)) =
        getGroup tgid s.groups := by
      rw [getGroup_storeGroup, htg, if_neg hne]
    rw [if_neg hne]
    funext k
    simp only [GroupView.slots, Cfg.view, Cfg.returned, hpost]

theorem Inv.call {s : Cfg} (hi : Inv s) {t : Task} {tg : ThreadGroup} {fid : ℤ} {g : Fiber → Fiber}
    (hg : StorageWrite g) (hgroup : getGroup t.tgid s.groups = some tg) (r : Ret) :
    Inv (s.returned t (storeGroup s.groups (tg.onFiber fid g hg.fid)) r) where
  unique := unique_storeGroup hi.unique _
  views := by
    intro tgid
    have htg : (tg.onFiber fid g hg.fid).tgid = t.tgid :=
      (tgid_onFiber tg fid g hg.fid).trans (tgid_of_getGroup hgroup)
    by_cases hne : tgid = t.tgid
    · subst hne
      have hpost : getGroup t.tgid (storeGroup s.groups (tg.onFiber fid g hg.fid)) =
          some (tg.onFiber fid g hg.fid) := getGroup_storeGroup_self _ htg hgroup
      have hv : ViewInv ⟨some (tg.onFiber fid g hg.fid), (s.view t.tgid).frame, fun pid =>
          (s.returned t (storeGroup s.groups (tg.onFiber fid g hg.fid)) r).cpu ⟨t.tgid, pid⟩⟩ :=
        .of_group (((hi.views t.tgid).grouped tg hgroup).onFiber hg)
      rw [← hpost] at hv
      exact hv
    · have hpost : getGroup tgid (storeGroup s.groups (tg.onFiber fid g hg.fid)) =
          getGroup tgid s.groups := by
        rw [getGroup_storeGroup, htg, if_neg hne]
      have hv := hi.views tgid
      exact ⟨fun tg hg => hv.grouped tg (hpost.symm.trans hg), fun hn => hv.groupless
        (hpost.symm.trans hn)⟩

/-! ## Runs -/

/-- The invariant of a run: of the registry, and between the calls so far and the storages. -/
structure FlsInv (h : FlsHistory) (s : Cfg) : Prop where
  inv : Inv s
  reflects : ∀ tgid fid, Reflects (flsLog tgid fid h) ((s.view tgid).slots fid)

/-- A call meets the set of live indices, and if it fails, it changes nothing. -/
def RefinesLive (past : FlsHistory) (e : Entry Cfg FlsAction) : Prop :=
  ∀ t c r, e.act = .call t c r →
    (∀ fid, e.pre.currentFid t = some fid →
      LiveStep (flsLog t.tgid fid past).live c r (flsLog t.tgid fid (e :: past)).live) ∧
    ∀ err, r = .error err → e.post.groups = e.pre.groups

theorem flsLog_other (tgid fid : ℤ) (h : FlsHistory) (s s' : Cfg) (a : Action) :
    flsLog tgid fid (⟨s, .other a, s'⟩ :: h) =
      if a = .cleanup tgid then .empty else flsLog tgid fid h := by
  cases a <;> simp [flsLog]

theorem flsLog_call (tgid fid : ℤ) (h : FlsHistory) (s s' : Cfg) (t : Task) (c : FlsCall) (r : Ret) :
    flsLog tgid fid (⟨s, .call t c r, s'⟩ :: h) =
      if t.tgid = tgid ∧ s.currentFid t = some fid then (flsLog tgid fid h).after c r
      else flsLog tgid fid h := rfl

namespace FlsInv

variable {h : FlsHistory} {s s' : Cfg} {a : FlsAction}

theorem initial (hash : ℤ → Bucket) (cpu : Task → Cpu) : FlsInv [] (Cfg.initial hash cpu) where
  inv := .initial hash cpu
  reflects := fun _ _ => .empty

theorem other {a : Action} (hi : FlsInv h s) (hs : Step (fun _ => True) s a s') :
    FlsInv (⟨s, .other a, s'⟩ :: h) s' where
  inv := hs.inv hi.inv
  reflects := by
    intro tgid fid
    obtain ⟨r, hv⟩ := hs.view hi.inv tgid
    rw [hv.slots (hi.inv.views tgid) (hs.few tgid), flsLog_other]
    split
    · exact .empty
    · exact hi.reflects tgid fid

/-- The storage of the fiber that a thread is on. -/
theorem reflects_current (hi : FlsInv h s) {t : Task} {tg : ThreadGroup} {f : Fiber}
    (hc : currentFiber s.groups t = some (tg, f)) :
    Reflects (flsLog t.tgid f.fid h) f.fls := by
  have hr := hi.reflects t.tgid f.fid
  simpa [GroupView.slots, Cfg.view, group_of_currentFiber hc, ThreadGroup.slots,
    (hi.inv.currentFid_eq hc).2] using hr

theorem call (hi : FlsInv h s) (t : Task) (c : FlsCall) :
    FlsInv (⟨s, .call t c (c.run s.groups t).2,
        s.returned t (c.run s.groups t).1 (c.run s.groups t).2⟩ :: h)
      (s.returned t (c.run s.groups t).1 (c.run s.groups t).2) := by
  cases hc : currentFiber s.groups t with
  | none =>
    -- the thread is on no fiber: neither the storages nor the history of any fiber change
    obtain ⟨e, hrun⟩ := c.run_of_none hc
    have hcur : s.currentFid t = none := by
      by_contra hne
      obtain ⟨fid, hfid⟩ := Option.ne_none_iff_exists'.mp hne
      obtain ⟨tg, f, hf, _⟩ := hi.inv.exists_currentFiber hfid
      rw [hc] at hf
      cases hf
    rw [hrun]
    refine ⟨⟨hi.inv.unique, fun tgid => ⟨(hi.inv.views tgid).grouped,
      (hi.inv.views tgid).groupless⟩⟩, ?_⟩
    intro tgid fid
    rw [flsLog_call, hcur, if_neg (by simp)]
    exact hi.reflects tgid fid
  | some x =>
    obtain ⟨tg, f⟩ := x
    obtain ⟨g, hg, hgroups, heffect⟩ := c.effect hc
    obtain ⟨hcur, hf⟩ := hi.inv.currentFid_eq hc
    have hgroup := group_of_currentFiber hc
    rw [hgroups]
    refine ⟨hi.inv.call hg hgroup _, ?_⟩
    intro tgid fid
    rw [slots_call hg hgroup hf, flsLog_call, hcur]
    by_cases hne : tgid = t.tgid
    · subst hne
      by_cases hfid : fid = f.fid
      · subst hfid
        rw [if_pos rfl, if_pos ⟨rfl, rfl⟩, Function.update_self]
        exact (hi.reflects_current hc).effect heffect
      · rw [if_pos rfl, if_neg (fun hsame => hfid (Option.some.inj hsame.2).symm),
          Function.update_of_ne hfid]
        exact hi.reflects t.tgid fid
    · rw [if_neg hne, if_neg (fun hsame => hne hsame.1.symm)]
      exact hi.reflects tgid fid

theorem refinesLive_call (hi : FlsInv h s) (t : Task) (c : FlsCall) :
    RefinesLive h ⟨s, .call t c (c.run s.groups t).2,
      s.returned t (c.run s.groups t).1 (c.run s.groups t).2⟩ := by
  rintro _ _ _ ⟨⟩
  refine ⟨?_, fun err herr => FlsCall.run_error herr⟩
  intro fid hfid
  obtain ⟨tg, f, hc, rfl⟩ := hi.inv.exists_currentFiber hfid
  obtain ⟨g, hg, _, heffect⟩ := c.effect hc
  rw [flsLog_call, if_pos ⟨rfl, hfid⟩]
  exact (hi.reflects_current hc).liveStep heffect

theorem step (hi : FlsInv h s) (hs : FlsStep s a s') : FlsInv (⟨s, a, s'⟩ :: h) s' := by
  cases hs with
  | other hs => exact hi.other hs
  | call _ => exact hi.call _ _

end FlsInv

variable {hash : ℤ → Bucket} {cpu : Task → Cpu} {h : FlsHistory} {s : Cfg}

/-- In every run the bit maps and the data agree with the calls so far. -/
theorem reflects_of_run (hr : Run FlsStep (Cfg.initial hash cpu) h s) : FlsInv h s :=
  hr.induct (.initial hash cpu) fun _ _ _ _ _ hi hs => hi.step hs

/-! ## Calls of one thread -/

/-- Calls of one thread, one after the other, from a configuration with its history. -/
def callAll (t : Task) : FlsHistory → Cfg → List FlsCall → FlsHistory × Cfg
  | h, s, [] => (h, s)
  | h, s, c :: cs =>
    let s' := s.returned t (c.run s.groups t).1 (c.run s.groups t).2
    callAll t (⟨s, .call t c (c.run s.groups t).2, s'⟩ :: h) s' cs

theorem run_of_callAll {s₀ : Cfg} {t : Task} (cs : List FlsCall) (hr : Run FlsStep s₀ h s)
    (hu : s.frame t = .user) : Run FlsStep s₀ (callAll t h s cs).1 (callAll t h s cs).2 := by
  induction cs generalizing h s with
  | nil => exact hr
  | cons c cs ih => exact ih (hr.next (.call hu)) hu

/-- The first convert of a process. -/
def firstConvert : Action := .convert ⟨1, 1⟩ .succeeds

def convertedOnce : Cfg := (Cfg.initial hashZero default).returned ⟨1, 1⟩ oneFiber (.ok 0)

theorem step_firstConvert :
    step (Cfg.initial hashZero default) firstConvert = some (convertedOnce, some (.ok 0)) := by
  have hret : (doConvertThreadToFiber .succeeds (.init hashZero) ⟨1, 1⟩ default).map Prod.snd =
      some (.ok 0) := by decide +kernel
  obtain ⟨⟨g, r⟩, hcall, rfl⟩ := Option.map_eq_some_iff.mp hret
  have hg : oneFiber = g := by rw [oneFiber, hcall, Option.elim_some]
  show (Cfg.initial hashZero default).whole ⟨1, 1⟩
    (doConvertThreadToFiber .succeeds (.init hashZero) ⟨1, 1⟩ default) = _
  rw [hcall, convertedOnce, hg]
  rfl

theorem run_firstConvert :
    Run FlsStep (Cfg.initial hashZero default)
      [⟨Cfg.initial hashZero default, .other firstConvert, convertedOnce⟩] convertedOnce := by
  have hexec : execute [] (Cfg.initial hashZero default) [firstConvert] =
      some ([⟨Cfg.initial hashZero default, firstConvert, convertedOnce⟩], convertedOnce) := by
    simp only [execute, Run.execute, step_firstConvert, Option.map_some]
  have hr : Run (Step fun _ => True) (Cfg.initial hashZero default)
      [⟨Cfg.initial hashZero default, firstConvert, convertedOnce⟩] convertedOnce :=
    run_of_execute_initial [firstConvert] (by simp [firstConvert]) (by decide) hexec
  cases hr with
  | next _ hs => exact .next .start (.other hs)

/-- Calls of the one thread of a process on its first fiber. -/
def callsOnFirst (cs : List FlsCall) : FlsHistory × Cfg :=
  callAll ⟨1, 1⟩ [⟨Cfg.initial hashZero default, .other firstConvert, convertedOnce⟩] convertedOnce cs

theorem run_callsOnFirst (cs : List FlsCall) :
    Run FlsStep (Cfg.initial hashZero default) (callsOnFirst cs).1 (callsOnFirst cs).2 :=
  run_of_callAll cs run_firstConvert rfl

/-! ## The set of allocated indices -/

/-- In every run, whatever comes between the calls, each call on a fiber is a call on the set of the
indices allocated there and not yet freed, and a call that fails changes nothing. -/
theorem fls_allocator_refines (hr : Run FlsStep (Cfg.initial hash cpu) h s) :
    EveryEntry RefinesLive h := by
  refine hr.induct (I := fun h _ => EveryEntry RefinesLive h) trivial ?_
  intro h s a s' hr hall hs
  refine ⟨?_, hall⟩
  cases hs with
  | other _ =>
    intro t c r he
    cases he
  | call _ => exact (reflects_of_run hr).refinesLive_call _ _

/-- A double free, and an allocation of what was freed. -/
def freedTwice : List FlsCall := [.alloc, .alloc, .free 0, .free 0, .free (-1), .alloc]

theorem fls_allocator_refines_freedTwice :
    EveryEntry RefinesLive (callsOnFirst freedTwice).1 ∧
      (flsLog 1 0 (callsOnFirst freedTwice).1).live = {0, 1} :=
  ⟨fls_allocator_refines (run_callsOnFirst freedTwice), by decide +kernel⟩

/-! ## New slots -/

theorem doFlsGetValue_of_set {groups : Groups} {t : Task} {tg : ThreadGroup} {f : Fiber}
    {i : Fin flsMaxSize} (hc : currentFiber groups t = some (tg, f)) (hset : f.fls.bmp i = true) :
    doFlsGetValue groups t i.val = .ok (f.fls.data i) := by
  apply doFlsGetValue_of_cell hc
  rw [Fiber.cell, flsIndex_val, Option.bind_some, if_pos hset]

/-- A slot that was allocated and not set since holds what was set last under its index, in
whatever earlier allocation, and so reads 0 only if that was 0. -/
theorem fresh_slot_empty (hr : Run FlsStep (Cfg.initial hash cpu) h s) {t : Task} {fid i : ℤ}
    (hcur : s.currentFid t = some fid) (hfresh : i ∈ (flsLog t.tgid fid h).fresh) :
    doFlsGetValue s.groups t i = .ok 0 ↔ (flsLog t.tgid fid h).stored i = 0 := by
  have hi := reflects_of_run hr
  obtain ⟨tg, f, hc, rfl⟩ := hi.inv.exists_currentFiber hcur
  have hlog := hi.reflects_current hc
  have hlive := hlog.fresh hfresh
  obtain ⟨j, rfl⟩ := mem_indices.mp (hlog.range hlive)
  rw [doFlsGetValue_of_set hc ((hlog.live j).mp hlive), hlog.stored j]
  exact ⟨Except.ok.inj, congrArg Except.ok⟩

/-- A slot whose previous owner set it to 7 and then to 0. -/
def clearedSlot : List FlsCall := [.alloc, .setValue 0 7, .setValue 0 0, .free 0, .alloc]

theorem fresh_slot_empty_clearedSlot :
    doFlsGetValue (callsOnFirst clearedSlot).2.groups ⟨1, 1⟩ 0 = .ok 0 :=
  have hcur : (callsOnFirst clearedSlot).2.currentFid ⟨1, 1⟩ = some 0 := by decide +kernel
  (fresh_slot_empty (run_callsOnFirst clearedSlot) hcur (by decide +kernel)).mpr (by decide +kernel)

/-- A slot with the value of its previous owner. -/
def reusedSlot : List FlsCall := [.alloc, .setValue 0 7, .free 0, .alloc]

theorem reused_slot_not_empty :
    ∃ h s, Run FlsStep (Cfg.initial hashZero default) h s ∧ s.currentFid ⟨1, 1⟩ = some 0 ∧
      0 ∈ (flsLog 1 0 h).fresh ∧ doFlsGetValue s.groups ⟨1, 1⟩ 0 = .ok 7 :=
  ⟨_, _, run_callsOnFirst reusedSlot, by decide +kernel, by decide +kernel, by decide +kernel⟩

end Fibers
