import Fibers.Invariant
import Fibers.Isolation
import Fibers.Library

/-!
# Fiber-local storage

The storage that a user of the library can rely on: every fiber has its own slots, they
follow the fiber from thread to thread, and a slot holds the value set last. `FlsSpec` is
this storage, driven by nothing but the calls and what they return; the library and the
device refine it, call by call.

## Main results

- `follows_of_run` — the registry follows the specification in every run
- `fls_get_value_latest` — a read returns the value set last, through the library and the device
-/

namespace Fibers

/-! ## The specification -/

/-- The fiber that each thread is on, and the slots of each fiber: not allocated, allocated and not
set since, or set to a value. -/
structure FlsSpec where
  current : Task → Option ℤ
  slot : ℤ → ℤ → ℤ → Option (Option Word)

namespace FlsSpec

def initial : FlsSpec where
  current := fun _ => none
  slot := fun _ _ _ => none

/-- A slot of the fiber that the thread is on. -/
def setSlot (sp : FlsSpec) (t : Task) (idx : ℤ) (x : Option (Option Word)) : FlsSpec :=
  match sp.current t with
  | none => sp
  | some fid =>
    { sp with slot := fun tgid f i =>
        if tgid = t.tgid ∧ f = fid ∧ i = idx then x else sp.slot tgid f i }

def enter (sp : FlsSpec) (t : Task) (fid : ℤ) : FlsSpec :=
  { sp with current := Function.update sp.current t (some fid) }

/-- What a call that returns `ret` does to the storage; a negative value means that it failed. -/
def returned (sp : FlsSpec) (t : Task) (c : LibCall) (ret : ℤ) : FlsSpec :=
  if ret < 0 then sp
  else
    match c with
    | .convertThreadToFiber => sp.enter t ret
    | .createFiber _ => sp
    | .switchToFiber fib => sp.enter t (fiberOf fib)
    | .flsAlloc => sp.setSlot t ret (some none)
    | .flsGetValue _ => sp
    | .flsFree idx => sp.setSlot t idx.toInt none
    | .flsSetValue idx value => sp.setSlot t idx.toInt (some (some value))

end FlsSpec

/-! ## The system -/

/-- What happens at the interface of the library. -/
inductive LibEvent
  /-- user code changes the registers of its thread -/
  | user (t : Task) (cpu : Cpu)
  /-- user code changes the memory of its process -/
  | write (t : Task) (mem : UserMemory)
  /-- a call, with what it returns -/
  | call (t : Task) (c : LibCall) (ret : ℤ)

/-- User code does anything to its own process; a call runs as a whole, and the group of its caller
has fewer than 2^31 fibers. -/
inductive LibStep (s : DeviceCfg) : LibEvent → DeviceCfg → Prop
  | user (t : Task) (cpu : Cpu) :
      LibStep s (.user t cpu) { s with cpu := Function.update s.cpu t cpu }
  | write (t : Task) (mem : UserMemory) :
      LibStep s (.write t mem) { s with mem := Function.update s.mem t.tgid mem }
  | call {t : Task} {c : LibCall} (k : Kmalloc) (sl : Slots (s.mem t.tgid)) {o : Outcome}
      (run : c.run k s.groups t (s.cpu t) (s.mem t.tgid) sl = some o)
      (few : ∀ tg, getGroup t.tgid o.groups = some tg → tg.fibers.size < 2 ^ 31) :
      LibStep s (.call t c o.ret) (s.after t o)

/-- The storage after a history of the library. -/
def replay : List (Entry DeviceCfg LibEvent) → FlsSpec
  | [] => .initial
  | e :: h =>
    match e.act with
    | .call t c ret => (replay h).returned t c ret
    | _ => replay h

/-! ## The storage of a group -/

/-- What an allocated index of a fiber holds. -/
def Fiber.cell (f : Fiber) (idx : ℤ) : Option Word :=
  (flsIndex idx).bind fun i => if f.fls.bmp i then some (f.fls.data i) else none

def ThreadGroup.cell (tg : ThreadGroup) (fid idx : ℤ) : Option Word :=
  (getFiber fid tg).bind fun f => f.cell idx

theorem flsIndex_eq_some_iff {idx : ℤ} {i : Fin flsMaxSize} :
    flsIndex idx = some i ↔ idx = i.val := by
  unfold flsIndex
  constructor
  · intro h
    split at h
    · next hr =>
      cases h
      change idx = (idx.toNat : ℤ)
      omega
    · cases h
  · rintro rfl
    have hi := i.isLt
    rw [dif_pos (by omega)]
    rfl

/-- The index of a slot and the position in the arrays are the same number. -/
theorem flsIndex_val (i : Fin flsMaxSize) : flsIndex i.val = some i := flsIndex_eq_some_iff.mpr rfl

theorem Fiber.cell_of_fls {f g : Fiber} (h : f.fls = g.fls) : f.cell = g.cell := by
  funext idx
  simp [Fiber.cell, h]

section Writes

variable {tg : ThreadGroup} {fid : ℤ} {g : Fiber → Fiber} {hg : ∀ f, (g f).fid = f.fid}

theorem cell_onFiber_of_same (h : ∀ f, (g f).fls = f.fls) :
    (tg.onFiber fid g hg).cell = tg.cell :=
  seen_onFiber_of_same (fun o idx => o.bind fun f => f.cell idx) fun f => Fiber.cell_of_fls (h f)

@[simp] theorem cell_onThread {pid : ℤ} {g : Thread → Thread} {hg : ∀ t, (g t).pid = t.pid} :
    (tg.onThread pid g hg).cell = tg.cell := rfl

/-- A write to one index of one fiber. -/
theorem cell_onFiber {f : Fiber} (hf : getFiber fid tg = some f) {i : Fin flsMaxSize}
    {c : Option Word} (h : ∀ idx, (g f).cell idx = if idx = i.val then c else f.cell idx)
    (k idx : ℤ) :
    (tg.onFiber fid g hg).cell k idx = if k = fid ∧ idx = i.val then c else tg.cell k idx := by
  by_cases hk : k = fid
  · subst hk
    simp [ThreadGroup.cell, hf, h]
  · simp [ThreadGroup.cell, hk]

end Writes

/-- The cells of a fiber of which one index was written. -/
theorem cell_of_ne {f f' : Fiber} {i : Fin flsMaxSize}
    (hbmp : ∀ j, j ≠ i → f'.fls.bmp j = f.fls.bmp j)
    (hdata : ∀ j, j ≠ i → f'.fls.data j = f.fls.data j) (idx : ℤ) :
    f'.cell idx =
      if idx = i.val then if f'.fls.bmp i then some (f'.fls.data i) else none else f.cell idx := by
  unfold Fiber.cell
  cases hj : flsIndex idx with
  | none =>
    have hne : idx ≠ i.val := by
      rintro rfl
      rw [flsIndex_val] at hj
      cases hj
    simp [hne]
  | some j =>
    rw [flsIndex_eq_some_iff] at hj
    subst hj
    by_cases hij : j = i
    · subst hij
      simp
    · have hne : (j.val : ℤ) ≠ i.val := by
        intro he
        exact hij (Fin.ext (by omega))
      simp [hbmp j hij, hdata j hij, hne]

/-- `change_bit` allocates an index that is clear and frees one that is set. -/
theorem cell_changeBit (f : Fiber) (i : Fin flsMaxSize) (idx : ℤ) :
    (f.changeBit i).cell idx =
      if idx = i.val then if f.fls.bmp i then none else some (f.fls.data i) else f.cell idx := by
  have h := @cell_of_ne f (f.changeBit i) i (fun j hj => Function.update_of_ne hj _ _)
    (fun _ _ => rfl) idx
  rw [h]
  cases hb : f.fls.bmp i <;> simp [hb]

theorem cell_setData {f : Fiber} {i : Fin flsMaxSize} (v : Word) (hb : f.fls.bmp i = true)
    (idx : ℤ) : (f.setData i v).cell idx = if idx = i.val then some v else f.cell idx := by
  have h := @cell_of_ne f (f.setData i v) i (fun _ _ => rfl)
    (fun j hj => Function.update_of_ne hj _ _) idx
  rw [h]
  simp [hb]

/-- The bit that `find_first_zero_bit` finds is clear. -/
theorem bmp_nextZeroBit {bmp : Fin flsMaxSize → Bool} {fuel i : ℕ}
    (h : nextZeroBit bmp fuel i < flsMaxSize) (hi : flsMaxSize ≤ i + fuel) :
    bmp ⟨nextZeroBit bmp fuel i, h⟩ = false := by
  induction fuel generalizing i with
  | zero =>
    have hn : nextZeroBit bmp 0 i = i := rfl
    omega
  | succ fuel ih =>
    by_cases hlt : i < flsMaxSize
    · cases hb : bmp ⟨i, hlt⟩ with
      | true =>
        have hn : nextZeroBit bmp (fuel + 1) i = nextZeroBit bmp fuel (i + 1) := by
          simp [nextZeroBit, hlt, hb]
        simp only [hn] at h ⊢
        exact ih h (by omega)
      | false =>
        have hn : nextZeroBit bmp (fuel + 1) i = i := by simp [nextZeroBit, hlt, hb]
        simp only [hn, hb]
    · have hn : nextZeroBit bmp (fuel + 1) i = nextZeroBit bmp fuel (i + 1) := by
        simp [nextZeroBit, hlt]
      simp only [hn] at h ⊢
      exact ih h (by omega)

theorem bmp_findFirstZeroBit {bmp : Fin flsMaxSize → Bool} (h : findFirstZeroBit bmp < flsMaxSize) :
    bmp ⟨findFirstZeroBit bmp, h⟩ = false := bmp_nextZeroBit h (by omega)

/-! ## The registry follows the storage -/

/-- A slot and the cell of the registry that holds it. -/
structure Matches (slot : Option (Option Word)) (cell : Option Word) : Prop where
  allocated : slot = none ↔ cell = none
  value : ∀ v, slot = some (some v) → cell = some v

/-- A group follows the storage of its process. -/
structure Follows (sp : FlsSpec) (tgid : ℤ) (tg : Option ThreadGroup) : Prop where
  numbered : ∀ x, tg = some x → Numbered x
  current : ∀ pid, sp.current ⟨tgid, pid⟩ = tg.bind (fun x => x.current pid)
  live : ∀ pid fid, sp.current ⟨tgid, pid⟩ = some fid → ∃ x, tg = some x ∧ x.HasFiber fid
  cells : ∀ fid idx, Matches (sp.slot tgid fid idx) (tg.bind (fun x => x.cell fid idx))

namespace Follows

variable {sp sp' : FlsSpec} {t : Task} {tgid : ℤ} {tg tg' : ThreadGroup}

theorem none_iff : Follows .initial tgid none :=
  ⟨by simp, fun _ => rfl, by simp [FlsSpec.initial], fun _ _ => ⟨by simp [FlsSpec.initial], by
    simp [FlsSpec.initial]⟩⟩

/-- A group does not follow what happens to the others. -/
theorem congr {o : Option ThreadGroup} (h : Follows sp tgid o)
    (hc : ∀ pid, sp'.current ⟨tgid, pid⟩ = sp.current ⟨tgid, pid⟩)
    (hs : sp'.slot tgid = sp.slot tgid) : Follows sp' tgid o where
  numbered := h.numbered
  current := fun pid => (hc pid).trans (h.current pid)
  live := fun pid fid hp => h.live pid fid ((hc pid).symm.trans hp)
  cells := by
    rw [hs]
    exact h.cells

/-- A group that a convert generates. -/
theorem fresh (h : Follows sp tgid none) (hash : ℤ → Bucket) :
    Follows sp tgid (some (freshGroup hash tgid)) where
  numbered := by
    rintro _ ⟨⟩
    exact numbered_freshGroup hash tgid
  current := by
    intro pid
    rw [h.current pid]
    simp [ThreadGroup.current]
  live := by
    intro pid fid hp
    rw [h.current pid] at hp
    cases hp
  cells := fun fid idx => h.cells fid idx

/-- A change that is invisible in the storage. -/
theorem keep (h : Follows sp tgid (some tg)) (hn : Numbered tg')
    (hc : tg'.current = tg.current) (hcell : tg'.cell = tg.cell)
    (hf : ∀ fid, tg.HasFiber fid → tg'.HasFiber fid) : Follows sp tgid (some tg') where
  numbered := by
    rintro _ ⟨⟩
    exact hn
  current := by
    intro pid
    rw [h.current pid, Option.bind_some, Option.bind_some, hc]
  live := by
    intro pid fid hp
    obtain ⟨_, ⟨⟩, hfid⟩ := h.live pid fid hp
    exact ⟨tg', rfl, hf fid hfid⟩
  cells := by
    intro fid idx
    have hm := h.cells fid idx
    rwa [Option.bind_some, ← hcell] at hm

/-- A thread is on another fiber. -/
theorem enter (h : Follows sp t.tgid (some tg)) {fid : ℤ} (hn : Numbered tg')
    (hc : tg'.current = Function.update tg.current t.pid (some fid)) (hcell : tg'.cell = tg.cell)
    (hf : ∀ fid, tg.HasFiber fid → tg'.HasFiber fid) (hfid : tg'.HasFiber fid) :
    Follows (sp.enter t fid) t.tgid (some tg') where
  numbered := by
    rintro _ ⟨⟩
    exact hn
  current := by
    intro pid
    obtain ⟨tgid, p⟩ := t
    by_cases hp : pid = p
    · simp [FlsSpec.enter, hp, hc]
    · simp [FlsSpec.enter, hp, hc, h.current pid]
  live := by
    intro pid f hp
    obtain ⟨tgid, p⟩ := t
    by_cases hpid : pid = p
    · simp only [FlsSpec.enter, hpid, Function.update_self, Option.some.injEq] at hp
      subst hp
      exact ⟨tg', rfl, hfid⟩
    · have hne : (⟨tgid, pid⟩ : Task) ≠ ⟨tgid, p⟩ := by simpa using hpid
      simp only [FlsSpec.enter, Function.update_of_ne hne] at hp
      obtain ⟨_, ⟨⟩, hx⟩ := h.live pid f hp
      exact ⟨tg', rfl, hf f hx⟩
  cells := by
    intro fid idx
    have hm := h.cells fid idx
    rwa [Option.bind_some, ← hcell] at hm

/-- A slot of the current fiber of a thread. -/
theorem setSlot (h : Follows sp t.tgid (some tg)) {fid idx : ℤ} {x : Option (Option Word)}
    {c : Option Word} (hcur : sp.current t = some fid) (hn : Numbered tg')
    (hc : tg'.current = tg.current)
    (hcell : ∀ f i, tg'.cell f i = if f = fid ∧ i = idx then c else tg.cell f i)
    (hf : ∀ fid, tg.HasFiber fid → tg'.HasFiber fid) (hx : Matches x c) :
    Follows (sp.setSlot t idx x) t.tgid (some tg') := by
  have hsp : sp.setSlot t idx x = { sp with slot := fun tgid f i =>
      if tgid = t.tgid ∧ f = fid ∧ i = idx then x else sp.slot tgid f i } := by
    simp only [FlsSpec.setSlot, hcur]
  rw [hsp]
  constructor
  · rintro _ ⟨⟩
    exact hn
  · intro pid
    rw [Option.bind_some, hc]
    exact h.current pid
  · intro pid f hp
    obtain ⟨_, ⟨⟩, hfid⟩ := h.live pid f hp
    exact ⟨tg', rfl, hf f hfid⟩
  · intro f i
    rw [Option.bind_some, hcell]
    by_cases hfi : f = fid ∧ i = idx
    · simpa [hfi] using hx
    · simpa [hfi] using h.cells f i

end Follows

/-! ### The calls -/

theorem Follows.groupOf {sp : FlsSpec} {tgid : ℤ} {groups : Groups}
    (h : Follows sp tgid (getGroup tgid groups)) :
    Follows sp tgid (some (Fibers.groupOf groups tgid)) := by
  unfold Fibers.groupOf
  cases hg : getGroup tgid groups with
  | some tg => rwa [hg] at h
  | none =>
    rw [hg] at h
    exact h.fresh groups.hash

section Effects

variable {tg : ThreadGroup} {pid : ℤ} {cpu : Cpu}

/-- A new fiber has no index allocated. -/
theorem cell_newFiber (tg : ThreadGroup) (t : Thread) (cpu : Cpu) (idx : ℤ) :
    (newFiber tg t cpu).cell idx = none := by
  unfold Fiber.cell newFiber prepareFls
  cases flsIndex idx <;> rfl

theorem cell_converted (hn : getFiber (nextFid tg) tg = none) :
    (converted tg pid cpu).cell = tg.cell :=
  seen_converted_of_same (fun o idx => o.bind fun f => f.cell idx) hn
    (funext (cell_newFiber tg ⟨pid, noFibers⟩ cpu))

theorem cell_created {t : Thread} {a : FibArgs} (hn : getFiber (nextFid tg) tg = none) :
    (created tg t cpu a).cell = tg.cell :=
  seen_created_of_same (fun o idx => o.bind fun f => f.cell idx) hn (funext (cell_newFiber tg t cpu))

end Effects

section Calls

variable {sp : FlsSpec} {groups : Groups} {t : Task} {cpu : Cpu} {k : Kmalloc}

/-- What the FLS calls find, by the storage. -/
theorem Follows.currentFiber_eq (h : Follows sp t.tgid (getGroup t.tgid groups)) {tg : ThreadGroup}
    {f : Fiber} (hc : currentFiber groups t = some (tg, f)) :
    getGroup t.tgid groups = some tg ∧ getFiber f.fid tg = some f ∧ sp.current t = some f.fid := by
  obtain ⟨hg, th, ht, hf⟩ := currentFiber_eq_some_iff.mp hc
  rw [hg] at h
  have hfid := fid_of_getFiber hf
  have hhas : tg.HasFiber f.fid := by simp [ThreadGroup.HasFiber, hfid, hf]
  have hne := (h.numbered tg rfl).fid_ne_noFibers hhas
  refine ⟨hg, by rw [hfid]; exact hf, ?_⟩
  have hcur := h.current t.pid
  simpa [ThreadGroup.current, ht, ← hfid, hne] using hcur

theorem Follows.exists_currentFiber (h : Follows sp t.tgid (getGroup t.tgid groups)) {fid : ℤ}
    (hc : sp.current t = some fid) :
    ∃ tg f, currentFiber groups t = some (tg, f) ∧ getGroup t.tgid groups = some tg ∧
      getFiber fid tg = some f := by
  obtain ⟨tg, hg, hf⟩ := h.live t.pid fid hc
  obtain ⟨f, hf⟩ := Option.isSome_iff_exists.mp hf
  have hcur := h.current t.pid
  rw [hg, Option.bind_some] at hcur
  obtain ⟨th, ht, hif⟩ := Option.bind_eq_some_iff.mp (hcur.symm.trans hc)
  split at hif
  · cases hif
  · cases hif
    exact ⟨tg, f, currentFiber_eq_some_iff.mpr ⟨hg, th, ht, hf⟩, hg, hf⟩

/-- The storage after a call that failed. -/
theorem returned_of_neg {c : LibCall} {ret : ℤ} (h : ret < 0) : sp.returned t c ret = sp := by
  simp [FlsSpec.returned, h]

theorem follows_convert (h : Follows sp t.tgid (getGroup t.tgid groups)) {g : Groups} {r : Ret}
    (ho : doConvertThreadToFiber k groups t cpu = some (g, r))
    (few : ∀ tg, getGroup t.tgid g = some tg → tg.fibers.size < 2 ^ 31) :
    Follows (sp.returned t .convertThreadToFiber (ioctlReturn r.toLong)) t.tgid
      (getGroup t.tgid g) := by
  have hgroup := h.groupOf
  rw [doConvertThreadToFiber_eq] at ho
  split at ho
  · cases ho
  · split at ho
    · cases ho
      rw [getGroup_lookupOrGenerate, if_pos rfl]
      exact hgroup
    · next ht =>
      split at ho
      · cases ho
        have hg : getGroup t.tgid (lookupOrGenerate groups t.tgid) =
            some (Fibers.groupOf groups t.tgid) := by
          rw [getGroup_lookupOrGenerate, if_pos rfl]
        have htg : (converted (Fibers.groupOf groups t.tgid) t.pid cpu).tgid = t.tgid := by simp
        have hst := getGroup_storeGroup_self (lookupOrGenerate groups t.tgid) htg hg
        rw [hst] at few ⊢
        have hn := hgroup.numbered _ rfl
        have few' := few _ rfl
        have few₀ : (Fibers.groupOf groups t.tgid).fibers.size < 2 ^ 31 :=
          lt_of_le_of_lt (converted_effects ht cpu).size_le few'
        have hfid := hn.nextFid_eq few₀
        have hpos : 0 ≤ nextFid (Fibers.groupOf groups t.tgid) := by omega
        have hlt : nextFid (Fibers.groupOf groups t.tgid) < 2 ^ 31 := by omega
        have hret : ioctlReturn (Ret.toLong (.ok (nextFid (Fibers.groupOf groups t.tgid)))) =
            nextFid (Fibers.groupOf groups t.tgid) := ioctlReturn_of_range hpos hlt
        rw [hret]
        simp only [FlsSpec.returned, if_neg (not_lt.mpr hpos)]
        refine hgroup.enter ((converted_effects ht cpu).numbered hn few')
          (current_converted (hn.nextFid_ne_noFibers few₀))
          (cell_converted (hn.getFiber_nextFid few₀)) ?_ ?_
        · exact fun f => (converted_effects ht cpu).getFiber_isSome
        · simp [ThreadGroup.HasFiber]
      · cases ho

theorem follows_create (h : Follows sp t.tgid (getGroup t.tgid groups)) {g : Groups} {r : Ret}
    {a a' : FibArgs} (ho : doCreateFiber k groups t cpu a' = some (g, r))
    (few : ∀ tg, getGroup t.tgid g = some tg → tg.fibers.size < 2 ^ 31) :
    Follows (sp.returned t (.createFiber a) (ioctlReturn r.toLong)) t.tgid (getGroup t.tgid g) := by
  have hsp : ∀ ret, sp.returned t (.createFiber a) ret = sp := by
    intro ret
    simp [FlsSpec.returned]
  rw [hsp]
  rw [doCreateFiber_eq] at ho
  split at ho
  · cases ho
    exact h
  · next tg hg =>
    split at ho
    · cases ho
      exact h
    · next th ht =>
      split at ho
      · cases ho
        have htg : (created tg th cpu a').tgid = t.tgid :=
          (tgid_created tg th cpu a').trans (tgid_of_getGroup hg)
        have hst := getGroup_storeGroup_self groups htg hg
        rw [hst] at few ⊢
        rw [hg] at h
        have hn := h.numbered tg rfl
        have few' := few _ rfl
        have few₀ : tg.fibers.size < 2 ^ 31 :=
          lt_of_le_of_lt (created_effects tg t.pid th cpu a').size_le few'
        exact h.keep ((created_effects tg t.pid th cpu a').numbered hn few') rfl
          (cell_created (hn.getFiber_nextFid few₀))
          (fun f => (created_effects tg t.pid th cpu a').getFiber_isSome)
      · cases ho

/-- A change of the group that the storage does not see. -/
structure Invisible (pid : ℤ) (tg tg' : ThreadGroup) : Prop where
  effects : GroupEffects pid tg tg'
  cell : tg'.cell = tg.cell
  current : tg'.current = tg.current

theorem Invisible.onFiber (pid : ℤ) (tg : ThreadGroup) (fid : ℤ) {g : Fiber → Fiber}
    {hg : ∀ f, (g f).fid = f.fid} (h : ∀ f, (g f).fls = f.fls) :
    Invisible pid tg (tg.onFiber fid g hg) :=
  ⟨.step (.writeFiber fid g hg) (.refl _), cell_onFiber_of_same h, rfl⟩

theorem Invisible.trans {pid : ℤ} {tg tg' tg'' : ThreadGroup} (h : Invisible pid tg tg')
    (h' : Invisible pid tg' tg'') : Invisible pid tg tg'' :=
  ⟨h.effects.trans h'.effects, h'.cell.trans h.cell, h'.current.trans h.current⟩

theorem Follows.invisible {tgid pid : ℤ} {tg tg' : ThreadGroup} (h : Follows sp tgid (some tg))
    (hi : Invisible pid tg tg') (few : tg'.fibers.size < 2 ^ 31) : Follows sp tgid (some tg') :=
  h.keep (hi.effects.numbered (h.numbered tg rfl) few) hi.current hi.cell
    (fun _ => hi.effects.getFiber_isSome)

theorem tryEnter_invisible (pid : ℤ) (tg : ThreadGroup) (f : Fiber) :
    Invisible pid tg (tryEnter tg f).1 := by
  unfold tryEnter
  split
  · exact ⟨.refl _, rfl, rfl⟩
  · exact .onFiber pid tg f.fid (fun _ => rfl)

theorem threads_tryEnter (tg : ThreadGroup) (f : Fiber) : (tryEnter tg f).1.threads = tg.threads := by
  unfold tryEnter
  split <;> rfl

/-- The save and the release of the fiber that a switch leaves. -/
def Fiber.leave (cpu : Cpu) (f : Fiber) : Fiber :=
  ((((f.saveRegs cpu.regs).saveFpu cpu.fpu).addRunningTime cpu.utime).setState 0).unlock

theorem switchTo_fst (tg : ThreadGroup) (pid : ℤ) (cpu : Cpu) (old new : Fiber) :
    (switchTo tg pid cpu old new).1 =
      (activateFiberFromThread tg new.fid pid cpu.utime).onFiber old.fid (Fiber.leave cpu) := by
  unfold switchTo
  dsimp only
  split <;> rfl

/-- What a switch that gets as far as the activation does to the storage. -/
theorem switchTo_effects (tg : ThreadGroup) (pid : ℤ) (cpu : Cpu) (old new : Fiber)
    (ht : (getThread pid tg).isSome = true) (hf : new.fid ≠ noFibers) :
    GroupEffects pid tg (switchTo tg pid cpu old new).1 ∧
      (switchTo tg pid cpu old new).1.cell = tg.cell ∧
      (switchTo tg pid cpu old new).1.current =
        Function.update tg.current pid (some new.fid) := by
  have hleave : Invisible pid (activateFiberFromThread tg new.fid pid cpu.utime)
      (switchTo tg pid cpu old new).1 := by
    rw [switchTo_fst]
    exact .onFiber pid _ old.fid (fun _ => rfl)
  refine ⟨(activate_effects tg new.fid pid cpu.utime).trans hleave.effects, ?_, ?_⟩
  · rw [hleave.cell, activateFiberFromThread, cell_onThread]
    exact cell_onFiber_of_same (fun _ => rfl)
  · rw [hleave.current]
    exact current_onThread_setCurrent ht hf

theorem follows_switch (h : Follows sp t.tgid (getGroup t.tgid groups)) (fib : Word)
    (few : ∀ tg, getGroup t.tgid (doSwitchToFiber groups t cpu (fiberOf fib)).1 = some tg →
      tg.fibers.size < 2 ^ 31) :
    Follows (sp.returned t (.switchToFiber fib)
        (doSwitchToFiber groups t cpu (fiberOf fib)).2.2.hidden) t.tgid
      (getGroup t.tgid (doSwitchToFiber groups t cpu (fiberOf fib)).1) := by
  have hfail : ∀ {e : Errno}, sp.returned t (.switchToFiber fib) (Ret.hidden (.error e)) = sp := by
    intro e
    have hneg : Ret.hidden (.error e) = -11 := rfl
    exact returned_of_neg (by omega)
  unfold doSwitchToFiber at few ⊢
  cases hg : getGroup t.tgid groups with
  | none =>
    rw [hg] at h
    simpa only [hg, hfail] using h
  | some tg =>
    rw [hg] at h
    simp only [hg] at few ⊢
    have hst : ∀ tg' : ThreadGroup, tg'.tgid = tg.tgid →
        getGroup t.tgid (storeGroup groups tg') = some tg' := fun tg' ht =>
      getGroup_storeGroup_self groups (ht.trans (tgid_of_getGroup hg)) hg
    cases ht : getThread t.pid tg with
    | none => simpa only [ht, hg, hfail] using h
    | some th =>
      simp only [ht] at few ⊢
      cases hnew : getFiber (fiberOf fib) tg with
      | none => simpa only [hnew, hg, hfail] using h
      | some new =>
        simp only [hnew] at few ⊢
        have hi := tryEnter_invisible t.pid tg new
        have htg := tgid_tryEnter tg new
        have hthreads := threads_tryEnter tg new
        generalize tryEnter tg new = entered at hi htg hthreads few
        obtain ⟨tg', ok⟩ := entered
        cases ok with
        | false =>
          have htg' : (tg'.onFiber new.fid Fiber.countFailure).tgid = tg.tgid := htg
          simp only [hst _ htg', hfail] at few ⊢
          exact h.invisible (hi.trans (.onFiber t.pid tg' new.fid (fun _ => rfl))) (few _ rfl)
        | true =>
          dsimp only at few ⊢
          cases hold : getFiber th.currentFid tg' with
          | none =>
            simp only [hold, hst tg' htg, hfail] at few ⊢
            exact h.invisible hi (few _ rfl)
          | some old =>
            have hfid : new.fid = fiberOf fib := fid_of_getFiber hnew
            have hhas : tg.HasFiber (fiberOf fib) := by simp [ThreadGroup.HasFiber, hnew]
            have hn := h.numbered tg rfl
            have hne : new.fid ≠ noFibers := by
              rw [hfid]
              exact hn.fid_ne_noFibers hhas
            have ht' : (getThread t.pid tg').isSome = true := by
              rw [getThread, hthreads, ← getThread, ht]
              rfl
            obtain ⟨heffects, hcell, hcur⟩ := switchTo_effects tg' t.pid cpu old new ht' hne
            have hall := hi.effects.trans heffects
            have hok : sp.returned t (.switchToFiber fib) (Ret.hidden (.ok 0)) =
                sp.enter t (fiberOf fib) := rfl
            simp only [hold, hst _ ((tgid_switchTo tg' t.pid cpu old new).trans htg), hok] at few ⊢
            refine h.enter (hall.numbered hn (few _ rfl)) ?_ (hcell.trans hi.cell)
              (fun _ => hall.getFiber_isSome) (hall.getFiber_isSome hhas)
            rw [hcur, hi.current, hfid]

/-- A call that writes one index of the current fiber of its thread. -/
theorem Follows.write (h : Follows sp t.tgid (getGroup t.tgid groups)) {tg : ThreadGroup} {f : Fiber}
    (hc : currentFiber groups t = some (tg, f)) {g : Fiber → Fiber} {hg : ∀ f, (g f).fid = f.fid}
    {i : Fin flsMaxSize} {x : Option (Option Word)} {c : Option Word}
    (hcell : ∀ idx, (g f).cell idx = if idx = i.val then c else f.cell idx) (hx : Matches x c)
    (few : ∀ tg', getGroup t.tgid (storeGroup groups (tg.onFiber f.fid g hg)) = some tg' →
      tg'.fibers.size < 2 ^ 31) :
    Follows (sp.setSlot t i.val x) t.tgid
      (getGroup t.tgid (storeGroup groups (tg.onFiber f.fid g hg))) := by
  obtain ⟨hgroup, hf, hcur⟩ := h.currentFiber_eq hc
  have htg : (tg.onFiber f.fid g hg).tgid = t.tgid :=
    (tgid_onFiber tg f.fid g hg).trans (tgid_of_getGroup hgroup)
  have hst := getGroup_storeGroup_self groups htg hgroup
  have heffects : GroupEffects t.pid tg (tg.onFiber f.fid g hg) :=
    .step (.writeFiber f.fid g hg) (.refl _)
  rw [hst] at few ⊢
  rw [hgroup] at h
  exact h.setSlot hcur (heffects.numbered (h.numbered tg rfl) (few _ rfl)) rfl
    (cell_onFiber hf hcell) (fun _ => heffects.getFiber_isSome) hx

theorem follows_flsAlloc (h : Follows sp t.tgid (getGroup t.tgid groups))
    (few : ∀ tg, getGroup t.tgid (doFlsAlloc groups t).1 = some tg → tg.fibers.size < 2 ^ 31) :
    Follows (sp.returned t .flsAlloc (doFlsAlloc groups t).2.hidden) t.tgid
      (getGroup t.tgid (doFlsAlloc groups t).1) := by
  unfold doFlsAlloc at few ⊢
  cases hc : currentFiber groups t with
  | none => exact h
  | some x =>
    obtain ⟨tg, f⟩ := x
    simp only [hc] at few ⊢
    split
    · next hi =>
      have hb := bmp_findFirstZeroBit hi
      rw [dif_pos hi] at few
      have hret : sp.returned t .flsAlloc (Ret.hidden (.ok (findFirstZeroBit f.fls.bmp))) =
          sp.setSlot t (findFirstZeroBit f.fls.bmp) (some none) := by
        have hpos : ¬ (findFirstZeroBit f.fls.bmp : ℤ) < 0 := by omega
        simp [FlsSpec.returned, Ret.hidden, hpos]
      dsimp only
      rw [hret]
      refine h.write hc (i := ⟨findFirstZeroBit f.fls.bmp, hi⟩)
        (c := some (f.fls.data ⟨findFirstZeroBit f.fls.bmp, hi⟩)) ?_ ⟨by simp, by simp⟩ few
      intro idx
      rw [cell_changeBit, hb]
      rfl
    · exact h

theorem follows_flsFree (h : Follows sp t.tgid (getGroup t.tgid groups)) (idx : Word)
    (few : ∀ tg, getGroup t.tgid (doFlsFree groups t idx.toInt).1 = some tg →
      tg.fibers.size < 2 ^ 31) :
    Follows (sp.returned t (.flsFree idx) (doFlsFree groups t idx.toInt).2.hidden) t.tgid
      (getGroup t.tgid (doFlsFree groups t idx.toInt).1) := by
  unfold doFlsFree at few ⊢
  cases hi : flsIndex idx.toInt with
  | none => exact h
  | some i =>
    cases hc : currentFiber groups t with
    | none => exact h
    | some x =>
      obtain ⟨tg, f⟩ := x
      simp only [hi, hc] at few ⊢
      split
      · next hb =>
        rw [if_pos hb] at few
        have hret : sp.returned t (.flsFree idx) (Ret.hidden (.ok 0)) = sp.setSlot t i.val none := by
          simp [FlsSpec.returned, Ret.hidden, ← flsIndex_eq_some_iff.mp hi]
        dsimp only
        rw [hret]
        refine h.write hc (i := i) (c := none) ?_ ⟨by simp, by simp⟩ few
        intro idx
        rw [cell_changeBit, hb]
        rfl
      · exact h

theorem follows_flsSetValue (h : Follows sp t.tgid (getGroup t.tgid groups)) (idx value : Word)
    (few : ∀ tg, getGroup t.tgid (doFlsSetValue groups t idx.toInt value).1 = some tg →
      tg.fibers.size < 2 ^ 31) :
    Follows (sp.returned t (.flsSetValue idx value)
        (doFlsSetValue groups t idx.toInt value).2.hidden) t.tgid
      (getGroup t.tgid (doFlsSetValue groups t idx.toInt value).1) := by
  unfold doFlsSetValue at few ⊢
  cases hi : flsIndex idx.toInt with
  | none => exact h
  | some i =>
    cases hc : currentFiber groups t with
    | none => exact h
    | some x =>
      obtain ⟨tg, f⟩ := x
      simp only [hi, hc] at few ⊢
      split
      · next hb =>
        rw [if_pos hb] at few
        have hidx := flsIndex_eq_some_iff.mp hi
        have hret : sp.returned t (.flsSetValue idx value) (Ret.hidden (.ok idx.toInt)) =
            sp.setSlot t i.val (some (some value)) := by
          have hpos : ¬ ((i.val : ℤ) < 0) := by omega
          simp [FlsSpec.returned, Ret.hidden, hidx, hpos]
        dsimp only
        rw [hret]
        exact h.write hc (i := i) (c := some value) (cell_setData value hb) ⟨by simp, by simp⟩ few
      · exact h

/-- A call does to the group of its caller what it does to the storage. -/
theorem LibEffect.follows {c : LibCall} {g : Groups} {ret : ℤ}
    (he : LibEffect k groups t cpu c g ret) (h : Follows sp t.tgid (getGroup t.tgid groups))
    (few : ∀ tg, getGroup t.tgid g = some tg → tg.fibers.size < 2 ^ 31) :
    Follows (sp.returned t c ret) t.tgid (getGroup t.tgid g) := by
  cases he with
  | convertThreadToFiber ho => exact follows_convert h ho few
  | createFiber ho => exact follows_create h ho few
  | @switchToFiber fib => exact follows_switch h fib few
  | flsAlloc => exact follows_flsAlloc h few
  | @flsGetValue idx =>
    have hsp : ∀ ret, sp.returned t (.flsGetValue idx) ret = sp := by
      intro ret
      simp [FlsSpec.returned]
    rw [hsp]
    exact h
  | @flsFree idx => exact follows_flsFree h idx few
  | @flsSetValue idx value => exact follows_flsSetValue h idx value few

/-- A call does nothing to the other groups. -/
theorem LibEffect.elsewhere {c : LibCall} {g : Groups} {ret : ℤ}
    (he : LibEffect k groups t cpu c g ret) {tgid : ℤ} (hne : tgid ≠ t.tgid) :
    getGroup tgid g = getGroup tgid groups := by
  obtain ⟨w, hw, hg⟩ : ∃ w, (∀ tg, w = some tg → tg.tgid = t.tgid) ∧
      g = writeBack groups t.tgid w := by
    cases he with
    | convertThreadToFiber ho => exact (doConvertThreadToFiber_local t k cpu).cases ho
    | createFiber ho => exact (doCreateFiber_local t k cpu _).cases ho
    | @switchToFiber fib => exact (doSwitchToFiber_local t cpu (fiberOf fib)).cases rfl
    | flsAlloc => exact (doFlsAlloc_local t).cases rfl
    | flsGetValue => exact ⟨none, by simp, rfl⟩
    | @flsFree idx => exact (doFlsFree_local t idx.toInt).cases rfl
    | @flsSetValue idx value => exact (doFlsSetValue_local t idx.toInt value).cases rfl
  rw [hg, getGroup_writeBack hw, if_neg hne]

/-- A call does nothing to the storage of the other processes. -/
theorem returned_elsewhere (sp : FlsSpec) (c : LibCall) (ret : ℤ) {tgid : ℤ} (hne : tgid ≠ t.tgid) :
    (∀ pid, (sp.returned t c ret).current ⟨tgid, pid⟩ = sp.current ⟨tgid, pid⟩) ∧
      (sp.returned t c ret).slot tgid = sp.slot tgid := by
  have henter : ∀ fid, (∀ pid, (sp.enter t fid).current ⟨tgid, pid⟩ = sp.current ⟨tgid, pid⟩) ∧
      (sp.enter t fid).slot tgid = sp.slot tgid := by
    refine fun fid => ⟨fun pid => Function.update_of_ne ?_ _ _, rfl⟩
    rintro rfl
    exact hne rfl
  have hset : ∀ idx x, (∀ pid, (sp.setSlot t idx x).current ⟨tgid, pid⟩ = sp.current ⟨tgid, pid⟩) ∧
      (sp.setSlot t idx x).slot tgid = sp.slot tgid := by
    intro idx x
    unfold FlsSpec.setSlot
    cases sp.current t with
    | none => exact ⟨fun _ => rfl, rfl⟩
    | some fid =>
      refine ⟨fun _ => rfl, ?_⟩
      funext f i
      simp [hne]
  unfold FlsSpec.returned
  split
  · exact ⟨fun _ => rfl, rfl⟩
  · cases c with
    | convertThreadToFiber => exact henter _
    | switchToFiber fib => exact henter _
    | flsAlloc => exact hset _ _
    | flsFree idx => exact hset _ _
    | flsSetValue idx value => exact hset _ _
    | createFiber _ => exact ⟨fun _ => rfl, rfl⟩
    | flsGetValue _ => exact ⟨fun _ => rfl, rfl⟩

end Calls

/-! ## The whole run -/

variable {hash : ℤ → Bucket} {cpu : Task → Cpu} {mem : ℤ → UserMemory}

/-- In every run the registry follows the storage that the calls and their results describe. -/
theorem follows_of_run {h : List (Entry DeviceCfg LibEvent)} {s : DeviceCfg}
    (hr : Run LibStep (.initial hash cpu mem) h s) (tgid : ℤ) :
    Follows (replay h) tgid (getGroup tgid s.groups) := by
  refine hr.induct (I := fun h s => ∀ tgid, Follows (replay h) tgid (getGroup tgid s.groups))
    (fun _ => .none_iff) ?_ tgid
  intro h s a s' _ ih hs tgid
  cases hs with
  | user t cpu => exact ih tgid
  | write t mem => exact ih tgid
  | @call t c k sl o run few =>
    have he := LibCall.run_effect sl run
    change Follows ((replay h).returned t c o.ret) tgid (getGroup tgid o.groups)
    by_cases hne : tgid = t.tgid
    · subst hne
      exact he.follows (ih t.tgid) few
    · obtain ⟨hc, hslot⟩ := returned_elsewhere (replay h) c o.ret hne
      rw [he.elsewhere hne]
      exact (ih tgid).congr hc hslot

/-- A read of an allocated index finds its cell. -/
theorem doFlsGetValue_of_cell {groups : Groups} {t : Task} {tg : ThreadGroup} {f : Fiber} {idx : ℤ}
    {v : Word} (hc : currentFiber groups t = some (tg, f)) (hv : f.cell idx = some v) :
    doFlsGetValue groups t idx = .ok v := by
  obtain ⟨i, hi, hif⟩ := Option.bind_eq_some_iff.mp hv
  unfold doFlsGetValue
  simp only [hi, hc]
  split at hif
  · next hb =>
    cases hif
    rw [if_pos hb]
  · cases hif

/-- A read by a thread that is on a fiber, of an index that is allocated there and has been set
since, returns the value set last. -/
theorem fls_get_value_latest {h : List (Entry DeviceCfg LibEvent)} {s : DeviceCfg}
    (hr : Run LibStep (.initial hash cpu mem) h s) {t : Task} {fid : ℤ} {idx v : Word}
    (hcur : (replay h).current t = some fid)
    (hslot : (replay h).slot t.tgid fid idx.toInt = some (some v)) (k : Kmalloc)
    (sl : Slots (s.mem t.tgid)) :
    ∃ o, flsGetValue k s.groups t (s.cpu t) (s.mem t.tgid) sl idx = some o ∧ o.ret = v.toInt := by
  have hf := follows_of_run hr t.tgid
  obtain ⟨tg, f, hc, hg, hfib⟩ := hf.exists_currentFiber hcur
  have hcell := (hf.cells fid idx.toInt).value v hslot
  obtain ⟨mem', hrun⟩ := flsGetValue_eq sl k s.groups t (s.cpu t) idx
  have hv : f.cell idx.toInt = some v := by simpa [hg, ThreadGroup.cell, hfib] using hcell
  refine ⟨_, hrun, ?_⟩
  rw [doFlsGetValue_of_cell hc hv]
  rfl

/-! ## A fiber on two threads -/

/-- The slots at two addresses, if the memory can be accessed there. -/
def Slots.find (m : UserMemory) (args result : Word) : Option (Slots m) :=
  if h : (Memory.range args FibArgs.size).all m.readable = true ∧
      (Memory.range result 8).all m.writable = true then
    some ⟨args, result, h.1, h.2⟩
  else none

/-- The calls one after the other, each with the same addresses for its slots. -/
def executeCalls : List (Entry DeviceCfg LibEvent) → DeviceCfg → List (Task × LibCall) →
    Option (List (Entry DeviceCfg LibEvent) × DeviceCfg)
  | h, s, [] => some (h, s)
  | h, s, (t, c) :: cs =>
    match Slots.find (s.mem t.tgid) 0x1000 0x2000 with
    | none => none
    | some sl =>
      match c.run .succeeds s.groups t (s.cpu t) (s.mem t.tgid) sl with
      | none => none
      | some o =>
        if (getGroup t.tgid o.groups).all (fun tg => tg.fibers.size < 2 ^ 31) then
          executeCalls (⟨s, .call t c o.ret, s.after t o⟩ :: h) (s.after t o) cs
        else none

theorem run_of_executeCalls {s₀ s s' : DeviceCfg} {h h' : List (Entry DeviceCfg LibEvent)}
    (cs : List (Task × LibCall)) (hr : Run LibStep s₀ h s)
    (he : executeCalls h s cs = some (h', s')) : Run LibStep s₀ h' s' := by
  induction cs generalizing h s with
  | nil =>
    cases he
    exact hr
  | cons x cs ih =>
    obtain ⟨t, c⟩ := x
    simp only [executeCalls] at he
    split at he
    · cases he
    · next sl _ =>
      split at he
      · cases he
      · next o ho =>
        split at he
        · next hfew =>
          refine ih (hr.next (.call .succeeds sl ho ?_)) he
          intro tg hg
          simpa [hg] using hfew
        · cases he

/-- One thread sets a value on its fiber and leaves it, and another thread switches to it. -/
def movedFiber (v : Word) : List (Task × LibCall) :=
  [(⟨1, 1⟩, .convertThreadToFiber), (⟨1, 2⟩, .convertThreadToFiber),
    (⟨1, 1⟩, .createFiber ⟨0x4000, 16, 0x400000, 7⟩), (⟨1, 1⟩, .flsAlloc),
    (⟨1, 1⟩, .flsSetValue 0 v), (⟨1, 1⟩, .switchToFiber 2), (⟨1, 2⟩, .switchToFiber 0)]

/-- The other thread reads the value, although it is the number of an error. -/
theorem fls_get_value_latest_movedFiber :
    ∃ h s, executeCalls [] (.initial (fun _ => 0) default (fun _ => flatMemory)) (movedFiber (-13)) =
        some (h, s) ∧
      ∀ sl : Slots (s.mem 1), ∃ o,
        flsGetValue .succeeds s.groups ⟨1, 2⟩ (s.cpu ⟨1, 2⟩) (s.mem 1) sl 0 = some o ∧
          o.ret = (-13 : Word).toInt := by
  have hc : (executeCalls [] (.initial (fun _ => 0) default (fun _ => flatMemory))
      (movedFiber (-13))).any (fun x => (replay x.1).current ⟨1, 2⟩ = some 0 ∧
        (replay x.1).slot 1 0 (0 : Word).toInt = some (some (-13))) = true := by decide +kernel
  cases he : executeCalls [] (.initial (fun _ => 0) default (fun _ => flatMemory))
      (movedFiber (-13)) with
  | none =>
    rw [he] at hc
    cases hc
  | some x =>
    obtain ⟨h, s⟩ := x
    rw [he] at hc
    obtain ⟨hcur, hslot⟩ : _ ∧ _ := of_decide_eq_true hc
    exact ⟨h, s, rfl, fun sl =>
      fls_get_value_latest (run_of_executeCalls _ .start he) hcur hslot .succeeds sl⟩

end Fibers
