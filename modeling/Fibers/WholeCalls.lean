import Fibers.Storage

/-!
# Whole calls, one after the other

Every request is one step here, with registers and memory that its caller chooses freely, and
a release is a step too. Between the steps a group is at rest: a fiber is locked when and
only when a thread is on it, and every thread of the group is on a fiber of its own.

## Main results

- `doSwitchToFiber_eq` — the three ends of a switch in a group at rest
- `serve_cases` — what a request does to a registry whose groups are at rest
- `atRest_of_run` — all groups are at rest in every run of whole calls
-/

namespace Fibers

/-! ## Groups at rest -/

/-- What holds of a group when none of its threads is inside a call. -/
structure AtRest (tg : ThreadGroup) : Prop where
  numbered : Numbered tg
  live : ∀ pid fid, tg.CurrentIs pid fid → tg.HasFiber fid
  distinct : ∀ p q fid, tg.CurrentIs p fid → tg.CurrentIs q fid → p = q
  locked_iff : ∀ fid f, getFiber fid tg = some f → (f.flock = true ↔ ∃ pid, tg.CurrentIs pid fid)
  free : ∀ fid f, getFiber fid tg = some f → f.flock = false → f.info.state = 0

section Writes

variable {tg : ThreadGroup} {pid fid : ℤ} {cpu : Cpu}

theorem AtRest.fresh (hash : ℤ → Bucket) (tgid : ℤ) : AtRest (freshGroup hash tgid) where
  numbered := numbered_freshGroup hash tgid
  live := by simp [ThreadGroup.CurrentIs]
  distinct := by simp [ThreadGroup.CurrentIs]
  locked_iff := by simp
  free := by simp

/-- A write that neither locks, unlocks nor activates. -/
theorem AtRest.write (h : AtRest tg) {g : Fiber → Fiber} {hg : ∀ f, (g f).fid = f.fid}
    (few : tg.fibers.size < 2 ^ 31)
    (hsame : ∀ f, (g f).flock = f.flock ∧ (g f).info.state = f.info.state) :
    AtRest (tg.onFiber fid g hg) := by
  have hfiber : ∀ k f, getFiber k (tg.onFiber fid g hg) = some f →
      ∃ f₀, getFiber k tg = some f₀ ∧ f.flock = f₀.flock ∧ f.info.state = f₀.info.state := by
    intro k f hf
    rw [getFiber_onFiber] at hf
    split at hf
    · next hk =>
      obtain ⟨f₀, hf₀, rfl⟩ := Option.map_eq_some_iff.mp hf
      exact ⟨f₀, hk ▸ hf₀, hsame f₀⟩
    · exact ⟨f, hf, rfl, rfl⟩
  have heffect : GroupEffect tg 0 (tg.onFiber fid g hg) := .writeFiber fid g hg
  have hsize : (tg.onFiber fid g hg).fibers.size < 2 ^ 31 := by rwa [size_onFiber]
  refine ⟨h.numbered.effect heffect hsize, ?_, h.distinct, ?_, ?_⟩
  · intro p k hk
    exact heffect.getFiber_isSome (h.live p k hk)
  · intro k f hf
    obtain ⟨f₀, hf₀, hlock, -⟩ := hfiber k f hf
    rw [hlock]
    exact h.locked_iff k f₀ hf₀
  · intro k f hf hlock
    obtain ⟨f₀, hf₀, hl, hs⟩ := hfiber k f hf
    rw [hs]
    exact h.free k f₀ hf₀ (hl ▸ hlock)

theorem AtRest.nextFid_fresh (h : AtRest tg) (few : tg.fibers.size < 2 ^ 31) :
    getFiber (nextFid tg) tg = none := h.numbered.getFiber_nextFid few

/-- A thread that is on a fiber is not on one yet to come. -/
theorem AtRest.not_current_nextFid (h : AtRest tg) (few : tg.fibers.size < 2 ^ 31) (p : ℤ) :
    ¬ tg.CurrentIs p (nextFid tg) := by
  intro hp
  have hlive := h.live p _ hp
  rw [ThreadGroup.HasFiber, h.nextFid_fresh few] at hlive
  cases hlive

theorem currentIs_converted {p k : ℤ} (hn : getThread pid tg = none) :
    (converted tg pid cpu).CurrentIs p k ↔ p = pid ∧ k = nextFid tg ∨ tg.CurrentIs p k := by
  unfold ThreadGroup.CurrentIs
  by_cases hp : p = pid
  · subst hp
    simp [hn, eq_comm]
  · simp [hp]

theorem AtRest.converted (h : AtRest tg) (hn : getThread pid tg = none)
    (few : (converted tg pid cpu).fibers.size < 2 ^ 31) : AtRest (converted tg pid cpu) := by
  have few₀ : tg.fibers.size < 2 ^ 31 := lt_of_le_of_lt (converted_effects hn cpu).size_le few
  have hnew := h.not_current_nextFid few₀
  refine ⟨(converted_effects hn cpu).numbered h.numbered few, ?_, ?_, ?_, ?_⟩
  · intro p k hp
    rcases (currentIs_converted hn).mp hp with ⟨-, rfl⟩ | hp
    · simp [ThreadGroup.HasFiber]
    · exact (converted_effects hn cpu).getFiber_isSome (h.live p k hp)
  · intro p q k hp hq
    rcases (currentIs_converted hn).mp hp with ⟨rfl, rfl⟩ | hp
    · rcases (currentIs_converted hn).mp hq with ⟨rfl, -⟩ | hq
      · rfl
      · exact absurd hq (hnew q)
    · rcases (currentIs_converted hn).mp hq with ⟨-, rfl⟩ | hq
      · exact absurd hp (hnew p)
      · exact h.distinct p q k hp hq
  · intro k f hf
    rw [getFiber_converted] at hf
    split at hf
    · next hk =>
      cases hf
      exact iff_of_true rfl ⟨pid, (currentIs_converted hn).mpr (.inl ⟨rfl, hk⟩)⟩
    · next hk =>
      rw [h.locked_iff k f hf]
      refine exists_congr (fun p => ?_)
      rw [currentIs_converted hn]
      simp [hk]
  · intro k f hf hl
    rw [getFiber_converted] at hf
    split at hf
    · cases hf
      cases hl
    · exact h.free k f hf hl

theorem AtRest.created (h : AtRest tg) {t : Thread} {a : FibArgs}
    (few : (created tg t cpu a).fibers.size < 2 ^ 31) : AtRest (created tg t cpu a) := by
  have heffects := created_effects tg 0 t cpu a
  have hnew := h.not_current_nextFid (lt_of_le_of_lt heffects.size_le few)
  refine ⟨heffects.numbered h.numbered few, ?_, h.distinct, ?_, ?_⟩
  · intro p k hp
    exact heffects.getFiber_isSome (h.live p k hp)
  · intro k f hf
    rw [getFiber_created] at hf
    split at hf
    · next hk =>
      subst hk
      cases hf
      refine iff_of_false Bool.false_ne_true ?_
      rintro ⟨p, hp⟩
      exact hnew p hp
    · exact h.locked_iff k f hf
  · intro k f hf hl
    rw [getFiber_created] at hf
    split at hf
    · cases hf
      rfl
    · exact h.free k f hf hl

end Writes

/-! ## A switch in a group at rest -/

/-- The fiber that a switch enters. -/
def Fiber.entered (pid : ℤ) (utime : Word) (f : Fiber) : Fiber :=
  ((f.lock.setState pid).setSuccessful (f.info.successfulActivations + 1)).setActivationTime utime

theorem Fiber.leave_fid (cpu : Cpu) (f : Fiber) : (f.leave cpu).fid = f.fid := rfl

/-- The group after a switch from the fiber `old` to the fiber `new`. -/
def switched (tg : ThreadGroup) (pid : ℤ) (cpu : Cpu) (old new : ℤ) : ThreadGroup :=
  (activateFiberFromThread (tg.onFiber new Fiber.lock) new pid cpu.utime).onFiber old
    (Fiber.leave cpu) (Fiber.leave_fid cpu)

@[simp] theorem tgid_switched (tg : ThreadGroup) (pid : ℤ) (cpu : Cpu) (old new : ℤ) :
    (switched tg pid cpu old new).tgid = tg.tgid := rfl

section Switch

variable {tg : ThreadGroup} {pid old new : ℤ} {cpu : Cpu}

theorem getFiber_switched (hne : old ≠ new) (k : ℤ) :
    getFiber k (switched tg pid cpu old new) =
      if k = new then (getFiber new tg).map (Fiber.entered pid cpu.utime)
      else if k = old then (getFiber old tg).map (Fiber.leave cpu)
      else getFiber k tg := by
  unfold switched activateFiberFromThread
  rw [getFiber_onFiber, getFiber_onThread, getFiber_onFiber, getFiber_onThread, getFiber_onFiber,
    getFiber_onFiber, getFiber_onFiber]
  by_cases hk : k = new
  · subst hk
    rw [if_neg hne.symm, if_pos rfl, if_pos rfl, getFiber_onFiber, if_pos rfl, Option.map_map]
    rfl
  · by_cases ho : k = old
    · simp [ho, hne]
    · simp [hk, ho]

theorem getThread_switched (p : ℤ) :
    getThread p (switched tg pid cpu old new) =
      if p = pid then (getThread pid tg).map (Thread.setCurrent new) else getThread p tg := by
  unfold switched activateFiberFromThread
  rw [getThread_onFiber, getThread_onThread, getThread_onFiber, getThread_onFiber,
    getThread_onFiber, getThread_onFiber]

theorem switched_effects (tg : ThreadGroup) (pid : ℤ) (cpu : Cpu) (old new : ℤ) :
    GroupEffects pid tg (switched tg pid cpu old new) :=
  .step (.writeFiber new Fiber.lock Fiber.keeps_fid) <|
  (activate_effects _ new pid cpu.utime).trans <|
  .step (.writeFiber old (Fiber.leave cpu) (Fiber.leave_fid cpu)) <|
  .refl _

theorem currentIs_switched {p k : ℤ} (ht : tg.HasThread pid) :
    (switched tg pid cpu old new).CurrentIs p k ↔
      p = pid ∧ k = new ∨ p ≠ pid ∧ tg.CurrentIs p k := by
  obtain ⟨th, ht⟩ := Option.isSome_iff_exists.mp ht
  unfold ThreadGroup.CurrentIs
  rw [getThread_switched]
  by_cases hp : p = pid
  · simp [hp, ht, eq_comm]
  · simp [hp]

theorem ThreadGroup.CurrentIs.unique {p k k' : ℤ} (h : tg.CurrentIs p k) (h' : tg.CurrentIs p k') :
    k = k' := by
  obtain ⟨t, ht, rfl⟩ := h
  obtain ⟨t', ht', rfl⟩ := h'
  obtain rfl : t = t' := Option.some.inj (ht.symm.trans ht')
  rfl

/-- The fiber of a thread is not the free one that it switches to. -/
theorem AtRest.old_ne_new (h : AtRest tg) (hold : tg.CurrentIs pid old) {f : Fiber}
    (hnew : getFiber new tg = some f) (hfree : f.flock = false) : old ≠ new := by
  rintro rfl
  have hlocked := (h.locked_iff _ f hnew).mpr ⟨pid, hold⟩
  rw [hfree] at hlocked
  cases hlocked

theorem AtRest.switched (h : AtRest tg) (hold : tg.CurrentIs pid old) {f : Fiber}
    (hnew : getFiber new tg = some f) (hfree : f.flock = false)
    (few : (switched tg pid cpu old new).fibers.size < 2 ^ 31) :
    AtRest (switched tg pid cpu old new) := by
  have hne := h.old_ne_new hold hnew hfree
  have heffects := switched_effects tg pid cpu old new
  have hidle : ∀ p, ¬ tg.CurrentIs p new := by
    intro p hp
    have hlocked := (h.locked_iff new f hnew).mpr ⟨p, hp⟩
    rw [hfree] at hlocked
    cases hlocked
  have hcur : ∀ {p k}, (Fibers.switched tg pid cpu old new).CurrentIs p k ↔
      p = pid ∧ k = new ∨ p ≠ pid ∧ tg.CurrentIs p k := currentIs_switched hold.hasThread
  refine ⟨heffects.numbered h.numbered few, ?_, ?_, ?_, ?_⟩
  · intro p k hp
    rcases hcur.mp hp with ⟨-, rfl⟩ | ⟨-, hp⟩
    · exact heffects.getFiber_isSome (by rw [hnew]; rfl)
    · exact heffects.getFiber_isSome (h.live p k hp)
  · intro p q k hp hq
    rcases hcur.mp hp with ⟨rfl, rfl⟩ | ⟨-, hp'⟩
    · rcases hcur.mp hq with ⟨rfl, -⟩ | ⟨-, hq'⟩
      · rfl
      · exact absurd hq' (hidle q)
    · rcases hcur.mp hq with ⟨-, rfl⟩ | ⟨-, hq'⟩
      · exact absurd hp' (hidle p)
      · exact h.distinct p q k hp' hq'
  · intro k g hg
    rw [getFiber_switched hne] at hg
    by_cases hkn : k = new
    · -- the thread is on the new fiber
      rw [if_pos hkn] at hg
      obtain ⟨g₀, -, rfl⟩ := Option.map_eq_some_iff.mp hg
      exact iff_of_true rfl ⟨pid, hcur.mpr (.inl ⟨rfl, hkn⟩)⟩
    · rw [if_neg hkn] at hg
      by_cases hko : k = old
      · -- and no other thread was on the old one
        rw [if_pos hko] at hg
        obtain ⟨g₀, -, rfl⟩ := Option.map_eq_some_iff.mp hg
        refine iff_of_false Bool.false_ne_true ?_
        rintro ⟨p, hp⟩
        rcases hcur.mp hp with ⟨-, hk⟩ | ⟨hp, hk⟩
        · exact hkn hk
        · exact hp (h.distinct p pid old (hko ▸ hk) hold)
      · rw [if_neg hko] at hg
        rw [h.locked_iff k g hg]
        refine exists_congr (fun p => ?_)
        rw [hcur]
        constructor
        · intro hp
          refine .inr ⟨?_, hp⟩
          rintro rfl
          exact hko (hp.unique hold)
        · rintro (⟨-, hk⟩ | ⟨-, hp⟩)
          · exact absurd hk hkn
          · exact hp
  · intro k g hg hl
    rw [getFiber_switched hne] at hg
    split at hg
    · obtain ⟨g₀, -, rfl⟩ := Option.map_eq_some_iff.mp hg
      cases hl
    · split at hg
      · obtain ⟨g₀, -, rfl⟩ := Option.map_eq_some_iff.mp hg
        rfl
      · exact h.free k g hg hl

/-- A switch from the fiber `old` to the free fiber `f`, after its try-lock. -/
theorem switchTo_eq {oldF f : Fiber} (hne : oldF.fid ≠ f.fid) (hnew : getFiber f.fid tg = some f) :
    switchTo (tg.onFiber f.fid Fiber.lock) pid cpu oldF f =
      (switched tg pid cpu oldF.fid f.fid,
        { cpu with regs := f.context.regs, fpu := f.context.fpu }) := by
  have hloaded : getFiber f.fid (switched tg pid cpu oldF.fid f.fid) =
      some (f.entered pid cpu.utime) := by
    rw [getFiber_switched hne, if_pos rfl, hnew]
    rfl
  have hcpu : (switchTo (tg.onFiber f.fid Fiber.lock) pid cpu oldF f).2 =
      { cpu with regs := f.context.regs, fpu := f.context.fpu } := by
    unfold switchTo
    dsimp only
    split
    · next hnone => cases hloaded.symm.trans hnone
    · next f' hsome =>
      obtain rfl : _ = f' := Option.some.inj (hloaded.symm.trans hsome)
      rfl
  exact Prod.ext (switchTo_fst _ pid cpu oldF f) hcpu

/-- The three ends of a switch in a group at rest. -/
theorem doSwitchToFiber_eq {groups : Groups} {t : Task} (h : AtRest tg)
    (hg : getGroup t.tgid groups = some tg) (next : ℤ) :
    doSwitchToFiber groups t cpu next =
      match getThread t.pid tg, getFiber next tg with
      | some th, some f =>
        if f.flock then
          (storeGroup groups (tg.onFiber next Fiber.countFailure), cpu, .error .EAGAIN)
        else
          (storeGroup groups (switched tg t.pid cpu th.currentFid next),
            { cpu with regs := f.context.regs, fpu := f.context.fpu }, .ok 0)
      | _, _ => (groups, cpu, .error .ESRCH) := by
  unfold doSwitchToFiber
  simp only [hg]
  cases ht : getThread t.pid tg with
  | none => rfl
  | some th =>
    cases hnew : getFiber next tg with
    | none => rfl
    | some f =>
      have hfid := fid_of_getFiber hnew
      subst hfid
      cases hl : f.flock with
      | true => simp [tryEnter, hl]
      | false =>
        have hstate := h.free f.fid f hnew hl
        have hold : tg.CurrentIs t.pid th.currentFid := ⟨th, ht, rfl⟩
        have hne := h.old_ne_new hold hnew hl
        obtain ⟨old, hlive⟩ := Option.isSome_iff_exists.mp (h.live _ _ hold)
        have hofid := fid_of_getFiber hlive
        have henter : tryEnter tg f = (tg.onFiber f.fid Fiber.lock, true) := by
          simp [tryEnter, hl, hstate]
        have hlive' : getFiber th.currentFid (tg.onFiber f.fid Fiber.lock) = some old := by
          rw [getFiber_onFiber, if_neg hne, hlive]
        rw [← hofid] at hne hlive'
        simp only [henter, ← hofid, hlive', switchTo_eq hne hnew]
        rw [if_neg (by simp [hl])]

end Switch

/-! ## What a request does -/

/-- The fiber that a call puts its thread on, by its request and its result. -/
def Request.activated (r : Request) (ret : ℤ) : Option ℤ :=
  if ret < 0 then none
  else
    match r with
    | .convertThreadToFiber => some ret
    | .switchToFiber fid => some fid
    | _ => none

/-- The effect of a request on a registry whose groups are at rest. -/
inductive Served (groups : Groups) (t : Task) (cpu : Cpu) : Request → ℤ → Groups → Prop
  | same {r ret} (h : r.activated ret = none) : Served groups t cpu r ret groups
  | converted (hn : getThread t.pid (groupOf groups t.tgid) = none)
      (hpos : 0 ≤ nextFid (groupOf groups t.tgid)) :
      Served groups t cpu .convertThreadToFiber (nextFid (groupOf groups t.tgid))
        (storeGroup (lookupOrGenerate groups t.tgid)
          (Fibers.converted (groupOf groups t.tgid) t.pid cpu))
  | created {a tg th} (ret : ℤ) (hg : getGroup t.tgid groups = some tg) :
      Served groups t cpu (.createFiber a) ret (storeGroup groups (Fibers.created tg th cpu a))
  | refused {next tg f} (hg : getGroup t.tgid groups = some tg) (hf : getFiber next tg = some f) :
      Served groups t cpu (.switchToFiber next) (-Errno.EAGAIN.code)
        (storeGroup groups (tg.onFiber next Fiber.countFailure))
  | switched {next tg th f} (hg : getGroup t.tgid groups = some tg)
      (ht : getThread t.pid tg = some th) (hf : getFiber next tg = some f) (hl : f.flock = false) :
      Served groups t cpu (.switchToFiber next) 0
        (storeGroup groups (Fibers.switched tg t.pid cpu th.currentFid next))
  | stored {r ret tg fid g hg} (h : r.activated ret = none)
      (hgroup : getGroup t.tgid groups = some tg) (hfls : ∀ f : Fiber, ∃ x, g f = { f with fls := x }) :
      Served groups t cpu r ret (storeGroup groups (tg.onFiber fid g hg))

/-- All groups are at rest. -/
structure RegistryAtRest (groups : Groups) : Prop where
  unique : groups.Unique
  atRest : ∀ tgid tg, getGroup tgid groups = some tg → AtRest tg

section Serve

variable {groups : Groups} {t : Task} {cpu : Cpu} {mem : UserMemory} {k : Kmalloc}

theorem activated_of_neg {r : Request} {ret : ℤ} (h : ret < 0) : r.activated ret = none := if_pos h

theorem activated_error (r : Request) (e : Errno) : r.activated (Ret.toLong (.error e)) = none :=
  activated_of_neg (by
    have := e.code_pos
    show -e.code < 0
    omega)

theorem RegistryAtRest.groupOf (h : RegistryAtRest groups) (tgid : ℤ) :
    AtRest (groupOf groups tgid) := by
  unfold Fibers.groupOf
  cases hg : getGroup tgid groups with
  | none => exact .fresh groups.hash tgid
  | some tg => exact h.atRest tgid tg hg

theorem tgid_converted_groupOf (groups : Groups) (t : Task) (cpu : Cpu) :
    (Fibers.converted (Fibers.groupOf groups t.tgid) t.pid cpu).tgid = t.tgid :=
  (tgid_converted _ _ _).trans (tgid_groupOf _ _)

/-- The group that a conversion leaves. -/
theorem getGroup_storeGroup_converted (groups : Groups) (t : Task) (cpu : Cpu) :
    getGroup t.tgid (storeGroup (lookupOrGenerate groups t.tgid)
      (Fibers.converted (Fibers.groupOf groups t.tgid) t.pid cpu)) =
      some (Fibers.converted (Fibers.groupOf groups t.tgid) t.pid cpu) := by
  have hg : getGroup t.tgid (lookupOrGenerate groups t.tgid) =
      some (Fibers.groupOf groups t.tgid) := by
    rw [getGroup_lookupOrGenerate, if_pos rfl]
  exact getGroup_storeGroup_self _ (tgid_converted_groupOf groups t cpu) hg

theorem served_convert (h : RegistryAtRest groups) {g : Groups} {r : Ret}
    (ho : doConvertThreadToFiber k groups t cpu = some (g, r))
    (few : ∀ tg, getGroup t.tgid g = some tg → tg.fibers.size < 2 ^ 31) :
    Served groups t cpu .convertThreadToFiber r.toLong g := by
  rw [doConvertThreadToFiber_eq] at ho
  split at ho
  · cases ho
  · split at ho
    · next ht =>
      cases ho
      -- a group with a thread is in the table
      obtain ⟨tg, hg⟩ : ∃ tg, getGroup t.tgid groups = some tg := by
        cases hg : getGroup t.tgid groups with
        | none => simp [Fibers.groupOf, hg] at ht
        | some tg => exact ⟨tg, rfl⟩
      rw [lookupOrGenerate_of_some hg]
      exact .same (activated_error _ _)
    · next ht =>
      split at ho
      · cases ho
        have hsize := lt_of_le_of_lt (converted_effects ht cpu).size_le
          (few _ (getGroup_storeGroup_converted groups t cpu))
        refine .converted ht ?_
        rw [(h.groupOf t.tgid).numbered.nextFid_eq hsize]
        omega
      · cases ho

theorem served_create {g : Groups} {r : Ret} {a : FibArgs}
    (ho : doCreateFiber k groups t cpu a = some (g, r)) :
    Served groups t cpu (.createFiber a) r.toLong g := by
  rw [doCreateFiber_eq] at ho
  split at ho
  · cases ho
    exact .same (activated_error _ _)
  · next tg hg =>
    split at ho
    · cases ho
      exact .same (activated_error _ _)
    · split at ho
      · cases ho
        exact .created _ hg
      · cases ho

theorem served_switch (h : RegistryAtRest groups) (next : ℤ) :
    Served groups t cpu (.switchToFiber next) (doSwitchToFiber groups t cpu next).2.2.toLong
      (doSwitchToFiber groups t cpu next).1 := by
  cases hg : getGroup t.tgid groups with
  | none =>
    unfold doSwitchToFiber
    rw [hg]
    exact .same (activated_error _ _)
  | some tg =>
    rw [doSwitchToFiber_eq (h.atRest t.tgid tg hg) hg]
    split
    · next th f ht hf =>
      split
      · exact .refused hg hf
      · next hl => exact .switched hg ht hf (by simpa using hl)
    · exact .same (activated_error _ _)

theorem served_flsAlloc (ret : ℤ) : Served groups t cpu .flsAlloc ret (doFlsAlloc groups t).1 := by
  have hidle : Request.flsAlloc.activated ret = none := by simp [Request.activated]
  unfold doFlsAlloc
  split
  · exact .same hidle
  · next tg f hc =>
    dsimp only
    split
    · exact .stored hidle (group_of_currentFiber hc) (fun _ => ⟨_, rfl⟩)
    · exact .same hidle

theorem served_flsFree (idx ret : ℤ) :
    Served groups t cpu (.flsFree idx) ret (doFlsFree groups t idx).1 := by
  have hidle : (Request.flsFree idx).activated ret = none := by simp [Request.activated]
  unfold doFlsFree
  split
  · exact .same hidle
  · split
    · exact .same hidle
    · next tg f hc =>
      split
      · exact .stored hidle (group_of_currentFiber hc) (fun _ => ⟨_, rfl⟩)
      · exact .same hidle

theorem served_flsSetValue (idx ret : ℤ) (value : Word) :
    Served groups t cpu (.flsSetValue idx value) ret (doFlsSetValue groups t idx value).1 := by
  have hidle : (Request.flsSetValue idx value).activated ret = none := by simp [Request.activated]
  unfold doFlsSetValue
  split
  · exact .same hidle
  · split
    · exact .same hidle
    · next tg f hc =>
      split
      · exact .stored hidle (group_of_currentFiber hc) (fun _ => ⟨_, rfl⟩)
      · exact .same hidle

/-- What a request does to a registry whose groups are at rest. -/
theorem serve_cases (h : RegistryAtRest groups) {r : Request} {o : Outcome}
    (ho : r.serve k groups t cpu mem = some o)
    (few : ∀ tg, getGroup t.tgid o.groups = some tg → tg.fibers.size < 2 ^ 31) :
    Served groups t cpu r o.ret o.groups := by
  cases r with
  | unknown =>
    cases ho
    exact .same (by simp [Request.activated])
  | unreadable =>
    cases ho
    exact .same (by simp [Request.activated])
  | convertThreadToFiber =>
    obtain ⟨⟨g, r⟩, hcall, rfl⟩ := Option.map_eq_some_iff.mp ho
    exact served_convert h hcall few
  | createFiber a =>
    obtain ⟨⟨g, r⟩, hcall, rfl⟩ := Option.map_eq_some_iff.mp ho
    exact served_create hcall
  | switchToFiber fid =>
    cases ho
    exact served_switch h fid
  | flsAlloc =>
    cases ho
    exact served_flsAlloc _
  | flsGetValue idx value =>
    cases ho
    exact .same (by simp [Request.activated])
  | flsFree idx =>
    cases ho
    exact served_flsFree idx _
  | flsSetValue idx value =>
    cases ho
    exact served_flsSetValue idx _ value

end Serve

/-! ## Runs of whole calls -/

/-- A request that a thread makes, with its registers and the result, or the release of the device
by a process. -/
inductive DeviceCall
  | call (t : Task) (cpu : Cpu) (r : Request) (ret : ℤ)
  | release (t : Task)

/-- A request whose allocations succeed, by a caller with any memory, whose group has fewer than 2^31
fibers, or a release. -/
inductive CallStep (groups : Groups) : DeviceCall → Groups → Prop
  | call {t : Task} {cpu : Cpu} {r : Request} {o : Outcome} (mem : UserMemory)
      (run : r.serve .succeeds groups t cpu mem = some o)
      (few : ∀ tg, getGroup t.tgid o.groups = some tg → tg.fibers.size < 2 ^ 31) :
      CallStep groups (.call t cpu r o.ret) o.groups
  | release (t : Task) : CallStep groups (.release t) (fibersRelease groups t)

abbrev CallHistory := List (Entry Groups DeviceCall)

section Runs

variable {groups g : Groups} {t : Task} {cpu : Cpu} {r : Request} {ret : ℤ}

theorem Served.unique (hs : Served groups t cpu r ret g) (hu : groups.Unique) : g.Unique := by
  cases hs with
  | same _ => exact hu
  | converted _ _ => exact unique_storeGroup (unique_lookupOrGenerate hu _) _
  | created _ _ | refused _ _ | switched _ _ _ _ | stored _ _ _ => exact unique_storeGroup hu _

/-- A request does nothing to the other groups. -/
theorem Served.elsewhere (hs : Served groups t cpu r ret g) {tgid : ℤ} (hne : tgid ≠ t.tgid) :
    getGroup tgid g = getGroup tgid groups := by
  have hstore : ∀ {tg tg' : ThreadGroup}, getGroup t.tgid groups = some tg → tg'.tgid = tg.tgid →
      getGroup tgid (storeGroup groups tg') = getGroup tgid groups := fun hg ht =>
    getGroup_storeGroup_of_ne groups (ht.trans (tgid_of_getGroup hg)) hne.symm
  cases hs with
  | same _ => rfl
  | converted _ _ =>
    rw [getGroup_storeGroup_of_ne _ (tgid_converted_groupOf groups t cpu) hne.symm,
      getGroup_lookupOrGenerate_of_ne _ hne.symm]
  | created _ hg => exact hstore hg rfl
  | refused hg _ => exact hstore hg rfl
  | switched hg _ _ _ => exact hstore hg rfl
  | stored _ hg _ => exact hstore hg rfl

theorem Served.atRest (hs : Served groups t cpu r ret g) (h : RegistryAtRest groups)
    (few : ∀ tg, getGroup t.tgid g = some tg → tg.fibers.size < 2 ^ 31) : RegistryAtRest g := by
  refine ⟨hs.unique h.unique, ?_⟩
  intro tgid tg' hg'
  by_cases hne : tgid = t.tgid
  · subst hne
    have few' := few _ hg'
    have hstore : ∀ {tg tg₁ : ThreadGroup}, getGroup t.tgid groups = some tg →
        getGroup t.tgid (storeGroup groups tg₁) = some tg' → tg₁.tgid = tg.tgid → tg₁ = tg' := by
      intro tg tg₁ hg h₁ ht
      rw [getGroup_storeGroup_self groups (ht.trans (tgid_of_getGroup hg)) hg] at h₁
      exact Option.some.inj h₁
    cases hs with
    | same _ => exact h.atRest _ _ hg'
    | converted hn _ =>
      rw [getGroup_storeGroup_converted] at hg'
      cases hg'
      exact (h.groupOf t.tgid).converted hn few'
    | created _ hg =>
      obtain rfl := hstore hg hg' rfl
      exact (h.atRest _ _ hg).created few'
    | refused hg _ =>
      obtain rfl := hstore hg hg' rfl
      rw [size_onFiber] at few'
      exact (h.atRest _ _ hg).write few' (fun _ => ⟨rfl, rfl⟩)
    | switched hg ht hf hl =>
      obtain rfl := hstore hg hg' rfl
      exact (h.atRest _ _ hg).switched ⟨_, ht, rfl⟩ hf hl few'
    | stored _ hg hfls =>
      obtain rfl := hstore hg hg' rfl
      rw [size_onFiber] at few'
      refine (h.atRest _ _ hg).write few' (fun f => ?_)
      obtain ⟨x, hx⟩ := hfls f
      rw [hx]
      exact ⟨rfl, rfl⟩
  · rw [hs.elsewhere hne] at hg'
    exact h.atRest tgid tg' hg'

theorem CallStep.atRest {a : DeviceCall} (hs : CallStep groups a g) (h : RegistryAtRest groups) :
    RegistryAtRest g := by
  cases hs with
  | call mem run few => exact (serve_cases h run few).atRest h few
  | release t =>
    refine ⟨unique_cleanupProcess h.unique t.tgid, ?_⟩
    intro tgid tg hg
    rw [fibersRelease, getGroup_cleanupProcess h.unique] at hg
    split at hg
    · cases hg
    · exact h.atRest tgid tg hg

/-- A call as a function, for runs of given calls by callers with the same memory. -/
def DeviceCall.apply (groups : Groups) : DeviceCall → Option Groups
  | .call t cpu r ret =>
    match r.serve .succeeds groups t cpu flatMemory with
    | none => none
    | some o =>
      if o.ret = ret ∧ (getGroup t.tgid o.groups).all (fun tg => tg.fibers.size < 2 ^ 31) then
        some o.groups
      else none
  | .release t => some (fibersRelease groups t)

theorem callStep_of_apply {a : DeviceCall} (ha : a.apply groups = some g) : CallStep groups a g := by
  cases a with
  | call t cpu r ret =>
    simp only [DeviceCall.apply] at ha
    split at ha
    · cases ha
    · next o ho =>
      split at ha
      · next hc =>
        obtain ⟨rfl, hfew⟩ := hc
        cases ha
        refine .call flatMemory ho ?_
        intro tg hg
        simpa [hg] using hfew
      · cases ha
  | release t =>
    cases ha
    exact .release t

theorem run_of_applied {hash : ℤ → Bucket} {h : CallHistory} (calls : List DeviceCall)
    (he : Run.execute (fun g a => a.apply g) [] (.init hash) calls = some (h, groups)) :
    Run CallStep (.init hash) h groups :=
  (Run.of_execute calls .start he).mono (fun _ _ _ => callStep_of_apply)

/-- All groups are at rest in every run of whole calls. -/
theorem atRest_of_run {hash : ℤ → Bucket} {h : CallHistory}
    (hr : Run CallStep (.init hash) h groups) : RegistryAtRest groups := by
  refine hr.invariant ⟨HashTable.unique_init hash, ?_⟩ (fun _ _ _ hi hs => hs.atRest hi)
  simp [getGroup]

end Runs

end Fibers
