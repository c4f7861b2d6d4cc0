import Fibers.WholeCalls

/-!
# The outcome of a switch

In every run of whole calls the outcome of a switch can be told from the registry alone, by
who is registered and who is on which fiber: no call leaves a lock taken or a state set on a
fiber that no thread is on.

## Main results

- `switch_outcome` — when a switch succeeds, fails or finds nothing, and what it changes
-/

namespace Fibers

variable {groups : Groups} {t : Task} {cpu : Cpu} {next : ℤ}

/-- The thread has a record in the group of its process. -/
def Registered (groups : Groups) (t : Task) : Prop :=
  ∃ tg, getGroup t.tgid groups = some tg ∧ tg.HasThread t.pid

/-- The fiber exists in the group. -/
def FiberExists (groups : Groups) (tgid fid : ℤ) : Prop :=
  ∃ tg, getGroup tgid groups = some tg ∧ tg.HasFiber fid

/-- Some thread of the group is on the fiber. -/
def Running (groups : Groups) (tgid fid : ℤ) : Prop :=
  ∃ tg pid, getGroup tgid groups = some tg ∧ tg.CurrentIs pid fid

/-- The group changes as given, and all others stay. -/
structure GroupBecomes (groups : Groups) (tgid : ℤ) (tg' : ThreadGroup) (g : Groups) : Prop where
  group : getGroup tgid g = some tg'
  others : ∀ k, k ≠ tgid → getGroup k g = getGroup k groups

/-- What a successful switch of the thread `pid` from `old` to `new` changes in its group. -/
structure SwitchFrame (tg : ThreadGroup) (pid : ℤ) (cpu : Cpu) (old new : ℤ) (tg' : ThreadGroup) :
    Prop where
  fidCount : tg'.fidCount = tg.fidCount
  threads : ∀ p, getThread p tg' = if p = pid then some ⟨pid, new⟩ else getThread p tg
  fibers : ∀ k, getFiber k tg' =
    if k = new then (getFiber new tg).map (Fiber.entered pid cpu.utime)
    else if k = old then (getFiber old tg).map (Fiber.leave cpu)
    else getFiber k tg
  /-- the old fiber can be activated again -/
  released : ∃ f, getFiber old tg' = some f ∧ f.flock = false ∧ f.info.state = 0 ∧
    ∀ p, ¬ tg'.CurrentIs p old

/-- What a refused switch changes in the group. -/
structure RefusalFrame (tg : ThreadGroup) (target : ℤ) (tg' : ThreadGroup) : Prop where
  fidCount : tg'.fidCount = tg.fidCount
  threads : ∀ p, getThread p tg' = getThread p tg
  fibers : ∀ k, getFiber k tg' =
    if k = target then (getFiber target tg).map Fiber.countFailure else getFiber k tg

/-- The registry after a switch, by its result. -/
structure OutcomeFrame (groups : Groups) (t : Task) (cpu : Cpu) (next : ℤ) (g : Groups) (r : Ret) :
    Prop where
  success : r = .ok 0 → ∃ tg th tg', getGroup t.tgid groups = some tg ∧
    getThread t.pid tg = some th ∧ GroupBecomes groups t.tgid tg' g ∧
    SwitchFrame tg t.pid cpu th.currentFid next tg'
  refusal : r = .error .EAGAIN → ∃ tg tg', getGroup t.tgid groups = some tg ∧
    GroupBecomes groups t.tgid tg' g ∧ RefusalFrame tg next tg'
  nothing : r = .error .ESRCH → g = groups

theorem groupBecomes_storeGroup {tg tg' : ThreadGroup} (hg : getGroup t.tgid groups = some tg)
    (ht : tg'.tgid = tg.tgid) : GroupBecomes groups t.tgid tg' (storeGroup groups tg') where
  group := getGroup_storeGroup_self groups (ht.trans (tgid_of_getGroup hg)) hg
  others := fun _ hk =>
    getGroup_storeGroup_of_ne groups (ht.trans (tgid_of_getGroup hg)) hk.symm

theorem switchFrame_switched {tg : ThreadGroup} (h : AtRest tg) {th : Thread} {f : Fiber}
    (ht : getThread t.pid tg = some th) (hf : getFiber next tg = some f) (hl : f.flock = false) :
    SwitchFrame tg t.pid cpu th.currentFid next (switched tg t.pid cpu th.currentFid next) := by
  have hold : tg.CurrentIs t.pid th.currentFid := ⟨th, ht, rfl⟩
  have hne := h.old_ne_new hold hf hl
  obtain ⟨old, hlive⟩ := Option.isSome_iff_exists.mp (h.live _ _ hold)
  refine ⟨rfl, ?_, getFiber_switched hne, old.leave cpu, ?_, rfl, rfl, ?_⟩
  · intro p
    rw [getThread_switched, ht]
    simp [Thread.setCurrent, pid_of_getThread ht]
  · rw [getFiber_switched hne, if_neg hne, if_pos rfl, hlive]
    rfl
  · intro p hp
    rcases (currentIs_switched hold.hasThread).mp hp with ⟨-, hk⟩ | ⟨hpid, hk⟩
    · exact hne hk
    · exact hpid (h.distinct p t.pid _ hk hold)

/-- A switch by a thread of a group at rest. -/
theorem outcome_of_atRest {tg : ThreadGroup} (h : AtRest tg)
    (hg : getGroup t.tgid groups = some tg) {out : Groups × Cpu × Ret}
    (hout : doSwitchToFiber groups t cpu next = out) :
    (out.2.2 = .ok 0 ∧ tg.HasThread t.pid ∧ tg.HasFiber next ∧ (∀ p, ¬ tg.CurrentIs p next) ∨
      out.2.2 = .error .EAGAIN ∧ tg.HasThread t.pid ∧ (∃ p, tg.CurrentIs p next) ∨
      out.2.2 = .error .ESRCH ∧ ¬ (tg.HasThread t.pid ∧ tg.HasFiber next)) ∧
    OutcomeFrame groups t cpu next out.1 out.2.2 := by
  rw [doSwitchToFiber_eq h hg] at hout
  split at hout
  · next th f ht hf =>
    have hthread : tg.HasThread t.pid := by simp [ThreadGroup.HasThread, ht]
    have hfiber : tg.HasFiber next := by simp [ThreadGroup.HasFiber, hf]
    split at hout
    · next hl =>
      subst hout
      refine ⟨.inr (.inl ⟨rfl, hthread, (h.locked_iff next f hf).mp hl⟩), ?_, ?_, ?_⟩
      · rintro ⟨⟩
      · intro _
        exact ⟨tg, _, hg, groupBecomes_storeGroup hg rfl, rfl, fun _ => rfl,
          getFiber_onFiber tg next _ _⟩
      · rintro ⟨⟩
    · next hl =>
      have hl : f.flock = false := by simpa using hl
      subst hout
      refine ⟨.inl ⟨rfl, hthread, hfiber, ?_⟩, ?_, ?_, ?_⟩
      · intro p hp
        rw [(h.locked_iff next f hf).mpr ⟨p, hp⟩] at hl
        cases hl
      · intro _
        exact ⟨tg, th, _, hg, ht, groupBecomes_storeGroup hg rfl, switchFrame_switched h ht hf hl⟩
      · rintro ⟨⟩
      · rintro ⟨⟩
  · next hnone =>
    subst hout
    refine ⟨.inr (.inr ⟨rfl, ?_⟩), ?_, ?_, fun _ => rfl⟩
    · rintro ⟨ht, hf⟩
      obtain ⟨th, ht⟩ := Option.isSome_iff_exists.mp ht
      obtain ⟨f, hf⟩ := Option.isSome_iff_exists.mp hf
      exact hnone th f ht hf
    · rintro ⟨⟩
    · rintro ⟨⟩

/-- In every run of whole calls: the exact outcome of a switch, and what it changes. -/
theorem switch_outcome {hash : ℤ → Bucket} {h : CallHistory}
    (hr : Run CallStep (.init hash) h groups) (t : Task) (cpu : Cpu) (next : ℤ)
    {g : Groups} {cpu' : Cpu} {r : Ret} (hout : doSwitchToFiber groups t cpu next = (g, cpu', r)) :
    (r = .ok 0 ↔ Registered groups t ∧ FiberExists groups t.tgid next ∧
      ¬ Running groups t.tgid next) ∧
    (r = .error .EAGAIN ↔ Registered groups t ∧ Running groups t.tgid next) ∧
    (r ≠ .ok 0 → r ≠ .error .EAGAIN → r = .error .ESRCH) ∧
    OutcomeFrame groups t cpu next g r := by
  have hrest := atRest_of_run hr
  cases hg : getGroup t.tgid groups with
  | none =>
    obtain ⟨rfl, rfl, rfl⟩ : groups = g ∧ cpu = cpu' ∧ Except.error Errno.ESRCH = r := by
      simpa [doSwitchToFiber, hg] using hout
    refine ⟨?_, ?_, fun _ _ => rfl, ?_, ?_, fun _ => rfl⟩
    · simp [Registered, hg]
    · simp [Registered, hg]
    · rintro ⟨⟩
    · rintro ⟨⟩
  | some tg =>
    obtain ⟨hcases, hframe⟩ := outcome_of_atRest (hrest.atRest _ tg hg) hg hout
    have hregistered : Registered groups t ↔ tg.HasThread t.pid := by simp [Registered, hg]
    have hexists : FiberExists groups t.tgid next ↔ tg.HasFiber next := by simp [FiberExists, hg]
    have hrunning : Running groups t.tgid next ↔ ∃ p, tg.CurrentIs p next := by
      simp [Running, hg]
    have hlive : (∃ p, tg.CurrentIs p next) → tg.HasFiber next := by
      rintro ⟨p, hp⟩
      exact (hrest.atRest _ tg hg).live p next hp
    rw [hregistered, hexists, hrunning]
    rcases hcases with ⟨hr, ht, hf, hidle⟩ | ⟨hr, ht, hrun⟩ | ⟨hr, hno⟩
    · -- nobody is on the fiber
      obtain rfl : r = .ok 0 := hr
      exact ⟨iff_of_true rfl ⟨ht, hf, not_exists.mpr hidle⟩,
        iff_of_false (by simp) (fun hrun => not_exists.mpr hidle hrun.2), fun h => absurd rfl h,
        hframe⟩
    · obtain rfl : r = .error .EAGAIN := hr
      exact ⟨iff_of_false (by simp) (fun hok => hok.2.2 hrun), iff_of_true rfl ⟨ht, hrun⟩,
        fun _ h => absurd rfl h, hframe⟩
    · obtain rfl : r = .error .ESRCH := hr
      exact ⟨iff_of_false (by simp) (fun hok => hno ⟨hok.1, hok.2.1⟩),
        iff_of_false (by simp) (fun hrun => hno ⟨hrun.1, hlive hrun.2⟩), fun _ _ => rfl, hframe⟩

/-- Two threads, and a third fiber that the first one has created and switched to. -/
def threeFibers : List DeviceCall :=
  [.call ⟨1, 1⟩ default .convertThreadToFiber 0, .call ⟨1, 2⟩ default .convertThreadToFiber 1,
    .call ⟨1, 1⟩ default (.createFiber ⟨0x4000, 16, 0x400000, 7⟩) 2,
    .call ⟨1, 1⟩ default (.switchToFiber 2) 0]

/-- The second thread can then switch to the fiber that the first one left. -/
theorem switch_outcome_leftFiber :
    ∃ h groups g cpu r, Run CallStep (.init (fun _ => 0)) h groups ∧
      doSwitchToFiber groups ⟨1, 2⟩ default 0 = (g, cpu, r) ∧ r.toLong = 0 ∧
      ((r = .ok 0 ↔ Registered groups ⟨1, 2⟩ ∧ FiberExists groups 1 0 ∧ ¬ Running groups 1 0) ∧
        (r = .error .EAGAIN ↔ Registered groups ⟨1, 2⟩ ∧ Running groups 1 0) ∧
        (r ≠ .ok 0 → r ≠ .error .EAGAIN → r = .error .ESRCH) ∧
        OutcomeFrame groups ⟨1, 2⟩ default 0 g r) := by
  obtain ⟨h, groups, he, hc⟩ := Run.exists_execute (fun g a => DeviceCall.apply g a)
    (.init (fun _ => 0)) threeFibers
    (fun _ groups => decide ((doSwitchToFiber groups ⟨1, 2⟩ default 0).2.2.toLong = 0))
    (by decide +kernel)
  have hr := run_of_applied _ he
  exact ⟨h, groups, _, _, _, hr, rfl, of_decide_eq_true hc,
    switch_outcome hr ⟨1, 2⟩ default 0 rfl⟩

end Fibers
