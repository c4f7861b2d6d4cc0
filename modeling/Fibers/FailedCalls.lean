import Fibers.MutualExclusion

/-!
# What failed calls leave behind

All three calls are taken apart. A call that returns an error should have changed nothing
but the count of failed activations of its target. This holds of every run in which each
convert finds the lock of its new fiber free; the fiber is in the table before its own
thread locks it, so a switch of another thread can get there first, and the convert then
returns `-EAGAIN` with its thread and its fiber left in the tables.

## Main results

- `failed_calls_leave_no_trace` — when failed calls leave no trace, for every run
- `contended_convert_leaves_trace` — a run in which one does
-/

namespace Fibers

/-- The actions of a run in which all calls are taken apart. -/
def Action.callsApart : Action → Prop
  | .user _ _ => True
  | .call _ _ => True
  | .tick _ => True
  | _ => False

/-! ## The calls of a history -/

/-- The pieces of the call that the thread executes, the latest first. -/
def ownSteps (t : Task) : History → History
  | [] => []
  | e :: h =>
    match e.act with
    | .call t' _ => if t' = t then [] else ownSteps t h
    | .tick t' => if t' = t then e :: ownSteps t h else ownSteps t h
    | _ => ownSteps t h

/-- The call that the thread made last. -/
def lastCall (t : Task) : History → Option Call
  | [] => none
  | e :: h =>
    match e.act with
    | .call t' c => if t' = t then some c else lastCall t h
    | _ => lastCall t h

/-- The step changes nothing in the registry. -/
def Untouched (e : Entry Cfg Action) : Prop := e.post.groups = e.pre.groups

/-- The step changes nothing but the count of failed activations of one fiber of the thread's
group. -/
def OnlyCounts (t : Task) (fid : ℤ) (e : Entry Cfg Action) : Prop :=
  ∃ tg f, getGroup t.tgid e.pre.groups = some tg ∧ getFiber fid tg = some f ∧
    e.post.groups = storeGroup e.pre.groups (tg.onFiber fid Fiber.countFailure)

/-- The call that the step `e` ends has changed nothing but the count of failed activations of its
target. -/
structure NoTrace (t : Task) (past : History) (e : Entry Cfg Action) : Prop where
  earlier : ∀ x ∈ ownSteps t past, Untouched x
  last : Untouched e ∨ ∃ fid, lastCall t past = some (.switch fid) ∧ OnlyCounts t fid e

/-- Every call of the history that returned a negative error has left no trace. -/
def FailuresLeaveNoTrace (h : History) : Prop :=
  ∀ later e past t r, h = later ++ e :: past → e.act = .tick t →
    step e.pre e.act = some (e.post, some r) → r.toLong < 0 → NoTrace t past e

/-- No registered thread in user code is without a current fiber, and each taken lock is held. -/
structure Clean (s : Cfg) : Prop where
  current : ∀ t tg th, getGroup t.tgid s.groups = some tg → s.frame t = .user →
    getThread t.pid tg = some th → (getFiber th.currentFid tg).isSome = true
  held : ∀ tgid tg fid f, getGroup tgid s.groups = some tg → getFiber fid tg = some f →
    f.flock = true → ∃ pid, Holds tg (fun pid => s.frame ⟨tgid, pid⟩) pid fid

/-- A convert that is about to try the lock of its new fiber, with the lock already taken. -/
def ContendedConvert (e : Entry Cfg Action) : Prop :=
  ∃ t fid tg, e.act = .tick t ∧ e.pre.frame t = .trylock .convert fid ∧
    getGroup t.tgid e.pre.groups = some tg ∧ tg.locked fid = true

/-! ## What a call has done so far -/

/-- The thread has a record. -/
def Cfg.Registered (s : Cfg) (t : Task) : Prop :=
  ∃ tg, getGroup t.tgid s.groups = some tg ∧ tg.HasThread t.pid

/-- What the steps of a call have done, by where the call is. -/
def CallTrace (registered : Prop) (own : History) (last : Option Call) : Frame → Prop
  | .convertGroup => own = []
  | .convertThread => (∀ x ∈ own, Untouched x) ∨ ¬ registered
  | .convertFiber => ∃ x ∈ own, ¬ Untouched x
  | .createLookup _ => own = []
  | .switchThread f => own = [] ∧ last = some (.switch f)
  | .switchTarget f => (∀ x ∈ own, Untouched x) ∧ last = some (.switch f)
  | .trylock .convert _ => ∃ x ∈ own, ¬ Untouched x
  | .trylock .switch f => (∀ x ∈ own, Untouched x) ∧ last = some (.switch f)
  | .check .convert _ => ∃ x ∈ own, ¬ Untouched x
  | .fail .convert _ => ∃ x ∈ own, ¬ Untouched x
  | .fail .switch f => (∀ x ∈ own, Untouched x) ∧ last = some (.switch f)
  | _ => True

theorem CallTrace.mono {R R' : Prop} {own : History} {last : Option Call} {fr : Frame}
    (h : CallTrace R own last fr) (hR : R' → R) : CallTrace R' own last fr := by
  cases fr with
  | convertThread => exact h.imp id (fun hn hr => hn (hR hr))
  | trylock c _ | check c _ | fail c _ => cases c <;> exact h
  | _ => exact h

section Steps

variable {s s' : Cfg} {t t' : Task} {h : History}

/-- A step of another thread does not register this one. -/
theorem registered_of_ne {tg : ThreadGroup} {p : Piece} (ht : t ≠ t')
    (hg : getGroup t'.tgid s.groups = some tg)
    (hp : piece tg t'.pid (s.cpu t') (s.frame t') = some p)
    (hr : (s.commit t' p).Registered t) : s.Registered t := by
  have htg := (piece_effect hp).tgid_eq.trans (tgid_of_getGroup hg)
  obtain ⟨tg', hg', ht'⟩ := hr
  by_cases hte : t'.tgid = t.tgid
  · have hpid : t.pid ≠ t'.pid := fun he => ht (by cases t; cases t'; simp_all)
    have hst : getGroup t.tgid (storeGroup s.groups p.tg) = some p.tg := by
      rw [← hte]
      exact getGroup_storeGroup_self _ htg hg
    obtain rfl : p.tg = tg' := Option.some.inj (hst.symm.trans hg')
    refine ⟨tg, by rw [← hte]; exact hg, ?_⟩
    rw [ThreadGroup.HasThread, (piece_effect hp).getThread_of_ne hpid] at ht'
    exact ht'
  · have hst : getGroup t.tgid (storeGroup s.groups p.tg) = getGroup t.tgid s.groups :=
      getGroup_storeGroup_of_ne _ htg hte
    exact ⟨tg', hst.symm.trans hg', ht'⟩

/-- The section under `plock` registers nobody. -/
theorem registered_of_plock (hr : ∃ tg, getGroup t.tgid (lookupOrGenerate s.groups t'.tgid) = some tg ∧
    tg.HasThread t.pid) : s.Registered t := by
  obtain ⟨tg, hg, ht⟩ := hr
  by_cases hte : t.tgid = t'.tgid
  · rw [getGroup_lookupOrGenerate, if_pos hte] at hg
    cases hg
    unfold groupOf at ht
    cases hg : getGroup t'.tgid s.groups with
    | none =>
      rw [hg] at ht
      simp [ThreadGroup.HasThread] at ht
    | some tg =>
      rw [hg] at ht
      exact ⟨tg, by rw [hte]; exact hg, ht⟩
  · rw [getGroup_lookupOrGenerate_of_ne _ (Ne.symm hte)] at hg
    exact ⟨tg, hg, ht⟩

/-- A piece that stores its group as it found it. -/
theorem untouched_of_same {tg : ThreadGroup} {p : Piece} {a : Action}
    (hg : getGroup t.tgid s.groups = some tg) (hp : p.tg = tg) :
    Untouched ⟨s, a, s.commit t p⟩ := by
  change storeGroup s.groups p.tg = s.groups
  rw [hp, storeGroup_self hg]

end Steps

/-- The next piece of the call itself. -/
theorem CallTrace.piece {tg : ThreadGroup} {frame : ℤ → Frame} {pid : ℤ} {cpu : Cpu} {p : Piece}
    {R R' : Prop} {own : History} {last : Option Call} {e : Entry Cfg Action}
    (h : CallTrace R own last (frame pid)) (hi : GroupInv tg frame)
    (hp : Fibers.piece tg pid cpu (frame pid) = some p)
    (same : p.tg = tg → Untouched e)
    (inserted : getThread pid tg = none → p.tg.HasThread pid → ¬ Untouched e) :
    CallTrace R' (e :: own) last p.frame := by
  have hmore : (∃ x ∈ own, ¬ Untouched x) → ∃ x ∈ e :: own, ¬ Untouched x := by
    rintro ⟨x, hx, hn⟩
    exact ⟨x, by simp [hx], hn⟩
  have hall : Untouched e → (∀ x ∈ own, Untouched x) → ∀ x ∈ e :: own, Untouched x := by
    intro he ho x hx
    rcases List.mem_cons.mp hx with rfl | hx
    · exact he
    · exact ho x hx
  generalize hfr : frame pid = fr at hp h
  cases piece_step hp with
  | convertThread hn =>
    exact ⟨e, by simp, inserted hn (by simp [Piece.goto, ThreadGroup.HasThread])⟩
  | convertFiber _ => exact hmore h
  | switchThread _ => exact ⟨hall (same rfl) (by simp [h.1]), h.2⟩
  | switchTarget _ => exact ⟨hall (same rfl) h.1, h.2⟩
  | @locked c =>
    cases c with
    | convert => exact hmore h
    | switch => exact ⟨hall (same rfl) h.1, h.2⟩
  | @lock c =>
    cases c with
    | convert => exact hmore h
    | switch => trivial
  | used hg hs => exact absurd (hi.state_of_check hfr hg) hs
  | _ => trivial

/-- The steps of the other threads do not touch a call. -/
theorem callTrace_of_ne {t t' : Task} {s s' : Cfg} {h : History} {a : Action} (ht : t ≠ t')
    (ha : (∃ cpu, a = .user t' cpu) ∨ (∃ c, a = .call t' c) ∨ a = .tick t')
    (hct : CallTrace (s.Registered t) (ownSteps t h) (lastCall t h) (s.frame t))
    (hf : s'.frame t = s.frame t) (hr : s'.Registered t → s.Registered t) :
    CallTrace (s'.Registered t) (ownSteps t (⟨s, a, s'⟩ :: h)) (lastCall t (⟨s, a, s'⟩ :: h))
      (s'.frame t) := by
  have ho : ownSteps t (⟨s, a, s'⟩ :: h) = ownSteps t h ∧
      lastCall t (⟨s, a, s'⟩ :: h) = lastCall t h := by
    rcases ha with ⟨cpu, rfl⟩ | ⟨c, rfl⟩ | rfl <;> simp [ownSteps, lastCall, Ne.symm ht]
  rw [ho.1, ho.2, hf]
  exact hct.mono hr

/-- Every step keeps what the calls of all threads have done. -/
theorem callTrace_step {s s' : Cfg} {a : Action} {r : Option Ret} {h : History} (hi : Inv s)
    (hs : StepCase s a r s') (ha : a.callsApart)
    (hct : ∀ t, CallTrace (s.Registered t) (ownSteps t h) (lastCall t h) (s.frame t)) (t : Task) :
    CallTrace (s'.Registered t) (ownSteps t (⟨s, a, s'⟩ :: h)) (lastCall t (⟨s, a, s'⟩ :: h))
      (s'.frame t) := by
  cases hs with
  | @user t' cpu hu => exact hct t
  | @call t' c hu =>
    by_cases ht : t = t'
    · subst ht
      simp only [ownSteps, lastCall, if_true, Function.update_self]
      cases c <;> simp [Call.entry, CallTrace]
    · exact callTrace_of_ne ht (Or.inr (Or.inl ⟨c, rfl⟩)) (hct t) (Function.update_of_ne ht _ _) id
  | @plock t' hf =>
    by_cases ht : t = t'
    · subst ht
      have hown := hct t
      rw [hf] at hown
      simp only [ownSteps, lastCall, if_true, Function.update_self]
      rw [show ownSteps t h = [] from hown]
      -- either the group was there already, or nobody is registered in it
      cases hg : getGroup t.tgid s.groups with
      | some tg =>
        left
        intro x hx
        cases List.mem_singleton.mp hx
        simp [Untouched, lookupOrGenerate, getOrGenerateGroup, hg]
      | none =>
        right
        intro hr
        obtain ⟨tg, hg', _⟩ := registered_of_plock hr
        rw [hg] at hg'
        cases hg'
    · exact callTrace_of_ne ht (Or.inr (Or.inr rfl)) (hct t) (Function.update_of_ne ht _ _)
        registered_of_plock
  | @noGroup t' hg hl =>
    by_cases ht : t = t'
    · subst ht
      simp only [Cfg.return, Function.update_self]
      trivial
    · exact callTrace_of_ne ht (Or.inr (Or.inr rfl)) (hct t) (Function.update_of_ne ht _ _) id
  | @piece t' tg p hg hp =>
    by_cases ht : t = t'
    · subst ht
      have hgi : GroupInv tg (fun pid => s.frame ⟨t.tgid, pid⟩) := (hi.views t.tgid).grouped tg hg
      have hst : getGroup t.tgid (storeGroup s.groups p.tg) = some p.tg :=
        getGroup_storeGroup_self _ ((piece_effect hp).tgid_eq.trans (tgid_of_getGroup hg)) hg
      simp only [ownSteps, lastCall, if_true, Cfg.commit, Function.update_self]
      refine CallTrace.piece (hct t) hgi hp ?_ ?_
      · exact fun hsame => untouched_of_same hg hsame
      · intro hn hthread hun
        have he : some p.tg = some tg := by
          rw [← hst, ← hg]
          exact congrArg (getGroup t.tgid) hun
        rw [Option.some.inj he, ThreadGroup.HasThread, hn] at hthread
        cases hthread
    · exact callTrace_of_ne ht (Or.inr (Or.inr rfl)) (hct t) (Function.update_of_ne ht _ _)
        (registered_of_ne ht hg hp)
  | convertAgain | convert | createUnknown | create | cleanup => exact ha.elim

/-- What every call has done so far, in every reachable configuration. -/
theorem callTrace_of_run {hash : ℤ → Bucket} {cpu : Task → Cpu} {h : History} {s : Cfg}
    (hr : Run (Step Action.callsApart) (Cfg.initial hash cpu) h s) (t : Task) :
    CallTrace (s.Registered t) (ownSteps t h) (lastCall t h) (s.frame t) := by
  have hii : Inv s ∧ ∀ t, CallTrace (s.Registered t) (ownSteps t h) (lastCall t h) (s.frame t) := by
    refine hr.induct (I := fun h s => Inv s ∧
      ∀ t, CallTrace (s.Registered t) (ownSteps t h) (lastCall t h) (s.frame t))
      ⟨Inv.initial hash cpu, fun _ => trivial⟩ ?_
    rintro h s a s' _ ⟨hi, hct⟩ hs
    obtain ⟨r, hstep⟩ := hs.fires
    exact ⟨hs.inv hi, callTrace_step hi (step_cases hstep) hs.allowed hct⟩
  exact hii.2 t

/-! ## Uncontended converts leave no trace -/

/-- A run without contended converts keeps all groups settled. -/
theorem settled_of_uncontended {hash : ℤ → Bucket} {cpu : Task → Cpu} {h : History} {s : Cfg}
    (hr : Run (Step Action.callsApart) (Cfg.initial hash cpu) h s)
    (hc : ∀ e ∈ h, ¬ ContendedConvert e) {tgid : ℤ} {tg : ThreadGroup}
    (hg : getGroup tgid s.groups = some tg) : Settled tg (fun pid => s.frame ⟨tgid, pid⟩) := by
  refine view_of_history (I := fun h v => (∀ e ∈ h, ¬ ContendedConvert e) →
    ∀ tg, v.tg = some tg → Settled tg v.frame) hr (fun _ _ => by simp) ?_ hc tg hg
  intro h e r ha hi ih few _ hstep hc
  refine hstep.settled hi (ih (fun x hx => hc x (by simp [hx]))) ?_ few
  intro pid fid tg hact hf hg
  by_contra hl
  exact hc e (by simp) ⟨⟨tgid, pid⟩, fid, tg, hact, hf, hg, by simpa using hl⟩

/-- The number that a successful piece returns is not negative. -/
theorem result_nonneg {tg : ThreadGroup} {frame : ℤ → Frame} {pid : ℤ} {cpu : Cpu} {p : Piece}
    {v : ℤ} (hi : GroupInv tg frame) (hp : piece tg pid cpu (frame pid) = some p)
    (hr : p.result = some (.ok v)) : 0 ≤ v := by
  have hfid : ∀ {f}, tg.HasFiber f → 0 ≤ f := fun hf => (hi.numbered.getFiber_isSome_iff.mp hf).1
  have hok := hi.frames pid
  generalize frame pid = fr at hp hok
  cases piece_returns hp hr with
  | created => exact hfid hok
  | converted => exact hfid hok.1
  | switched => exact le_rfl

/-- A piece that ends its call with an error, in a settled group. -/
theorem noTrace_of_piece {s : Cfg} {t : Task} {tg : ThreadGroup} {p : Piece} {r : Ret}
    {past : History} (hi : GroupInv tg (fun pid => s.frame ⟨t.tgid, pid⟩))
    (hset : Settled tg (fun pid => s.frame ⟨t.tgid, pid⟩))
    (hct : CallTrace (s.Registered t) (ownSteps t past) (lastCall t past) (s.frame t))
    (hg : getGroup t.tgid s.groups = some tg)
    (hp : piece tg t.pid (s.cpu t) (s.frame t) = some p) (hr : p.result = some r)
    (hneg : r.toLong < 0) : NoTrace t past ⟨s, .tick t, s.commit t p⟩ := by
  cases r with
  | ok v =>
    have hfr : piece tg t.pid (s.cpu t) ((fun pid => s.frame ⟨t.tgid, pid⟩) t.pid) = some p := hp
    have := result_nonneg hi hfr hr
    simp only [Ret.toLong] at hneg
    omega
  | error e =>
    generalize hfr : s.frame t = fr at hp hct
    cases piece_returns hp hr with
    | convertAgain ht =>
      refine ⟨?_, Or.inl (untouched_of_same hg rfl)⟩
      rcases hct with hall | hn
      · exact hall
      · exact absurd ⟨tg, hg, by simp [ThreadGroup.HasThread, ht]⟩ hn
    | createUnknown ht =>
      have hown : ownSteps t past = [] := hct
      exact ⟨by simp [hown], Or.inl (untouched_of_same hg rfl)⟩
    | switchUnknown ht => exact ⟨by simp [hct.1], Or.inl (untouched_of_same hg rfl)⟩
    | noTarget hf => exact ⟨hct.1, Or.inl (untouched_of_same hg rfl)⟩
    | @refused c fid f hf =>
      cases c with
      | convert => exact absurd hfr (hset.no_failure t.pid fid)
      | switch => exact ⟨hct.1, Or.inr ⟨fid, hct.2, tg, f, hg, hf, rfl⟩⟩
    | @nowhere fid th ht hf =>
      -- a registered thread outside a convert is on a fiber, so the exit is not reached
      have hconv : (s.frame t).converting = false := by rw [hfr]; rfl
      have hsome := hset.getFiber_current hi ht hconv
      rw [hf] at hsome
      cases hsome

/-! ## The whole run -/

/-- Without contended converts every failed call leaves no trace. -/
theorem failuresLeaveNoTrace_of_uncontended {hash : ℤ → Bucket} {cpu : Task → Cpu} {h : History}
    {s : Cfg} (hr : Run (Step Action.callsApart) (Cfg.initial hash cpu) h s)
    (hc : ∀ e ∈ h, ¬ ContendedConvert e) : FailuresLeaveNoTrace h := by
  rintro later ⟨s₁, a, s₂⟩ past t r rfl hact hret hneg
  cases hact
  obtain ⟨hpast, _⟩ := hr.split
  have hi := inv_of_run hpast
  have hct := callTrace_of_run hpast t
  have hcpast : ∀ e ∈ past, ¬ ContendedConvert e := fun e he => hc e (by simp [he])
  change step s₁ (.tick t) = some (s₂, some r) at hret
  generalize hres : some r = o at hret
  cases step_cases hret with
  | plock _ => cases hres
  | noGroup hg hl =>
    have hown : ownSteps t past = [] := by
      change CallTrace _ _ _ (s₁.frame t) at hct
      cases hfr : s₁.frame t <;> simp_all [Frame.looksUpGroup, CallTrace]
    exact ⟨by simp [hown], Or.inl rfl⟩
  | piece hg hp =>
    exact noTrace_of_piece ((hi.views t.tgid).grouped _ hg)
      (settled_of_uncontended hpast hcpast hg) hct hg hp hres.symm hneg

theorem clean_of_uncontended {hash : ℤ → Bucket} {cpu : Task → Cpu} {h : History} {s : Cfg}
    (hr : Run (Step Action.callsApart) (Cfg.initial hash cpu) h s)
    (hc : ∀ e ∈ h, ¬ ContendedConvert e) : Clean s where
  current := by
    intro t tg th hg hu ht
    have hi : GroupInv tg (fun pid => s.frame ⟨t.tgid, pid⟩) :=
      ((inv_of_run hr).views t.tgid).grouped tg hg
    have hnot : (s.frame t).converting = false := by rw [hu]; rfl
    exact (settled_of_uncontended hr hc hg).getFiber_current hi ht hnot
  held := by
    intro tgid tg fid f hg hf hl
    have hi : GroupInv tg (fun pid => s.frame ⟨tgid, pid⟩) :=
      ((inv_of_run hr).views tgid).grouped tg hg
    have hlocked : (lockView tg (fun pid => s.frame ⟨tgid, pid⟩)).locked fid = true := by
      simpa [lockView, ThreadGroup.locked, hf] using hl
    obtain ⟨pid, hp⟩ := (settled_of_uncontended hr hc hg).tight fid hlocked
    exact ⟨pid, (holds_iff (hi.fid_ne_noFibers (by simp [ThreadGroup.HasFiber, hf]))).mp hp⟩

/-- A contended convert fails, or is about to, and leaves the records that it inserted. -/
theorem trace_of_contended {hash : ℤ → Bucket} {cpu : Task → Cpu} {h : History} {s : Cfg}
    (hr : Run (Step Action.callsApart) (Cfg.initial hash cpu) h s)
    (hc : ∃ e ∈ h, ContendedConvert e) :
    (∃ t fid, s.frame t = .fail .convert fid) ∨ ¬ FailuresLeaveNoTrace h := by
  refine hr.induct (I := fun h s => (∃ e ∈ h, ContendedConvert e) →
    (∃ t fid, s.frame t = .fail .convert fid) ∨ ¬ FailuresLeaveNoTrace h) (by simp) ?_ hc
  rintro h s a s' hrun ih hs ⟨e, he, hcon⟩
  obtain ⟨r, hstep⟩ := hs.fires
  rcases List.mem_cons.mp he with rfl | he
  · -- the contended piece itself leads to the failure exit
    obtain ⟨t, fid, tg, hact, hfr, hg, hl⟩ := hcon
    cases hact
    change s.frame t = .trylock .convert fid at hfr
    change getGroup t.tgid s.groups = some tg at hg
    left
    refine ⟨t, fid, ?_⟩
    cases step_cases hstep with
    | plock hf =>
      rw [hfr] at hf
      cases hf
    | noGroup hn _ =>
      rw [hg] at hn
      cases hn
    | piece hg' hp =>
      cases hg.symm.trans hg'
      rw [hfr] at hp
      obtain ⟨f, hf, rfl⟩ := Option.map_eq_some_iff.mp hp
      have hl : f.flock = true := by simpa [ThreadGroup.locked, hf] using hl
      simp [Cfg.commit, hl, Piece.goto]
  · rcases ih ⟨e, he, hcon⟩ with ⟨t, fid, hf⟩ | hbad
    · cases step_cases hstep with
      | user _ => exact Or.inl ⟨t, fid, hf⟩
      | @call t' c hu =>
        have ht : t ≠ t' := by
          rintro rfl
          rw [hf] at hu
          cases hu
        exact Or.inl ⟨t, fid, (Function.update_of_ne ht _ _).trans hf⟩
      | @plock t' hu =>
        have ht : t ≠ t' := by
          rintro rfl
          rw [hf] at hu
          cases hu
        exact Or.inl ⟨t, fid, (Function.update_of_ne ht _ _).trans hf⟩
      | @noGroup t' _ hl =>
        have ht : t ≠ t' := by
          rintro rfl
          rw [hf] at hl
          cases hl
        exact Or.inl ⟨t, fid, (Function.update_of_ne ht _ _).trans hf⟩
      | @piece t' tg p hg hp =>
        by_cases ht : t = t'
        · subst ht
          right
          intro hn
          have hct := callTrace_of_run hrun t
          rw [hf] at hp hct
          obtain ⟨f, _, rfl⟩ := Option.map_eq_some_iff.mp hp
          obtain ⟨x, hx, hch⟩ := hct
          exact hch ((hn [] _ h t _ rfl rfl hstep (by decide)).earlier x hx)
        · exact Or.inl ⟨t, fid, (Function.update_of_ne ht _ _).trans hf⟩
      | convertAgain | convert | createUnknown | create | cleanup => exact hs.allowed.elim
    · right
      intro hn
      refine hbad (fun later e past t r hh => ?_)
      exact hn (⟨s, a, s'⟩ :: later) e past t r (by rw [hh]; rfl)

/-- In every run without contended converts, failed calls leave no trace; and a run that has come
to rest, with a contended convert in it, has a failed call that left one. -/
theorem failed_calls_leave_no_trace {hash : ℤ → Bucket} {cpu : Task → Cpu} {h : History} {s : Cfg}
    (hr : Run (Step Action.callsApart) (Cfg.initial hash cpu) h s) :
    ((∀ e ∈ h, ¬ ContendedConvert e) → FailuresLeaveNoTrace h ∧ Clean s) ∧
      ((∀ t, s.frame t = .user) → FailuresLeaveNoTrace h → ∀ e ∈ h, ¬ ContendedConvert e) := by
  refine ⟨fun hc => ⟨failuresLeaveNoTrace_of_uncontended hr hc, clean_of_uncontended hr hc⟩, ?_⟩
  intro hrest hn e he hcon
  rcases trace_of_contended hr ⟨e, he, hcon⟩ with ⟨t, fid, hf⟩ | hbad
  · rw [hrest t] at hf
    cases hf
  · exact hbad hn

/-- Two threads convert, and the first one tries to switch to the fiber of the second. -/
def refusedSwitch : List Action :=
  [Action.call ⟨1, 1⟩ .convert] ++ List.replicate 10 (Action.tick ⟨1, 1⟩) ++
    [Action.call ⟨1, 2⟩ .convert] ++ List.replicate 10 (Action.tick ⟨1, 2⟩) ++
    [Action.call ⟨1, 1⟩ (.switch 1)] ++ List.replicate 4 (Action.tick ⟨1, 1⟩)

/-- The step is no trylock of a convert that finds the lock taken. -/
def uncontended (e : Entry Cfg Action) : Bool :=
  match e.act with
  | .tick t =>
    match e.pre.frame t with
    | .trylock .convert fid =>
      (getGroup t.tgid e.pre.groups).all (fun tg => tg.locked fid = false)
    | _ => true
  | _ => true

theorem not_contended {e : Entry Cfg Action} (h : uncontended e = true) : ¬ ContendedConvert e := by
  rintro ⟨t, fid, tg, hact, hf, hg, hl⟩
  simp [uncontended, hact, hf, hg, hl] at h

theorem failed_calls_leave_no_trace_refusedSwitch :
    ∃ e past s, execute [] (Cfg.initial (fun _ => 0) default) refusedSwitch = some (e :: past, s) ∧
      NoTrace ⟨1, 1⟩ past e ∧ Clean s := by
  obtain ⟨e, past, s, he, hc⟩ := exists_execute_cons (Cfg.initial (fun _ => 0) default)
    refusedSwitch
    (fun e past _ => e.act = .tick ⟨1, 1⟩ ∧
      (step e.pre e.act).map (fun y => y.2.map Ret.toLong) = some (some (-11)) ∧
      (e :: past).all uncontended)
    (by decide +kernel)
  obtain ⟨hact, hres, hfree⟩ := of_decide_eq_true hc
  have hr : Run (Step Action.callsApart) (Cfg.initial (fun _ => 0) default) ([] ++ e :: past) s :=
    run_of_execute_initial refusedSwitch (by simp [refusedSwitch, Action.callsApart])
      (by decide) he
  have hcalm : ∀ x ∈ e :: past, ¬ ContendedConvert x := fun x hx =>
    not_contended (List.all_eq_true.mp hfree x hx)
  obtain ⟨hn, hclean⟩ := (failed_calls_leave_no_trace hr).1 hcalm
  obtain ⟨r, hstep⟩ := hr.split.2.fires
  rw [hstep] at hres
  obtain ⟨r, rfl, hlong⟩ := Option.map_eq_some_iff.mp (Option.some.inj hres)
  have hneg : r.toLong < 0 := by omega
  exact ⟨e, past, s, he, hn [] e past ⟨1, 1⟩ r rfl hact hstep hneg, hclean⟩

/-- The switch of another thread takes the new fiber of a convert before the convert does. -/
def contendedConvert : List Action :=
  [Action.call ⟨1, 1⟩ .convert] ++ List.replicate 10 (Action.tick ⟨1, 1⟩) ++
    [Action.call ⟨1, 2⟩ .convert] ++ List.replicate 3 (Action.tick ⟨1, 2⟩) ++
    [Action.call ⟨1, 1⟩ (.switch 1)] ++ List.replicate 3 (Action.tick ⟨1, 1⟩) ++
    List.replicate 2 (Action.tick ⟨1, 2⟩)

theorem contended_convert_leaves_trace :
    ∃ h s, Run (Step Action.callsApart) (Cfg.initial (fun _ => 0) default) h s ∧
      ¬ FailuresLeaveNoTrace h ∧ ¬ Clean s := by
  obtain ⟨e, past, s, he, hc⟩ := exists_execute_cons (Cfg.initial (fun _ => 0) default)
    contendedConvert
    (fun e past s => e.act = .tick ⟨1, 2⟩ ∧
      (step e.pre e.act).map (fun y => y.2.map Ret.toLong) = some (some (-11)) ∧
      s.frame ⟨1, 2⟩ = .user ∧
      ((getGroup 1 s.groups).bind (getThread 2)).map (fun t => t.currentFid) = some noFibers ∧
      (getGroup 1 s.groups).map (fun tg => (getFiber noFibers tg).isSome) = some false ∧
      (ownSteps ⟨1, 2⟩ past).any (fun x =>
        ((getGroup 1 x.pre.groups).bind (getThread 2)).isSome ≠
          ((getGroup 1 x.post.groups).bind (getThread 2)).isSome))
    (by decide +kernel)
  obtain ⟨hact, hres, hu, hcur, hnone, hown⟩ := of_decide_eq_true hc
  have hr : Run (Step Action.callsApart) (Cfg.initial (fun _ => 0) default) ([] ++ e :: past) s :=
    run_of_execute_initial contendedConvert (by simp [contendedConvert, Action.callsApart])
      (by decide) he
  refine ⟨_, s, hr, ?_, ?_⟩
  · intro hn
    obtain ⟨r, hstep⟩ := hr.split.2.fires
    rw [hstep] at hres
    obtain ⟨r, rfl, hlong⟩ := Option.map_eq_some_iff.mp (Option.some.inj hres)
    have hneg : r.toLong < 0 := by omega
    have htrace := hn [] e past ⟨1, 2⟩ r rfl hact hstep hneg
    obtain ⟨x, hx, hch⟩ := List.any_eq_true.mp hown
    have hun := htrace.earlier x hx
    rw [Untouched] at hun
    simp [hun] at hch
  · intro hclean
    obtain ⟨th, hth, hfid⟩ := Option.map_eq_some_iff.mp hcur
    obtain ⟨tg, hg, ht⟩ := Option.bind_eq_some_iff.mp hth
    have hsome := hclean.current ⟨1, 2⟩ tg th hg hu ht
    rw [hfid] at hsome
    simp [hg, hsome] at hnone

end Fibers
