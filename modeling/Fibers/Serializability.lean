import Fibers.GroupMachine

/-!
# Interleaved switches are serializable

The switches of all threads are taken apart into their pieces, which interleave in any order, also
with converts, creates and the ends of other processes. For a process this is a run of its machine,
on which every call happens at one moment between its entry and its return. Allocations succeed, and
no group gets to 2^31 fibers.

Only a refusal is not as on the machine: a switch can be turned away from a fiber that nobody is on,
while another thread is in the middle of a switch to or from it.

## Main results

- `requests_of_run` — every call of a thread takes effect once, in program order
- `refused_by` — who makes a switch be refused
- `switches_serialize` — every interleaved run is serializable
-/

namespace Fibers

/-! ## Runs -/

theorem ViewStep.switching_of_cleanups {tgid : ℤ} {v v' : GroupView} {a : Action} {r : Option Ret}
    (h : ViewStep tgid v a r v') (ha : a.switchesAndCleanups)
    (hf : ∀ pid, (v.frame pid).switching = true) : ∀ pid, (v'.frame pid).switching = true := by
  rcases ha with ha | ⟨k, rfl⟩
  · exact h.switching ha hf
  · cases h with
    | elsewhere _ => exact hf
    | cleanup _ => exact hf

section Runs

variable {hash : ℤ → Bucket} {cpu : Task → Cpu} {h : History} {s s' : Cfg} {a : Action} {w : World}

theorem switching_settled_of_cleanups
    (hr : Run (Step Action.switchesAndCleanups) (Cfg.initial hash cpu) h s) (tgid : ℤ) :
    (∀ pid, (s.frame ⟨tgid, pid⟩).switching = true) ∧
      ∀ tg, getGroup tgid s.groups = some tg → Settled tg (fun pid => s.frame ⟨tgid, pid⟩) := by
  refine view_of_run (I := fun v => (∀ pid, (v.frame pid).switching = true) ∧
    ∀ tg, v.tg = some tg → Settled tg v.frame) hr (fun _ => ⟨fun _ => rfl, by simp⟩) ?_
  rintro v a r v' ha hi ⟨hf, hs⟩ few hstep
  refine ⟨hstep.switching_of_cleanups ha hf, hstep.settled hi hs ?_ few⟩
  intro pid f tg _ hc _
  have hsw := hf pid
  rw [hc] at hsw
  cases hsw

/-- A create that finds no caller. -/
theorem on_eq_none_of_create {t : Task} {k : Kmalloc} {x : FibArgs}
    (hs : step s (.create t k x) = some (s', some (.error .ESRCH))) :
    (machineIn s.groups t.tgid).on t.pid = none := by
  cases hg : getGroup t.tgid s.groups with
  | none =>
    rw [machineIn, hg]
    rfl
  | some tg =>
    rw [machineIn, hg, on_machineOf]
    cases ht : getThread t.pid tg with
    | none => rfl
    | some th =>
      simp only [step, doCreateFiber_eq, hg, ht] at hs
      split at hs
      · obtain ⟨⟨g, r⟩, ho, he⟩ := Option.map_eq_some_iff.mp hs
        split at ho
        · cases ho
          cases he
        · cases ho
      · cases hs

/-- What every process sees of the world is the state of its group. -/
def World.ShowsAll (w : World) (s : Cfg) : Prop := ∀ tgid, w.Shows tgid (s.view tgid)

/-- Every step of a run is matched by its effect on the world. -/
theorem step_matches (hr : Run (Step Action.switchesAndCleanups) (Cfg.initial hash cpu) h s)
    (hs : Step Action.switchesAndCleanups s a s') (hw : w.ShowsAll s) :
    Run.Matches (fun s w => w.ShowsAll s) takesEffect World.Takes ⟨s, a, s'⟩ w := by
  have hi := inv_of_run hr
  obtain ⟨hf, hset⟩ := switching_settled_of_cleanups hr a.tgid
  obtain ⟨r, hfires⟩ := hs.fires
  have hstep := viewStep_of_step hi.unique hfires hs.alone a.tgid
  have hunknown : ∀ pid k x, a = .create ⟨a.tgid, pid⟩ k x → r = some (.error .ESRCH) →
      (machineOf (s.view a.tgid).tg).on pid = none := by
    rintro pid k x ha rfl
    rw [ha] at hfires
    exact on_eq_none_of_create hfires
  have helse : ∀ k, k ≠ a.tgid → s'.view k = s.view k := fun k hk =>
    view_elsewhere hi.unique hfires (Ne.symm hk)
  cases hstep.shows rfl hs.allowed (hi.views _) hf hset (hs.few _) hunknown (hw _) with
  | silent heffect hself =>
    refine .stutter heffect ?_
    intro k
    by_cases hk : k = a.tgid
    · rw [hk]
      exact hself
    · have hk' := hw k
      rwa [← helse k hk] at hk'
  | @takes e heffect he hallows hself =>
    refine .move heffect ⟨hallows, rfl⟩ ?_
    intro k
    by_cases hk : k = a.tgid
    · rw [hk]
      exact hself
    · have hne : e.tgid ≠ k := by
        rw [he]
        exact Ne.symm hk
      unfold World.Shows
      rw [World.machine_effect_of_ne hne, World.cpu_effect_of_ne hne]
      have hk' := hw k
      rwa [← helse k hk] at hk'

theorem showsAll_initial (mem : ℤ → UserMemory) :
    (World.initial cpu mem).ShowsAll (Cfg.initial hash cpu) := by
  intro tgid
  exact ⟨.empty, rfl, Images.initial _ _, fun _ => rfl⟩

end Runs

/-! ## Every call takes effect once -/

/-- The call that the thread enters with an action. -/
def Action.requestOf (t : Task) : Action → Option Request
  | .call u (.switch next) => if u = t then some (.switchToFiber next) else none
  | .convert u _ => if u = t then some .convertThreadToFiber else none
  | .create u _ a => if u = t then some (.createFiber a) else none
  | _ => none

/-- The call of the thread that takes effect. -/
def Effect.requestOf (t : Task) : Effect → Option Request
  | .serve u req => if u = t then some req else none
  | .refuse u next => if u = t then some (.switchToFiber next) else none
  | _ => none

/-- The call that the thread has entered and that has not taken effect. -/
def Frame.pending (fr : Frame) : Option Request := fr.seeks.map Request.switchToFiber

theorem piece_seeks {tg : ThreadGroup} {pid : ℤ} {cpu : Cpu} {fr : Frame} {p : Piece}
    (hp : piece tg pid cpu fr = some p) (hf : fr.switching = true) :
    p.frame.seeks = fr.seeks ∨ p.frame.seeks = none := by
  cases piece_step hp with
  | convertAgain _ | convertThread _ | convertFiber _ | createUnknown _ | createLookup _
  | createFiber _ | createStack _ | createContext _ | checkConvert _ _ | converted _ => cases hf
  | switchThread _ | switchTarget _ | lock _ _ | checkSwitch _ _ | switchOld _ _ | activateState _
  | activateRead _ | activateWrite _ | activateTime _ => exact .inl rfl
  | _ => exact .inr rfl

section Requests

variable {hash : ℤ → Bucket} {cpu : Task → Cpu} {h : History} {s s' : Cfg} {a : Action} {t : Task}

/-- In a piece of its own the pending switch of a thread goes on or takes effect. -/
theorem requestOf_tick_self
    (hseeks : (s'.frame t).seeks = (s.frame t).seeks ∨ (s'.frame t).seeks = none) :
    (s.frame t).pending.toList = (s'.frame t).pending.toList ++
      ((takesEffect ⟨s, .tick t, s'⟩).bind (Effect.requestOf t)).toList := by
  cases hs : (s.frame t).seeks with
  | none =>
    have hs' : (s'.frame t).seeks = none := by
      rcases hseeks with he | he
      · rw [he, hs]
      · exact he
    have hsilent : takesEffect ⟨s, .tick t, s'⟩ = none := effect_silent (.inl hs)
    simp [Frame.pending, hs, hs', hsilent]
  | some next =>
    rcases hseeks with he | he
    · have hsilent : takesEffect ⟨s, .tick t, s'⟩ = none := effect_silent (.inr he)
      simp [Frame.pending, he, hs, hsilent]
    · by_cases hn : (s.view t.tgid).TriesParked t.pid next
      · have heffect : takesEffect ⟨s, .tick t, s'⟩ = some (.refuse t next) :=
          effect_refuse hs he hn
        simp [Frame.pending, he, hs, heffect, Effect.requestOf]
      · have heffect : takesEffect ⟨s, .tick t, s'⟩ = some (.serve t (.switchToFiber next)) :=
          effect_serve hs he hn
        simp [Frame.pending, he, hs, heffect, Effect.requestOf]

/-- A piece of another thread is no call of this one. -/
theorem requestOf_tick_of_ne {u : Task} (hu : u ≠ t) :
    (takesEffect ⟨s, .tick u, s'⟩).bind (Effect.requestOf t) = none := by
  simp only [takesEffect, GroupView.effect]
  split
  · split <;> simp [Effect.requestOf, hu]
  · rfl

/-- In each step a call is entered, goes on or takes effect. -/
theorem step_requests {r : Option Ret} (hs : step s a = some (s', r)) (ha : a.switchesAndCleanups)
    (hf : ∀ u, (s.frame u).switching = true) :
    (a.requestOf t).toList ++ (s.frame t).pending.toList = (s'.frame t).pending.toList ++
      ((takesEffect ⟨s, a, s'⟩).bind (Effect.requestOf t)).toList := by
  -- a piece of the thread `u`
  have htick : ∀ u s', (∀ q, q ≠ u → s'.frame q = s.frame q) →
      ((s'.frame u).seeks = (s.frame u).seeks ∨ (s'.frame u).seeks = none) →
      (s.frame t).pending.toList = (s'.frame t).pending.toList ++
        ((takesEffect ⟨s, .tick u, s'⟩).bind (Effect.requestOf t)).toList := by
    intro u s' hothers hseeks
    by_cases hu : u = t
    · subst hu
      exact requestOf_tick_self hseeks
    · rw [requestOf_tick_of_ne hu, hothers t (Ne.symm hu)]
      simp
  -- a call of `u` in one step
  have hwhole : ∀ u req (s' : Cfg), s.frame u = .user → s'.frame = s.frame →
      (if u = t then some req else none).toList ++ (s.frame t).pending.toList =
        (s'.frame t).pending.toList ++ (Effect.requestOf t (.serve u req)).toList := by
    intro u req s' hu hsame
    rw [hsame]
    by_cases hut : u = t
    · subst hut
      simp [Effect.requestOf, Frame.pending, hu, Frame.seeks]
    · simp [Effect.requestOf, hut]
  cases step_cases hs with
  | user _ => simp [Action.requestOf, takesEffect, GroupView.effect, Effect.requestOf]
  | @call u c hu =>
    cases c with
    | convert | create x => rcases ha with ha | ⟨_, he⟩ <;> contradiction
    | switch next =>
      by_cases hut : u = t
      · subst hut
        simp [Action.requestOf, takesEffect, GroupView.effect, hu, Call.entry, Frame.pending,
          Frame.seeks]
      · simp [Action.requestOf, takesEffect, GroupView.effect, hut, Ne.symm hut]
  | @plock u hc =>
    have hsw := hf u
    rw [hc] at hsw
    cases hsw
  | @noGroup u hg hl =>
    refine htick u _ (fun q hq => Function.update_of_ne hq _ _) (.inr ?_)
    simp [Cfg.return, Frame.seeks]
  | @piece u tg p hg hp =>
    refine htick u _ (fun q hq => Function.update_of_ne hq _ _) ?_
    simpa [Cfg.commit] using piece_seeks hp (hf u)
  | @convertAgain u _ _ hu _ => exact hwhole u .convertThreadToFiber _ hu rfl
  | @convert u _ hu _ => exact hwhole u .convertThreadToFiber _ hu rfl
  | @createUnknown u _ x hu => exact hwhole u (.createFiber x) _ hu rfl
  | @create u _ x _ _ hu _ _ => exact hwhole u (.createFiber x) _ hu rfl
  | cleanup => simp [Action.requestOf, takesEffect, GroupView.effect, Effect.requestOf]

theorem filterMap_cons_toList {α β : Type} (f : α → Option β) (x : α) (xs : List α) :
    (x :: xs).filterMap f = (f x).toList ++ xs.filterMap f := by
  cases hf : f x <;> simp [hf]

/-- The calls that a thread has entered, the latest first: the pending one, and those that took
effect. -/
theorem requests_of_run (hr : Run (Step Action.switchesAndCleanups) (Cfg.initial hash cpu) h s)
    (t : Task) :
    h.filterMap (fun e => e.act.requestOf t) =
      (s.frame t).pending.toList ++ (h.filterMap takesEffect).filterMap (Effect.requestOf t) := by
  induction hr with
  | start => rfl
  | @next h s s' a hr hs ih =>
    obtain ⟨r, hfires⟩ := hs.fires
    have hf : ∀ u, (s.frame u).switching = true := fun u =>
      (switching_settled_of_cleanups hr u.tgid).1 u.pid
    have hstep := step_requests (t := t) hfires hs.allowed hf
    rw [List.filterMap_filterMap] at ih ⊢
    rw [filterMap_cons_toList, filterMap_cons_toList, ih, ← List.append_assoc, hstep,
      List.append_assoc]

end Requests

/-! ## Refusals -/

section Refusals

variable {hash : ℤ → Bucket} {cpu : Task → Cpu} {h : History} {s : Cfg}

theorem triesParked_of_refuse {e : Entry Cfg Action} {t : Task} {next : ℤ}
    (href : takesEffect e = some (.refuse t next)) :
    e.act = .tick t ∧ (e.pre.view t.tgid).TriesParked t.pid next ∧
      (e.post.frame t).seeks = none := by
  obtain ⟨s, a, s'⟩ := e
  simp only [takesEffect, GroupView.effect] at href
  split at href
  · cases href
  · cases href
  · next u =>
    split at href
    · next k hk hnone =>
      split at href
      · next hn =>
        cases href
        exact ⟨rfl, hn, hnone⟩
      · cases href
    · cases href
  · cases href
  · cases href
  · cases href

/-- A switch is refused while another thread is in the middle of a switch to or from its target. -/
theorem refused_by (hr : Run (Step Action.switchesAndCleanups) (Cfg.initial hash cpu) h s)
    {e : Entry Cfg Action} (he : e ∈ h) {t : Task} {next : ℤ}
    (href : takesEffect e = some (.refuse t next)) :
    ∃ q, q ≠ t.pid ∧ ((e.pre.frame ⟨t.tgid, q⟩).enters = some next ∨
      (e.pre.frame ⟨t.tgid, q⟩).leaves = some next) := by
  obtain ⟨later, past, rfl⟩ := List.append_of_mem he
  obtain ⟨hpast, hs⟩ := hr.split
  obtain ⟨s, a, s'⟩ := e
  obtain ⟨rfl, ⟨hfr, hfree⟩, hend⟩ := triesParked_of_refuse href
  obtain ⟨hf, hset⟩ := switching_settled_of_cleanups hpast t.tgid
  obtain ⟨r, hfires⟩ := hs.fires
  change step s (.tick t) = some (s', r) at hfires
  change s.frame t = .trylock .switch next at hfr
  change (s'.frame t).seeks = none at hend
  cases step_cases hfires with
  | plock hc => cases hc.symm.trans hfr
  | noGroup _ hl =>
    rw [hfr] at hl
    cases hl
  | @piece _ tg p hg hp =>
    have hi : GroupInv tg (fun pid => s.frame ⟨t.tgid, pid⟩) :=
      ((inv_of_run hpast).views t.tgid).grouped tg hg
    rw [hfr] at hp
    simp only [Cfg.commit, Function.update_self] at hend
    cases piece_step hp with
    | lock _ _ => cases hend
    | @locked _ _ f hk hl =>
      obtain ⟨q, hq, -⟩ := (hi.exclusion (hset tg hg) hf).one_holder next f hk hl
      have hcur : ¬ tg.CurrentIs q next := by
        intro hc
        have hn : next ≠ noFibers := hi.fid_ne_noFibers (by simp [ThreadGroup.HasFiber, hk])
        refine hfree q ?_
        rw [GroupView.current, show (s.view t.tgid).tg = some tg from hg]
        exact hc.current_eq hn
      have hbusy : (s.frame ⟨t.tgid, q⟩).enters = some next ∨
          (s.frame ⟨t.tgid, q⟩).leaves = some next := hq.resolve_left hcur
      refine ⟨q, ?_, hbusy⟩
      rintro rfl
      rcases hbusy with he | he
      · cases (congrArg Frame.enters hfr).symm.trans he
      · cases (congrArg Frame.leaves hfr).symm.trans he

end Refusals

/-! ## Interleaved runs are serializable -/

/-- What a process can tell of a run: in which order its calls took effect, what they returned, and
what its fibers are. `H` leads from the initial world to `w`, and `h` to `s`. -/
structure Serializes (h : History) (s : Cfg) (H : List (Entry World Effect)) (w : World) :
    Prop where
  /-- the effects are those of the steps, in their order -/
  order : H.map Entry.act = h.filterMap takesEffect
  /-- a thread in user code has the registers that its calls left, its results among them -/
  registers : ∀ t, s.frame t = .user → w.cpu t = s.cpu t
  /-- each of its calls has taken effect once, in the order in which it made them -/
  once : ∀ t, s.frame t = .user →
    (H.map Entry.act).filterMap (Effect.requestOf t) = h.filterMap fun e => e.act.requestOf t
  /-- the fibers of a process are those of its group whenever no call is under way -/
  machines : ∀ tgid, (∀ pid, s.frame ⟨tgid, pid⟩ = .user) → w.machine tgid = machineIn s.groups tgid
  /-- only a switch to a fiber that another thread is entering or leaving is refused -/
  refusals : ∀ e ∈ h, ∀ t next, takesEffect e = some (.refuse t next) → ∃ q, q ≠ t.pid ∧
    ((e.pre.frame ⟨t.tgid, q⟩).enters = some next ∨ (e.pre.frame ⟨t.tgid, q⟩).leaves = some next)

/-- For its processes, a run in which the pieces of switches interleave in any order is a run of
their machines, on which every call happens at one moment between its entry and its return. -/
theorem switches_serialize {hash : ℤ → Bucket} {cpu : Task → Cpu} {h : History} {s : Cfg}
    (hr : Run (Step Action.switchesAndCleanups) (Cfg.initial hash cpu) h s) (mem : ℤ → UserMemory) :
    ∃ H w, Run World.Takes (.initial cpu mem) H w ∧ w.Consistent ∧ Serializes h s H w := by
  obtain ⟨H, w, hrun, horder, hshows⟩ := hr.simulated (showsAll_initial mem)
    fun _ _ _ _ _ hr hs hw => step_matches hr hs hw
  have hconsistent : w.Consistent := fun tgid => (hshows tgid).consistent
  refine ⟨H, w, hrun, hconsistent, horder, ?_, ?_, ?_, ?_⟩
  · exact fun t hu => (hshows t.tgid).cpu_of_user hu
  · intro t hu
    rw [horder, requests_of_run hr t, hu]
    rfl
  · intro tgid hu
    exact (hshows tgid).machine_eq ((inv_of_run hr).views tgid)
      (switching_settled_of_cleanups hr tgid).2 hu
  · exact fun e he t next href => refused_by hr he href

/-- A thread is turned away from a fiber that another one has locked and not yet entered. -/
def refusedWhileEntering : List Action :=
  [.convert ⟨1, 1⟩ .succeeds, .convert ⟨1, 2⟩ .succeeds, .create ⟨1, 1⟩ .succeeds ⟨0, 0, 0, 0⟩,
    .call ⟨1, 1⟩ (.switch 2), .call ⟨1, 2⟩ (.switch 2)] ++
    List.replicate 4 (Action.tick ⟨1, 1⟩) ++ List.replicate 4 (Action.tick ⟨1, 2⟩) ++
    List.replicate 13 (Action.tick ⟨1, 1⟩)

theorem switches_serialize_refusedWhileEntering :
    ∃ h s H w, execute [] (Cfg.initial (fun _ => 0) default) refusedWhileEntering = some (h, s) ∧
      s.frame ⟨1, 1⟩ = .user ∧ s.frame ⟨1, 2⟩ = .user ∧ (machineIn s.groups 1).on 1 = some 2 ∧
      (s.cpu ⟨1, 1⟩).regs.ax = 0 ∧ (s.cpu ⟨1, 2⟩).regs.ax = -11 ∧
      Run World.Takes (.initial default fun _ => flatMemory) H w ∧ w.Consistent ∧
      Serializes h s H w := by
  obtain ⟨h, s, he, hc⟩ := exists_execute (Cfg.initial (fun _ => 0) default) refusedWhileEntering
    (fun _ s => decide (s.frame ⟨1, 1⟩ = .user ∧ s.frame ⟨1, 2⟩ = .user ∧
      (machineIn s.groups 1).on 1 = some 2 ∧ (s.cpu ⟨1, 1⟩).regs.ax = 0 ∧
      (s.cpu ⟨1, 2⟩).regs.ax = -11)) (by decide +kernel)
  obtain ⟨hfirst, hsecond, hon, hserved, hrefused⟩ := of_decide_eq_true hc
  have hr : Run (Step Action.switchesAndCleanups) (Cfg.initial (fun _ => 0) default) h s :=
    run_of_execute_initial refusedWhileEntering
      (by simp [refusedWhileEntering, Action.switchesAndCleanups, Action.switchesApart])
      (by decide) he
  obtain ⟨H, w, hrun⟩ := switches_serialize hr fun _ => flatMemory
  exact ⟨h, s, H, w, he, hfirst, hsecond, hon, hserved, hrefused, hrun⟩

end Fibers
