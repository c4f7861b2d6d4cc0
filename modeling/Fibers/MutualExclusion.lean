import Fibers.Settled

/-!
# Mutual exclusion of fibers

Converts and creates run as single steps, and the pieces of the switches of all threads
interleave. No two threads are then ever on the same fiber, and the lock, the state and
the current fiber agree wherever a thread is in its switch.

## Main results

- `mutual_exclusion` — the exclusion of fibers in every reachable configuration
-/

namespace Fibers

/-- The actions of a run in which only switches are taken apart. -/
def Action.switchesApart : Action → Prop
  | .user _ _ => True
  | .call _ (.switch _) => True
  | .tick _ => True
  | .convert _ _ => True
  | .create _ _ _ => True
  | _ => False

/-- User code and the frames of a switch. -/
def Frame.switching : Frame → Bool
  | .user => true
  | .switchThread _ => true
  | .switchTarget _ => true
  | .trylock .switch _ => true
  | .check .switch _ => true
  | .fail .switch _ => true
  | .switchOld _ => true
  | .activateState (some _) _ => true
  | .activateRead (some _) _ => true
  | .activateWrite (some _) _ _ => true
  | .activateTime (some _) _ => true
  | .activateCurrent (some _) _ => true
  | .saveRegs _ _ => true
  | .saveFpu _ _ => true
  | .account _ _ => true
  | .clearState _ _ => true
  | .unlock _ _ => true
  | .loadRegs _ => true
  | .loadFpu _ => true
  | _ => false

/-- The fiber that a frame has locked and not yet made current. -/
def Frame.enters : Frame → Option ℤ
  | .check _ f => some f
  | .switchOld f => some f
  | .activateState _ f => some f
  | .activateRead _ f => some f
  | .activateWrite _ f _ => some f
  | .activateTime _ f => some f
  | .activateCurrent _ f => some f
  | _ => none

/-- The fiber that a frame has left and not yet unlocked. -/
def Frame.leaves : Frame → Option ℤ
  | .saveRegs old _ => some old
  | .saveFpu old _ => some old
  | .account old _ => some old
  | .clearState old _ => some old
  | .unlock old _ => some old
  | _ => none

/-- The thread is on the fiber, enters it or leaves it. -/
def Holds (tg : ThreadGroup) (frame : ℤ → Frame) (pid fid : ℤ) : Prop :=
  tg.CurrentIs pid fid ∨ (frame pid).enters = some fid ∨ (frame pid).leaves = some fid

/-- What the locks, the states and the current fibers of a group have to do with one another. -/
structure Exclusion (tg : ThreadGroup) (frame : ℤ → Frame) : Prop where
  current_distinct : ∀ p q t u, getThread p tg = some t → getThread q tg = some u →
    t.currentFid = u.currentFid → p = q
  one_holder : ∀ fid f, getFiber fid tg = some f → f.flock = true → ∃! pid, Holds tg frame pid fid
  idle : ∀ pid t, frame pid = .user → getThread pid tg = some t →
    ∃ f, getFiber t.currentFid tg = some f ∧ f.flock = true ∧ f.info.state = pid
  free : ∀ fid f, getFiber fid tg = some f → f.flock = false → f.info.state = 0
  check_passes : ∀ pid c fid f, frame pid = .check c fid → getFiber fid tg = some f →
    f.info.state = 0

/-! ## Frames of a run in which only switches are taken apart -/

theorem piece_switching {tg : ThreadGroup} {pid : ℤ} {cpu : Cpu} {fr : Frame} {p : Piece}
    (hp : piece tg pid cpu fr = some p) (hf : fr.switching = true) :
    p.frame.switching = true := by
  cases piece_step hp with
  | convertAgain _ | convertThread _ | convertFiber _ | createUnknown _ | createLookup _
  | createFiber _ | createStack _ | createContext _ | checkConvert _ _ | converted _ => cases hf
  | @locked c _ _ _ _ | @lock c _ _ _ _ | @used c _ _ _ _ =>
    cases c with
    | convert => cases hf
    | switch => rfl
  | @activateState old _ _ _ | @activateRead old _ _ _ | @activateWrite old _ _ _ _
  | @activateTime old _ _ _ =>
    cases old with
    | none => cases hf
    | some _ => rfl
  | _ => rfl

theorem ViewStep.switching {tgid : ℤ} {v v' : GroupView} {a : Action} {r : Option Ret}
    (h : ViewStep tgid v a r v') (ha : a.switchesApart)
    (hf : ∀ pid, (v.frame pid).switching = true) : ∀ pid, (v'.frame pid).switching = true := by
  have hupdate : ∀ pid fr, fr.switching = true →
      ∀ q, (Function.update v.frame pid fr q).switching = true := by
    intro pid fr hfr q
    by_cases hq : q = pid
    · subst hq
      simpa using hfr
    · simpa [hq] using hf q
  cases h with
  | elsewhere _ | user _ | createUnknown _ => exact hf
  | convertAgain _ _ _ => exact hf
  | convert _ _ _ => exact hf
  | create _ _ _ => exact hf
  | cleanup _ => exact hf
  | @call pid c hu =>
    cases c with
    | switch next => exact hupdate pid _ rfl
    | convert => exact absurd ha (by simp [Action.switchesApart])
    | create a => exact absurd ha (by simp [Action.switchesApart])
  | @plock pid tg hc _ =>
    have := hf pid
    rw [hc] at this
    cases this
  | noGroup _ _ => exact hupdate _ _ rfl
  | piece hg hp => exact hupdate _ _ (piece_switching hp (hf _))

theorem not_converting_of_switching {fr : Frame} (h : fr.switching = true) :
    fr.converting = false := by
  cases fr with
  | trylock c _ | check c _ => cases c <;> first | rfl | cases h
  | activateState old _ | activateRead old _ | activateWrite old _ _ | activateTime old _
  | activateCurrent old _ => cases old <;> first | rfl | cases h
  | _ => first | rfl | cases h

/-! ## Mutual exclusion -/

theorem current_eq_some_iff {tg : ThreadGroup} {pid fid : ℤ} (hn : fid ≠ noFibers) :
    tg.current pid = some fid ↔ tg.CurrentIs pid fid := by
  refine ⟨?_, fun h => h.current_eq hn⟩
  intro h
  obtain ⟨t, ht, hc⟩ := Option.bind_eq_some_iff.mp h
  split at hc
  · cases hc
  · exact ⟨t, ht, Option.some.inj hc⟩

/-- Holding in the sense of the hand-over protocol. -/
theorem holds_iff {tg : ThreadGroup} {frame : ℤ → Frame} {pid fid : ℤ} (hn : fid ≠ noFibers) :
    (lockView tg frame).Holds pid fid ↔ Holds tg frame pid fid := by
  have hc : tg.current pid = some fid ↔ tg.CurrentIs pid fid := current_eq_some_iff hn
  simp only [Handover.State.Holds, lockView, Holds, hc]
  cases frame pid <;> simp [Frame.phase, Frame.enters, Frame.leaves]

theorem GroupInv.exclusion {tg : ThreadGroup} {frame : ℤ → Frame} (h : GroupInv tg frame)
    (hs : Settled tg frame) (hf : ∀ pid, (frame pid).switching = true) : Exclusion tg frame := by
  -- no thread of such a run is inside a convert, so every registered one is on a fiber
  have hcur : ∀ pid t, getThread pid tg = some t → tg.current pid = some t.currentFid :=
    fun pid t ht => hs.current_eq ht (not_converting_of_switching (hf pid))
  constructor
  · intro p q t u ht hu he
    refine h.locks.holds_unique p q t.currentFid (Or.inl (hcur p t ht)) (Or.inl ?_)
    rw [he]
    exact hcur q u hu
  · intro fid f hfid hl
    have hn : fid ≠ noFibers := h.fid_ne_noFibers (by simp [ThreadGroup.HasFiber, hfid])
    have hlocked : (lockView tg frame).locked fid = true := by
      simpa [lockView, ThreadGroup.locked, hfid] using hl
    obtain ⟨pid, hp⟩ := hs.tight fid hlocked
    refine ⟨pid, (holds_iff hn).mp hp, fun q hq => ?_⟩
    exact h.locks.holds_unique q pid fid ((holds_iff hn).mpr hq) hp
  · intro pid t _ ht
    have hc := hcur pid t ht
    obtain ⟨f, hfid⟩ := Option.isSome_iff_exists.mp (h.hasFiber_of_current hc)
    refine ⟨f, hfid, ?_, ?_⟩
    · have := h.locks.locked_of_holds pid t.currentFid (Or.inl hc)
      simpa [lockView, ThreadGroup.locked, hfid] using this
    · have := h.locks.tag_of_tags pid t.currentFid (Or.inl hc)
      simpa [lockView, ThreadGroup.state, hfid] using this
  · intro fid f hfid hl
    have hlocked : (lockView tg frame).locked fid = false := by
      simpa [lockView, ThreadGroup.locked, hfid] using hl
    simpa [lockView, ThreadGroup.state, hfid] using h.locks.tag_of_free hlocked
  · exact fun pid c fid f hc hfid => h.state_of_check hc hfid

/-- What the runs keep of a group: the frames are those of switches, and every taken lock has its
holder. -/
theorem switching_settled_of_run {hash : ℤ → Bucket} {cpu : Task → Cpu} {h : History} {s : Cfg}
    (hr : Run (Step Action.switchesApart) (Cfg.initial hash cpu) h s) (tgid : ℤ) :
    (∀ pid, (s.frame ⟨tgid, pid⟩).switching = true) ∧
      ∀ tg, getGroup tgid s.groups = some tg → Settled tg (fun pid => s.frame ⟨tgid, pid⟩) := by
  refine view_of_run (I := fun v => (∀ pid, (v.frame pid).switching = true) ∧
    ∀ tg, v.tg = some tg → Settled tg v.frame) hr (fun _ => ⟨fun _ => rfl, by simp⟩) ?_
  rintro v a r v' ha hi ⟨hf, hs⟩ few hstep
  refine ⟨hstep.switching ha hf, hstep.settled hi hs ?_ few⟩
  -- a convert is never taken apart, so none is about to try a lock
  intro pid f tg _ hc _
  have := hf pid
  rw [hc] at this
  cases this

/-- In every reachable configuration of a run in which only switches are taken apart, the fibers
of every group are mutually exclusive. -/
theorem mutual_exclusion {hash : ℤ → Bucket} {cpu : Task → Cpu} {h : History} {s : Cfg}
    (hr : Run (Step Action.switchesApart) (Cfg.initial hash cpu) h s) {tgid : ℤ}
    {tg : ThreadGroup} (hg : getGroup tgid s.groups = some tg) :
    Exclusion tg (fun pid => s.frame ⟨tgid, pid⟩) := by
  obtain ⟨hf, hs⟩ := switching_settled_of_run hr tgid
  exact (((inv_of_run hr).views tgid).grouped tg hg).exclusion (hs tg hg) hf

/-- A thread in the middle of a switch, while another one is turned away from its target. -/
def contendedSwitch : List Action :=
  [.convert ⟨1, 1⟩ .succeeds, .convert ⟨1, 2⟩ .succeeds, .create ⟨1, 1⟩ .succeeds ⟨0, 0, 0, 0⟩,
    .call ⟨1, 1⟩ (.switch 2), .call ⟨1, 2⟩ (.switch 2)] ++
    List.replicate 12 (.tick ⟨1, 1⟩) ++ List.replicate 4 (.tick ⟨1, 2⟩)

theorem mutual_exclusion_contendedSwitch :
    ∃ h s tg, execute [] (Cfg.initial (fun _ => 0) default) contendedSwitch = some (h, s) ∧
      getGroup 1 s.groups = some tg ∧ Exclusion tg (fun pid => s.frame ⟨1, pid⟩) := by
  obtain ⟨h, s, he, hc⟩ := exists_execute (Cfg.initial (fun _ => 0) default) contendedSwitch
    (fun _ s => (getGroup 1 s.groups).isSome) (by decide +kernel)
  obtain ⟨tg, hg⟩ := Option.isSome_iff_exists.mp hc
  refine ⟨h, s, tg, he, hg, mutual_exclusion (run_of_execute_initial contendedSwitch ?_ ?_ he) hg⟩
  · simp [contendedSwitch, Action.switchesApart]
  · decide

end Fibers
