import Fibers.LockProtocol

/-!
# The invariant of a group

`GroupInv` holds of a group and its threads between any two pieces: the tables are
numbered, the local variables of every frame point to records, and the locks satisfy
the invariant of the hand-over protocol. It is kept by every piece of every thread,
in whatever order they interleave, and whether or not a fiber is contended before its
own convert has locked it.

## Main results

- `GroupInv.piece_refines` — a piece is a step of the hand-over protocol
- `GroupInv.piece` — a piece keeps the invariant
-/

namespace Fibers

theorem Numbered.fid_ne_noFibers {tg : ThreadGroup} (h : Numbered tg) {fid : ℤ}
    (hf : tg.HasFiber fid) : fid ≠ noFibers := by
  have := (h.getFiber_isSome_iff.mp hf).1
  unfold noFibers
  omega

/-- A group together with where its threads are: the tables, the frames and the locks. -/
structure GroupInv (tg : ThreadGroup) (frame : ℤ → Frame) : Prop where
  numbered : Numbered tg
  frames : ∀ pid, FrameOk tg pid (frame pid)
  locks : Handover.Inv 0 (lockView tg frame)

namespace GroupInv

variable {tg : ThreadGroup} {frame : ℤ → Frame} {pid : ℤ} {cpu : Cpu} {p : Piece}

theorem fid_ne_noFibers (h : GroupInv tg frame) {fid : ℤ} (hf : tg.HasFiber fid) :
    fid ≠ noFibers := h.numbered.fid_ne_noFibers hf

theorem hasFiber_of_locked {fid : ℤ} (hl : tg.locked fid = true) : tg.HasFiber fid := by
  unfold ThreadGroup.HasFiber
  unfold ThreadGroup.locked at hl
  cases hf : getFiber fid tg with
  | none => simp [hf] at hl
  | some f => rfl

/-- The current fiber of a thread exists. -/
theorem hasFiber_of_current (h : GroupInv tg frame) {c : ℤ} (hc : tg.current pid = some c) :
    tg.HasFiber c :=
  hasFiber_of_locked (h.locks.locked_of_holds pid c (Or.inl hc))

/-- A registered thread is on an existing fiber or on none. -/
theorem currentIs_cases (h : GroupInv tg frame) (ht : tg.HasThread pid) :
    tg.CurrentIs pid noFibers ∨ ∃ c, tg.HasFiber c ∧ tg.CurrentIs pid c := by
  obtain ⟨t, ht⟩ := Option.isSome_iff_exists.mp ht
  by_cases hc : t.currentFid = noFibers
  · exact Or.inl ⟨t, ht, hc⟩
  · have hcur : tg.current pid = some t.currentFid := by
      simp [ThreadGroup.current, ht, hc]
    exact Or.inr ⟨t.currentFid, h.hasFiber_of_current hcur, t, ht, rfl⟩

/-- A fiber whose try-lock just succeeded has state 0. -/
theorem state_of_taken (h : GroupInv tg frame) {f : ℤ} (hp : (frame pid).phase = .taken f) :
    tg.state f = 0 := h.locks.tag_of_taken hp

/-- A check always passes. -/
theorem state_of_check (h : GroupInv tg frame) {c : Caller} {k : ℤ} {f : Fiber}
    (hfr : frame pid = .check c k) (hf : getFiber k tg = some f) : f.info.state = 0 := by
  have htaken : (frame pid).phase = .taken k := by rw [hfr]; rfl
  rw [← state_of_getFiber hf]
  exact h.state_of_taken htaken

/-! ## The frames after a piece -/

/-- A piece keeps what the frames of the other threads point to. -/
theorem frames_of_ne (h : GroupInv tg frame) (hp : piece tg pid cpu (frame pid) = some p)
    {q : ℤ} (hq : q ≠ pid) : FrameOk p.tg q (frame q) :=
  have he := piece_effect hp
  (h.frames q).mono (fun _ => he.getFiber_isSome) (he.getThread_of_ne hq)

theorem hasFiber_newFiber (t : Thread) (cpu : Cpu) :
    (addFiber tg t cpu).HasFiber (nextFid tg) := by
  simp [ThreadGroup.HasFiber]

/-- The frame that a piece leads to points to records again. -/
theorem frame_self (h : GroupInv tg frame) (hp : piece tg pid cpu (frame pid) = some p) :
    FrameOk p.tg pid p.frame := by
  have hok := h.frames pid
  have he := piece_effect hp
  have hF : ∀ {fid}, tg.HasFiber fid → p.tg.HasFiber fid := he.getFiber_isSome
  have hT : tg.HasThread pid → p.tg.HasThread pid := he.getThread_isSome
  generalize frame pid = fr at hp hok
  cases piece_step hp with
  | convertAgain _ | createUnknown _ | createContext _ | switchUnknown _ | noTarget _ | fail _
  | nowhere _ _ | converted _ | loadFpu _ => trivial
  | convertThread _ => exact ⟨⟨pid, noFibers⟩, by simp [Piece.goto], rfl⟩
  | convertFiber _ => exact ⟨hasFiber_newFiber _ cpu, hok⟩
  | createFiber _ => exact hasFiber_newFiber _ cpu
  | createLookup ht | switchThread ht =>
    simp [FrameOk, Piece.goto, ThreadGroup.HasThread, ht]
  | createStack _ => exact hF hok
  | switchTarget hf => exact ⟨by simp [ThreadGroup.HasFiber, Piece.goto, hf], hok⟩
  | @locked c | @used c => exact ⟨hok.1, by cases c <;> exact hok.2⟩
  | @lock c => exact ⟨hF hok.1, by cases c <;> exact hok.2⟩
  | switchOld ht hf => exact ⟨hok.1, by simp [ThreadGroup.HasFiber, Piece.goto, hf], _, ht, rfl⟩
  | @activateState old | @activateWrite old | @activateTime old =>
    refine ⟨hF hok.1, ?_⟩
    cases old with
    | none => exact hok.2
    | some o => exact ⟨hF hok.2.1, hok.2.2⟩
  | checkConvert _ _ | checkSwitch _ _ | activateRead _ | loadRegs _ => exact hok
  | @activateCurrent o f t ht =>
    exact ⟨hok.2.1, hok.1, t.setCurrent f, by simp [Piece.goto, ht], rfl⟩
  | saveRegs _ | saveFpu _ | account _ | clearState _ =>
    exact ⟨hF hok.1, hF hok.2.1, hok.2.2⟩
  | unlock _ => exact ⟨hF hok.2.1, hok.2.2⟩

/-! ## Every piece is a step of the protocol -/

/-- A piece that changes neither locks, states nor current fibers, between frames of one
phase, is not seen by the protocol. -/
theorem lockView_eq {tg' : ThreadGroup} {fr : Frame}
    (hv : tg'.locked = tg.locked ∧ tg'.state = tg.state) (hc : tg'.current = tg.current)
    (hp : fr.phase = (frame pid).phase) :
    lockView tg' (Function.update frame pid fr) = lockView tg frame := by
  refine Handover.State.ext hv.1 hv.2 hc ?_
  change (fun q => (Function.update frame pid fr q).phase) = _
  rw [phase_update, hp]
  exact Function.update_eq_self pid (fun q => (frame q).phase)

/-- The protocol's step, from what a write does to the view. -/
theorem step_of_view {tg' : ThreadGroup} {fr : Frame} {v : Handover.State ℤ ℤ}
    (hs : Handover.Step 0 (lockView tg frame) v)
    (hv : lockView tg' (Function.update frame pid fr) = v) :
    Handover.Step 0 (lockView tg frame) (lockView tg' (Function.update frame pid fr)) := by
  rw [hv]
  exact hs

theorem view_same : tg.locked = tg.locked ∧ tg.state = tg.state := ⟨rfl, rfl⟩

/-- A piece of `pid` is invisible to the protocol, or a step of it, or the exit of a switch that
has locked its target and finds that its thread is on no fiber. -/
theorem piece_refines (h : GroupInv tg frame) (hp : piece tg pid cpu (frame pid) = some p)
    (few : p.tg.fibers.size < 2 ^ 31) :
    lockView p.tg (Function.update frame pid p.frame) = lockView tg frame ∨
      Handover.Step 0 (lockView tg frame) (lockView p.tg (Function.update frame pid p.frame)) ∨
      ((∃ f, frame pid = .switchOld f) ∧ tg.CurrentIs pid noFibers ∧
        lockView p.tg (Function.update frame pid p.frame) = (lockView tg frame).abandon pid) := by
  have hok := h.frames pid
  have few₀ : tg.fibers.size < 2 ^ 31 := lt_of_le_of_lt (piece_effect hp).size_le few
  generalize hfr : frame pid = fr at hp hok
  have hphase : (frame pid).phase = fr.phase := by rw [hfr]
  cases piece_step hp with
  | convertThread hn => exact Or.inl (lockView_eq view_same (current_addThread hn) hphase.symm)
  | convertFiber _ | createFiber _ =>
    exact Or.inl (lockView_eq (view_addFiber _ cpu (h.numbered.getFiber_nextFid few₀)) rfl
      hphase.symm)
  | createStack _ | createContext _ | fail _ | activateWrite _ | activateTime _ | saveRegs _
  | saveFpu _ | account _ =>
    exact Or.inl (lockView_eq (view_onFiber_of_same (fun _ => rfl) (fun _ => rfl)) rfl hphase.symm)
  | @lock c f g hg hl =>
    have hv : lockView (tg.onFiber f Fiber.lock) (Function.update frame pid (.check c f)) =
        (lockView tg frame).take pid f :=
      Handover.State.ext (locked_onFiber_of_const (fun _ => rfl) hok.1)
        (state_onFiber_of_same (fun _ => rfl)) rfl (phase_update frame pid _)
    refine Or.inr (Or.inl (step_of_view (.take ?_ ?_) hv))
    · exact hphase
    · simp [lockView, ThreadGroup.locked, hg, hl]
  | used hg hs =>
    -- the lock was just taken, so the state is 0 and the failing branch is dead
    exact absurd (h.state_of_check hfr hg) hs
  | @nowhere f t ht hc =>
    have hnone : tg.CurrentIs pid noFibers := by
      rcases h.currentIs_cases hok.2 with hn | ⟨c, hf, t', ht', rfl⟩
      · exact hn
      · obtain rfl : t = t' := Option.some.inj (ht.symm.trans ht')
        simp [ThreadGroup.HasFiber, hc] at hf
    refine Or.inr (Or.inr ⟨⟨f, rfl⟩, hnone, ?_⟩)
    exact Handover.State.ext rfl rfl rfl (phase_update frame pid .user)
  | @activateState old f =>
    have hv : lockView (tg.onFiber f (Fiber.setState pid))
        (Function.update frame pid (.activateRead old f)) = (lockView tg frame).mark pid f :=
      Handover.State.ext (locked_onFiber_of_same (fun _ => rfl))
        (state_onFiber_of_const (fun _ => rfl) hok.1) rfl (phase_update frame pid _)
    exact Or.inr (Or.inl (step_of_view (.mark hphase) hv))
  | @converted f t ht =>
    have hc : (lockView tg frame).current pid = none :=
      ThreadGroup.CurrentIs.current_eq_none hok.2
    have hv : lockView (tg.onThread pid (Thread.setCurrent f))
        (Function.update frame pid .user) = (lockView tg frame).enter pid f := by
      refine Handover.State.ext rfl rfl
        (current_onThread_setCurrent (by simp [ht]) (h.fid_ne_noFibers hok.1)) ?_
      simp only [Handover.State.enter, hc]
      exact phase_update frame pid .user
    exact Or.inr (Or.inl (step_of_view (.enter hphase) hv))
  | @activateCurrent o f t ht =>
    have hc : (lockView tg frame).current pid = some o :=
      hok.2.2.current_eq (h.fid_ne_noFibers hok.2.1)
    have hv : lockView (tg.onThread pid (Thread.setCurrent f))
        (Function.update frame pid (.saveRegs o f)) = (lockView tg frame).enter pid f := by
      refine Handover.State.ext rfl rfl
        (current_onThread_setCurrent (by simp [ht]) (h.fid_ne_noFibers hok.1)) ?_
      simp only [Handover.State.enter, hc]
      exact phase_update frame pid (.saveRegs o f)
    exact Or.inr (Or.inl (step_of_view (.enter hphase) hv))
  | @clearState old f =>
    have hv : lockView (tg.onFiber old (Fiber.setState 0))
        (Function.update frame pid (.unlock old f)) = (lockView tg frame).clear 0 pid old :=
      Handover.State.ext (locked_onFiber_of_same (fun _ => rfl))
        (state_onFiber_of_const (fun _ => rfl) hok.1) rfl (phase_update frame pid _)
    exact Or.inr (Or.inl (step_of_view (.clear hphase) hv))
  | @unlock old f =>
    have hv : lockView (tg.onFiber old Fiber.unlock)
        (Function.update frame pid (.loadRegs f)) = (lockView tg frame).release pid old :=
      Handover.State.ext (locked_onFiber_of_const (fun _ => rfl) hok.1)
        (state_onFiber_of_same (fun _ => rfl)) rfl (phase_update frame pid _)
    exact Or.inr (Or.inl (step_of_view (.release hphase) hv))
  | _ => exact Or.inl (lockView_eq view_same rfl hphase.symm)

/-- A piece keeps the invariant. -/
theorem piece (h : GroupInv tg frame) (hp : piece tg pid cpu (frame pid) = some p)
    (few : p.tg.fibers.size < 2 ^ 31) :
    GroupInv p.tg (Function.update frame pid p.frame) where
  numbered := h.numbered.effect (piece_effect hp) few
  frames := by
    intro q
    by_cases hq : q = pid
    · subst hq
      rw [Function.update_self]
      exact h.frame_self hp
    · rw [Function.update_of_ne hq]
      exact h.frames_of_ne hp hq
  locks := by
    rcases h.piece_refines hp few with hv | hs | ⟨⟨f, hf⟩, _, hv⟩
    · rw [hv]
      exact h.locks
    · exact hs.inv h.locks
    · rw [hv]
      exact h.locks.abandon (f := f) (by simp [lockView, hf, Frame.phase])

end GroupInv

end Fibers
