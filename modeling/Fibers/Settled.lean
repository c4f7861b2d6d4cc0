import Fibers.Execution

/-!
# Uncontended converts

A fiber can be found before its own convert has locked it. As long as no other thread
takes that lock first, nothing goes wrong: a registered thread is on a fiber or still
inside its convert, no convert fails, and every taken lock has its holder.

## Main results

- `Settled.piece` — what an uncontended piece keeps
- `ViewStep.settled` — the same for every step of a group
-/

namespace Fibers

/-- The frames of a convert whose thread has its record but no current fiber yet. -/
def Frame.converting : Frame → Bool
  | .convertFiber => true
  | .trylock .convert _ => true
  | .check .convert _ => true
  | .activateState none _ => true
  | .activateRead none _ => true
  | .activateWrite none _ _ => true
  | .activateTime none _ => true
  | .activateCurrent none _ => true
  | _ => false

/-- What holds of a group as long as no convert finds its fiber locked. -/
structure Settled (tg : ThreadGroup) (frame : ℤ → Frame) : Prop where
  registered : ∀ pid, tg.HasThread pid →
    (tg.current pid).isSome = true ∨ (frame pid).converting = true
  no_failure : ∀ pid f, frame pid ≠ .fail .convert f
  tight : Handover.Tight (lockView tg frame)

namespace Settled

variable {tg : ThreadGroup} {frame : ℤ → Frame} {pid : ℤ} {cpu : Cpu} {p : Piece}

theorem fresh (hash : ℤ → Bucket) (tgid : ℤ) (h : ∀ pid, (frame pid).awaitsGroup = true) :
    Settled (freshGroup hash tgid) frame where
  registered := by simp [ThreadGroup.HasThread]
  no_failure := by
    intro pid f hf
    have := h pid
    rw [hf] at this
    cases this
  tight := by
    intro f hl
    simp [lockView, ThreadGroup.locked] at hl

/-- A thread whose convert is not under way is on a fiber. -/
theorem current_isSome (hs : Settled tg frame) (ht : tg.HasThread pid)
    (hc : (frame pid).converting = false) : (tg.current pid).isSome = true := by
  rcases hs.registered pid ht with h | h
  · exact h
  · rw [hc] at h
    cases h

theorem current_eq (hs : Settled tg frame) {t : Thread} (ht : getThread pid tg = some t)
    (hc : (frame pid).converting = false) : tg.current pid = some t.currentFid := by
  have hsome := hs.current_isSome (by simp [ThreadGroup.HasThread, ht]) hc
  obtain ⟨c, hcur⟩ := Option.isSome_iff_exists.mp hsome
  obtain ⟨t', ht', hif⟩ := Option.bind_eq_some_iff.mp hcur
  obtain rfl : t = t' := Option.some.inj (ht.symm.trans ht')
  split at hif
  · cases hif
  · rw [hcur, ← hif]

/-- The current fiber of a registered thread outside a convert is in the table. -/
theorem getFiber_current (h : GroupInv tg frame) (hs : Settled tg frame) {t : Thread}
    (ht : getThread pid tg = some t) (hc : (frame pid).converting = false) :
    (getFiber t.currentFid tg).isSome = true :=
  h.hasFiber_of_current (hs.current_eq ht hc)

/-- Where a piece leads its own thread. -/
theorem registered_self (h : GroupInv tg frame) (hs : Settled tg frame)
    (hp : Fibers.piece tg pid cpu (frame pid) = some p)
    (free : ∀ f, frame pid = .trylock .convert f → tg.locked f = false)
    (ht : p.tg.HasThread pid) :
    (p.tg.current pid).isSome = true ∨ p.frame.converting = true := by
  -- pieces that leave the table of threads alone, outside a convert
  have hsame : p.tg.threads = tg.threads → (frame pid).converting = false →
      (p.tg.current pid).isSome = true := by
    intro he hc
    have ht' : tg.HasThread pid := by
      simpa [ThreadGroup.HasThread, getThread, he] using ht
    simpa [ThreadGroup.current, getThread, he] using hs.current_isSome ht' hc
  have hok := h.frames pid
  generalize hfr : frame pid = fr at hp hok hsame free
  cases piece_step hp with
  | convertThread _ | convertFiber _ | checkConvert _ _ => exact Or.inr rfl
  | @converted f t hth | @activateCurrent _ f t hth =>
    have hcur : (tg.onThread pid (Thread.setCurrent f)).current =
        Function.update tg.current pid (some f) :=
      current_onThread_setCurrent (by simp [hth]) (h.fid_ne_noFibers hok.1)
    left
    simp [Piece.ret, Piece.goto, hcur]
  | @locked c k g hg hl =>
    cases c with
    | switch => exact Or.inl (hsame rfl rfl)
    | convert =>
      have hfree := (locked_of_getFiber hg).symm.trans (free k rfl)
      rw [hl] at hfree
      cases hfree
  | @lock c =>
    cases c with
    | switch => exact Or.inl (hsame rfl rfl)
    | convert => exact Or.inr rfl
  | @used c k g hg hst => exact absurd (h.state_of_check hfr hg) hst
  | @activateState old | @activateRead old | @activateWrite old | @activateTime old =>
    cases old with
    | none => exact Or.inr rfl
    | some o => exact Or.inl (hsame rfl rfl)
  | _ => exact Or.inl (hsame rfl rfl)

/-- An uncontended piece does not lead to the failure exit of a convert. -/
theorem no_failure_self (h : GroupInv tg frame)
    (hp : Fibers.piece tg pid cpu (frame pid) = some p)
    (free : ∀ f, frame pid = .trylock .convert f → tg.locked f = false) (f : ℤ) :
    p.frame ≠ .fail .convert f := by
  generalize hfr : frame pid = fr at hp free
  cases piece_step hp with
  | @locked c k g hg hl =>
    cases c with
    | switch => simp [Piece.goto]
    | convert =>
      have hfree := (locked_of_getFiber hg).symm.trans (free k rfl)
      rw [hl] at hfree
      cases hfree
  | used hg hst => exact absurd (h.state_of_check hfr hg) hst
  | _ => exact Frame.noConfusion

/-- An uncontended piece does not give up a lock that it has taken: it is a step of the protocol
or invisible to it. -/
theorem piece_refines (h : GroupInv tg frame) (hs : Settled tg frame)
    (hp : Fibers.piece tg pid cpu (frame pid) = some p) (few : p.tg.fibers.size < 2 ^ 31) :
    lockView p.tg (Function.update frame pid p.frame) = lockView tg frame ∨
      Handover.Step 0 (lockView tg frame) (lockView p.tg (Function.update frame pid p.frame)) := by
  rcases h.piece_refines hp few with hv | hv | ⟨⟨f, hf⟩, hnone, _⟩
  · exact Or.inl hv
  · exact Or.inr hv
  · have hc := hs.current_isSome hnone.hasThread (by rw [hf]; rfl)
    rw [hnone.current_eq_none] at hc
    cases hc

/-- What an uncontended piece keeps. -/
theorem piece (h : GroupInv tg frame) (hs : Settled tg frame)
    (hp : Fibers.piece tg pid cpu (frame pid) = some p) (few : p.tg.fibers.size < 2 ^ 31)
    (free : ∀ f, frame pid = .trylock .convert f → tg.locked f = false) :
    Settled p.tg (Function.update frame pid p.frame) where
  registered := by
    intro q ht
    by_cases hq : q = pid
    · subst hq
      rw [Function.update_self]
      exact registered_self h hs hp free ht
    · have he := (piece_effect hp).getThread_of_ne hq
      rw [Function.update_of_ne hq]
      have ht' : tg.HasThread q := by simpa [ThreadGroup.HasThread, he] using ht
      simpa [ThreadGroup.current, he] using hs.registered q ht'
  no_failure := by
    intro q f
    by_cases hq : q = pid
    · subst hq
      rw [Function.update_self]
      exact no_failure_self h hp free f
    · rw [Function.update_of_ne hq]
      exact hs.no_failure q f
  tight := by
    rcases piece_refines h hs hp few with hv | hv
    · rw [hv]
      exact hs.tight
    · exact hs.tight.step h.locks hv

/-- A thread that is not inside a convert moves between frames. -/
theorem goto (hs : Settled tg frame) {fr : Frame} (hp : fr.phase = (frame pid).phase)
    (hc : (frame pid).converting = false) (hf : ∀ f, fr ≠ .fail .convert f) :
    Settled tg (Function.update frame pid fr) where
  registered := by
    intro q ht
    by_cases hq : q = pid
    · subst hq
      exact Or.inl (hs.current_isSome ht hc)
    · rw [Function.update_of_ne hq]
      exact hs.registered q ht
  no_failure := by
    intro q f
    by_cases hq : q = pid
    · subst hq
      rw [Function.update_self]
      exact hf f
    · rw [Function.update_of_ne hq]
      exact hs.no_failure q f
  tight := by
    rw [GroupInv.lockView_eq GroupInv.view_same rfl hp]
    exact hs.tight

theorem converted (h : GroupInv tg frame) (hs : Settled tg frame)
    (hu : (frame pid).awaitsGroup = true) (hn : getThread pid tg = none)
    (few : tg.fibers.size < 2 ^ 31) : Settled (Fibers.converted tg pid cpu) frame where
  registered := by
    intro q ht
    by_cases hq : q = pid
    · left
      have hfid := h.numbered.nextFid_ne_noFibers few
      simp [ThreadGroup.current, hq, hfid]
    · have ht' : tg.HasThread q := by simpa [ThreadGroup.HasThread, hq] using ht
      simpa [ThreadGroup.current, hq] using hs.registered q ht'
  no_failure := hs.no_failure
  tight := by
    obtain ⟨v, v', h₁, h₂, h₃⟩ := h.converted_refines (phase_of_awaitsGroup hu) hn few cpu
    have hi₁ := h₁.inv h.locks
    have hi₂ := h₂.inv hi₁
    exact ((hs.tight.step h.locks h₁).step hi₁ h₂).step hi₂ h₃

theorem created (h : GroupInv tg frame) (hs : Settled tg frame) (few : tg.fibers.size < 2 ^ 31)
    (t : Thread) (a : FibArgs) : Settled (Fibers.created tg t cpu a) frame where
  registered := hs.registered
  no_failure := hs.no_failure
  tight := by
    rw [h.lockView_created few]
    exact hs.tight

end Settled

/-! ## Steps of a group -/

/-- No convert of the group is about to find the lock of its fiber taken. -/
def GroupView.Uncontended (v : GroupView) (tgid : ℤ) (a : Action) : Prop :=
  ∀ pid f tg, a = .tick ⟨tgid, pid⟩ → v.frame pid = .trylock .convert f → v.tg = some tg →
    tg.locked f = false

theorem settled_of_offers {v : GroupView} {tgid : ℤ} {tg : ThreadGroup} (hi : ViewInv v)
    (ho : v.Offers tgid tg) (hs : ∀ tg, v.tg = some tg → Settled tg v.frame) :
    Settled tg v.frame := by
  rcases ho with hg | ⟨hg, hash, rfl⟩
  · exact hs tg hg
  · exact Settled.fresh hash tgid (hi.groupless hg)

/-- Uncontended steps keep a group settled. -/
theorem ViewStep.settled {tgid : ℤ} {v v' : GroupView} {a : Action} {r : Option Ret}
    (h : ViewStep tgid v a r v') (hi : ViewInv v) (hs : ∀ tg, v.tg = some tg → Settled tg v.frame)
    (free : v.Uncontended tgid a) (few : ∀ tg, v'.tg = some tg → tg.fibers.size < 2 ^ 31) :
    ∀ tg, v'.tg = some tg → Settled tg v'.frame := by
  cases h with
  | elsewhere _ | user _ | createUnknown _ => exact hs
  | @call pid c hu =>
    intro tg hg
    refine (hs tg hg).goto (by rw [hu]; cases c <;> rfl) (by rw [hu]; rfl) ?_
    cases c <;> simp [Call.entry]
  | plock hf ho =>
    rintro _ ⟨⟩
    exact (settled_of_offers hi ho hs).goto (by rw [hf]; rfl) (by rw [hf]; rfl) (by simp)
  | noGroup hg hl =>
    intro tg hg'
    rw [hg] at hg'
    cases hg'
  | piece hg hp =>
    rintro _ ⟨⟩
    exact (hs _ hg).piece (hi.grouped _ hg) hp (few _ rfl) (fun f hf => free _ f _ rfl hf hg)
  | convertAgain _ ho _ =>
    rintro _ ⟨⟩
    exact settled_of_offers (v := v) hi ho hs
  | convert hu ho ht =>
    rintro _ ⟨⟩
    refine (settled_of_offers hi ho hs).converted (hi.of_offers ho) (by rw [hu]; rfl) ht ?_
    exact lt_of_le_of_lt (converted_effects ht _).size_le (few _ rfl)
  | create hu hg _ =>
    rintro _ ⟨⟩
    refine (hs _ hg).created (hi.grouped _ hg) ?_ _ _
    have := few _ rfl
    rw [size_created] at this
    omega
  | cleanup _ => simp

end Fibers
