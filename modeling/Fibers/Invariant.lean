import Fibers.GroupInvariant
import Fibers.Locality

/-!
# The invariant of the system

Every group satisfies `GroupInv`, threads whose group does not exist are at a lookup of
it or in user code, and no two groups have the same id. All kinds of steps keep this:
pieces, whole converts and creates, and cleanups that do not overlap a call.

## Main results

- `ViewStep.inv` — the invariant of one group over one step
- `inv_of_run` — the invariant in every reachable configuration
-/

namespace Fibers

/-- The frames that do not presuppose the caller's group. -/
def Frame.awaitsGroup : Frame → Bool
  | .user => true
  | .convertGroup => true
  | .createLookup _ => true
  | .switchThread _ => true
  | _ => false

theorem frameOk_of_awaitsGroup {tg : ThreadGroup} {pid : ℤ} {fr : Frame}
    (h : fr.awaitsGroup = true) : FrameOk tg pid fr := by
  cases fr <;> trivial

theorem phase_of_awaitsGroup {fr : Frame} (h : fr.awaitsGroup = true) : fr.phase = .resting := by
  cases fr <;> first | rfl | cases h

theorem awaitsGroup_of_looksUpGroup {fr : Frame} (h : fr.looksUpGroup = true) :
    fr.awaitsGroup = true := by
  cases fr <;> first | rfl | cases h

theorem awaitsGroup_entry (c : Call) : c.entry.awaitsGroup = true := by
  cases c <;> rfl

/-- The thread of a convert is on its fiber, and no other thread moves. -/
theorem current_converted {tg : ThreadGroup} {pid : ℤ} {cpu : Cpu} (hfid : nextFid tg ≠ noFibers) :
    (converted tg pid cpu).current = Function.update tg.current pid (some (nextFid tg)) := by
  funext q
  by_cases hq : q = pid <;> simp [ThreadGroup.current, hq, hfid]

namespace GroupInv

variable {tg : ThreadGroup} {frame : ℤ → Frame} {pid : ℤ}

/-- A new group, with every thread still on the way to it. -/
theorem fresh (hash : ℤ → Bucket) (tgid : ℤ) (h : ∀ pid, (frame pid).awaitsGroup = true) :
    GroupInv (freshGroup hash tgid) frame where
  numbered := numbered_freshGroup hash tgid
  frames := fun pid => frameOk_of_awaitsGroup (h pid)
  locks := by
    have hv : lockView (freshGroup hash tgid) frame = Handover.State.initial 0 := by
      refine Handover.State.ext rfl rfl rfl ?_
      funext pid
      exact phase_of_awaitsGroup (h pid)
    rw [hv]
    exact Handover.Inv.initial

/-- A thread moves between frames without touching the group. -/
theorem goto (h : GroupInv tg frame) {fr : Frame} (hok : FrameOk tg pid fr)
    (hp : fr.phase = (frame pid).phase) : GroupInv tg (Function.update frame pid fr) where
  numbered := h.numbered
  frames := by
    intro q
    by_cases hq : q = pid
    · subst hq
      rw [Function.update_self]
      exact hok
    · rw [Function.update_of_ne hq]
      exact h.frames q
  locks := by
    rw [lockView_eq view_same rfl hp]
    exact h.locks

/-! ## Whole converts and creates -/

/-- A whole convert is three steps of the hand-over protocol: its thread takes, marks and enters
the new fiber. -/
theorem converted_refines (h : GroupInv tg frame) (hu : (frame pid).phase = .resting)
    (hn : getThread pid tg = none) (few : tg.fibers.size < 2 ^ 31) (cpu : Cpu) :
    ∃ v v', Handover.Step 0 (lockView tg frame) v ∧ Handover.Step 0 v v' ∧
      Handover.Step 0 v' (lockView (converted tg pid cpu) frame) := by
  have hfree := h.numbered.getFiber_nextFid few
  have hfid := h.numbered.nextFid_ne_noFibers few
  have hl : (lockView tg frame).locked (nextFid tg) = false := by
    simp [lockView, ThreadGroup.locked, hfree]
  have hc : tg.current pid = none := by simp [ThreadGroup.current, hn]
  let v := (lockView tg frame).take pid (nextFid tg)
  have hv : v.phase pid = .taken (nextFid tg) := by simp [v, Handover.State.take]
  let v' := v.mark pid (nextFid tg)
  have hv' : v'.phase pid = .marked (nextFid tg) := by simp [v', Handover.State.mark]
  refine ⟨v, v', .take hu hl, .mark hv, ?_⟩
  have hend : lockView (converted tg pid cpu) frame = v'.enter pid (nextFid tg) := by
    refine Handover.State.ext ?_ ?_ ?_ ?_
    · change (converted tg pid cpu).locked = Function.update tg.locked (nextFid tg) true
      funext k
      by_cases hk : k = nextFid tg <;> simp [ThreadGroup.locked, hk, convertedFiber]
    · change (converted tg pid cpu).state = Function.update tg.state (nextFid tg) pid
      funext k
      by_cases hk : k = nextFid tg <;> simp [ThreadGroup.state, hk, convertedFiber]
    · exact current_converted hfid
    · funext q
      by_cases hq : q = pid
      · subst hq
        simpa [v', v, Handover.State.enter, Handover.State.mark, Handover.State.take, hc,
          lockView] using hu
      · simp [v', v, Handover.State.enter, Handover.State.mark, Handover.State.take, hq, lockView]
  rw [hend]
  exact .enter hv'

/-- What the frames point to is still there after several pieces of a thread in user code. -/
theorem frames_of_effects (h : GroupInv tg frame) {tg' : ThreadGroup}
    (he : GroupEffects pid tg tg') (hu : (frame pid).awaitsGroup = true) (q : ℤ) :
    FrameOk tg' q (frame q) := by
  by_cases hq : q = pid
  · subst hq
    exact frameOk_of_awaitsGroup hu
  · exact (h.frames q).mono (fun _ => he.getFiber_isSome) (he.getThread_of_ne hq)

variable {cpu : Cpu}

theorem converted (h : GroupInv tg frame) (hu : (frame pid).awaitsGroup = true)
    (hn : getThread pid tg = none) (few : (converted tg pid cpu).fibers.size < 2 ^ 31) :
    GroupInv (Fibers.converted tg pid cpu) frame where
  numbered := (converted_effects hn cpu).numbered h.numbered few
  frames := h.frames_of_effects (converted_effects hn cpu) hu
  locks := by
    have few₀ := lt_of_le_of_lt (converted_effects hn cpu).size_le few
    obtain ⟨v, v', h₁, h₂, h₃⟩ := h.converted_refines (phase_of_awaitsGroup hu) hn few₀ cpu
    exact h₃.inv (h₂.inv (h₁.inv h.locks))

/-- A whole create is invisible to the hand-over protocol. -/
theorem lockView_created (h : GroupInv tg frame) (few : tg.fibers.size < 2 ^ 31) (t : Thread)
    (a : FibArgs) : lockView (created tg t cpu a) frame = lockView tg frame := by
  have hfree := h.numbered.getFiber_nextFid few
  refine Handover.State.ext ?_ ?_ rfl rfl
  · change (created tg t cpu a).locked = tg.locked
    funext k
    by_cases hk : k = nextFid tg <;>
      simp [ThreadGroup.locked, hk, hfree, createdFiber, newFiber]
  · change (created tg t cpu a).state = tg.state
    funext k
    by_cases hk : k = nextFid tg <;>
      simp [ThreadGroup.state, hk, hfree, createdFiber, newFiber, prepareInfo]

theorem created (h : GroupInv tg frame) (hu : (frame pid).awaitsGroup = true) (t : Thread)
    (a : FibArgs) (few : (created tg t cpu a).fibers.size < 2 ^ 31) :
    GroupInv (Fibers.created tg t cpu a) frame where
  numbered := (created_effects tg pid t cpu a).numbered h.numbered few
  frames := h.frames_of_effects (created_effects tg pid t cpu a) hu
  locks := by
    rw [h.lockView_created (lt_of_le_of_lt (created_effects tg pid t cpu a).size_le few)]
    exact h.locks

end GroupInv

/-! ## The current fibers seen from one group -/

/-- The fiber a thread is on, if it has one. -/
def GroupView.current (v : GroupView) (pid : ℤ) : Option ℤ := v.tg.bind (fun tg => tg.current pid)

section Current

variable {v : GroupView} {tg : ThreadGroup}

theorem GroupView.current_of_some (hg : v.tg = some tg) : v.current = tg.current := by
  funext pid
  rw [GroupView.current, hg]
  rfl

theorem GroupView.Offers.current {tgid : ℤ} (ho : v.Offers tgid tg) : tg.current = v.current := by
  rcases ho with hg | ⟨hg, hash, rfl⟩
  · exact (GroupView.current_of_some hg).symm
  · funext pid
    rw [GroupView.current, hg]
    rfl

end Current

/-! ## The invariant seen from one group -/

/-- The invariant of a group that exists, and where threads can be when it does not. -/
structure ViewInv (v : GroupView) : Prop where
  grouped : ∀ tg, v.tg = some tg → GroupInv tg v.frame
  groupless : v.tg = none → ∀ pid, (v.frame pid).awaitsGroup = true

namespace ViewInv

variable {v : GroupView} {tgid pid : ℤ} {tg : ThreadGroup}

theorem of_group {frame : ℤ → Frame} {cpu : ℤ → Cpu} (h : GroupInv tg frame) :
    ViewInv ⟨some tg, frame, cpu⟩ where
  grouped := by
    rintro _ ⟨⟩
    exact h
  groupless := by simp

theorem of_offers (h : ViewInv v) (ho : v.Offers tgid tg) : GroupInv tg v.frame := by
  rcases ho with hg | ⟨hg, hash, rfl⟩
  · exact h.grouped tg hg
  · exact GroupInv.fresh hash tgid (h.groupless hg)

/-- A thread goes to a frame for which it needs no record. -/
theorem goto (h : ViewInv v) {fr : Frame} {cpu : ℤ → Cpu} (hfr : fr.awaitsGroup = true)
    (hp : (v.frame pid).phase = .resting) :
    ViewInv { v with frame := Function.update v.frame pid fr, cpu := cpu } where
  grouped := fun tg hg => (h.grouped tg hg).goto (frameOk_of_awaitsGroup hfr)
    ((phase_of_awaitsGroup hfr).trans hp.symm)
  groupless := by
    intro hg q
    by_cases hq : q = pid
    · subst hq
      simpa using hfr
    · simpa [hq] using h.groupless hg q

end ViewInv

/-- One step keeps the invariant of every group. -/
theorem ViewStep.inv {tgid : ℤ} {v v' : GroupView} {a : Action} {r : Option Ret}
    (hs : ViewStep tgid v a r v') (h : ViewInv v)
    (few : ∀ tg, v'.tg = some tg → tg.fibers.size < 2 ^ 31) : ViewInv v' := by
  cases hs with
  | elsewhere _ => exact h
  | user _ => exact ⟨h.grouped, h.groupless⟩
  | call hu => exact h.goto (awaitsGroup_entry _) (by rw [hu]; rfl)
  | plock hf ho =>
    exact .of_group ((h.of_offers ho).goto trivial (by rw [hf]; rfl))
  | noGroup hg hl =>
    exact h.goto rfl (phase_of_awaitsGroup (awaitsGroup_of_looksUpGroup hl))
  | piece hg hp => exact .of_group ((h.grouped _ hg).piece hp (few _ rfl))
  | convertAgain _ ho _ => exact .of_group (h.of_offers ho)
  | convert hu ho ht =>
    exact .of_group ((h.of_offers ho).converted (by rw [hu]; rfl) ht (few _ rfl))
  | createUnknown _ => exact ⟨h.grouped, h.groupless⟩
  | create hu hg _ =>
    exact .of_group ((h.grouped _ hg).created (by rw [hu]; rfl) _ _ (few _ rfl))
  | cleanup alone =>
    refine ⟨by simp, fun _ pid => ?_⟩
    rw [alone pid]
    rfl

/-! ## The invariant of the system -/

structure Inv (s : Cfg) : Prop where
  unique : s.groups.Unique
  views : ∀ tgid, ViewInv (s.view tgid)

theorem Inv.initial (hash : ℤ → Bucket) (cpu : Task → Cpu) : Inv (Cfg.initial hash cpu) where
  unique := HashTable.unique_init hash
  views := fun _ => ⟨by simp [Cfg.view, Cfg.initial, getGroup], fun _ _ => rfl⟩

variable {allowed : Action → Prop} {s s' : Cfg} {a : Action}

/-- What a step does to a group, given the invariant. -/
theorem Step.view (h : Step allowed s a s') (hi : Inv s) (tgid : ℤ) :
    ∃ r, ViewStep tgid (s.view tgid) a r (s'.view tgid) := by
  obtain ⟨r, hr⟩ := h.fires
  exact ⟨r, viewStep_of_step hi.unique hr h.alone tgid⟩

theorem Step.inv (h : Step allowed s a s') (hi : Inv s) : Inv s' where
  unique := by
    obtain ⟨r, hr⟩ := h.fires
    exact unique_of_step hi.unique hr
  views := by
    intro tgid
    obtain ⟨r, hv⟩ := h.view hi tgid
    exact hv.inv (hi.views tgid) (h.few tgid)

/-- The invariant holds in every reachable configuration. -/
theorem inv_of_run {hash : ℤ → Bucket} {cpu : Task → Cpu} {h : History}
    (hr : Run (Step allowed) (Cfg.initial hash cpu) h s) : Inv s :=
  hr.invariant (Inv.initial hash cpu) (fun _ _ _ hi hs => hs.inv hi)

/-- An invariant between the history and the view of one group. Every step is given with what it
does to the group and with the result of the call that it ends. -/
theorem view_of_history {hash : ℤ → Bucket} {cpu : Task → Cpu} {h : History} {tgid : ℤ}
    {I : History → GroupView → Prop} (hr : Run (Step allowed) (Cfg.initial hash cpu) h s)
    (init : ∀ cpu, I [] ⟨none, fun _ => .user, cpu⟩)
    (keep : ∀ h e r, allowed e.act → ViewInv (e.pre.view tgid) → I h (e.pre.view tgid) →
      (∀ tg, (e.post.view tgid).tg = some tg → tg.fibers.size < 2 ^ 31) →
      step e.pre e.act = some (e.post, r) →
      ViewStep tgid (e.pre.view tgid) e.act r (e.post.view tgid) → I (e :: h) (e.post.view tgid)) :
    I h (s.view tgid) := by
  have hii : Inv s ∧ I h (s.view tgid) := by
    refine hr.induct (I := fun h s => Inv s ∧ I h (s.view tgid)) ⟨Inv.initial hash cpu, init _⟩ ?_
    rintro h s a s' _ ⟨hi, hv⟩ hs
    obtain ⟨r, hfires⟩ := hs.fires
    exact ⟨hs.inv hi, keep h ⟨s, a, s'⟩ r hs.allowed (hi.views tgid) hv (hs.few tgid) hfires
      (viewStep_of_step hi.unique hfires hs.alone tgid)⟩
  exact hii.2

/-- An invariant of the view of one group. -/
theorem view_of_run {hash : ℤ → Bucket} {cpu : Task → Cpu} {h : History} {tgid : ℤ}
    {I : GroupView → Prop} (hr : Run (Step allowed) (Cfg.initial hash cpu) h s)
    (init : ∀ cpu, I ⟨none, fun _ => .user, cpu⟩)
    (keep : ∀ v a r v', allowed a → ViewInv v → I v →
      (∀ tg, v'.tg = some tg → tg.fibers.size < 2 ^ 31) → ViewStep tgid v a r v' → I v') :
    I (s.view tgid) :=
  view_of_history (I := fun _ v => I v) hr init
    (fun _ _ _ ha hi hv few _ hs => keep _ _ _ _ ha hi hv few hs)

end Fibers
