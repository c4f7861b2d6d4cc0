import Fibers.CallEffects

/-!
# What a step does to one group

A step of the system concerns one thread and the group of that thread, and leaves
everything else as it is. `ViewStep` lists what it can do to the part of the system that
belongs to one group; invariants and histories of a group are proved against this list
and not against the step function.

## Main results

- `viewStep_of_step` — every step is one of the listed ones for every group
- `unique_of_step` — no step lets two groups have the same id
-/

namespace Fibers

/-- The part of a configuration that belongs to one group. -/
structure GroupView where
  tg : Option ThreadGroup
  frame : ℤ → Frame
  cpu : ℤ → Cpu

def Cfg.view (s : Cfg) (tgid : ℤ) : GroupView where
  tg := getGroup tgid s.groups
  frame := fun pid => s.frame ⟨tgid, pid⟩
  cpu := fun pid => s.cpu ⟨tgid, pid⟩

/-- The group that an action is about. -/
def Action.tgid : Action → ℤ
  | .user t _ => t.tgid
  | .call t _ => t.tgid
  | .tick t => t.tgid
  | .convert t _ => t.tgid
  | .create t _ _ => t.tgid
  | .cleanup tgid => tgid

/-- The group is there, or a convert would generate it. -/
def GroupView.Offers (v : GroupView) (tgid : ℤ) (tg : ThreadGroup) : Prop :=
  v.tg = some tg ∨ v.tg = none ∧ ∃ hash, tg = freshGroup hash tgid

/-- A field of every fiber; `d` stands for the fibers that do not exist. -/
def GroupView.field {α : Type*} (v : GroupView) (d : α) (proj : Fiber → α) (fid : ℤ) : α :=
  v.tg.elim d fun tg => tg.field d proj fid

/-- The steps as seen by the group `tgid`, each with the result of the call that it ends. -/
inductive ViewStep (tgid : ℤ) (v : GroupView) : Action → Option Ret → GroupView → Prop
  | elsewhere {a r} (ha : a.tgid ≠ tgid) : ViewStep tgid v a r v
  | user {pid cpu} (hu : v.frame pid = .user) :
      ViewStep tgid v (.user ⟨tgid, pid⟩ cpu) none
        { v with cpu := Function.update v.cpu pid cpu }
  | call {pid c} (hu : v.frame pid = .user) :
      ViewStep tgid v (.call ⟨tgid, pid⟩ c) none
        { v with frame := Function.update v.frame pid c.entry }
  | plock {pid tg} (hf : v.frame pid = .convertGroup) (ho : v.Offers tgid tg) :
      ViewStep tgid v (.tick ⟨tgid, pid⟩) none
        { v with tg := some tg, frame := Function.update v.frame pid .convertThread }
  | noGroup {pid} (hg : v.tg = none) (hl : (v.frame pid).looksUpGroup = true) :
      ViewStep tgid v (.tick ⟨tgid, pid⟩) (some (.error .ESRCH))
        { v with
          frame := Function.update v.frame pid .user
          cpu := Function.update v.cpu pid ((v.cpu pid).setReturn (.error .ESRCH)) }
  | piece {pid tg p} (hg : v.tg = some tg)
      (hp : piece tg pid (v.cpu pid) (v.frame pid) = some p) :
      ViewStep tgid v (.tick ⟨tgid, pid⟩) p.result
        { tg := some p.tg
          frame := Function.update v.frame pid p.frame
          cpu := Function.update v.cpu pid p.cpu }
  | convertAgain {pid k tg th} (hu : v.frame pid = .user) (ho : v.Offers tgid tg)
      (ht : getThread pid tg = some th) :
      ViewStep tgid v (.convert ⟨tgid, pid⟩ k) (some (.error .EEXIST))
        { v with
          tg := some tg
          cpu := Function.update v.cpu pid ((v.cpu pid).setReturn (.error .EEXIST)) }
  | convert {pid k tg} (hu : v.frame pid = .user) (ho : v.Offers tgid tg)
      (ht : getThread pid tg = none) :
      ViewStep tgid v (.convert ⟨tgid, pid⟩ k) (some (.ok (nextFid tg)))
        { v with
          tg := some (converted tg pid (v.cpu pid))
          cpu := Function.update v.cpu pid ((v.cpu pid).setReturn (.ok (nextFid tg))) }
  | createUnknown {pid k a} (hu : v.frame pid = .user) :
      ViewStep tgid v (.create ⟨tgid, pid⟩ k a) (some (.error .ESRCH))
        { v with cpu := Function.update v.cpu pid ((v.cpu pid).setReturn (.error .ESRCH)) }
  | create {pid k a tg th} (hu : v.frame pid = .user) (hg : v.tg = some tg)
      (ht : getThread pid tg = some th) :
      ViewStep tgid v (.create ⟨tgid, pid⟩ k a) (some (.ok (nextFid tg)))
        { v with
          tg := some (created tg th (v.cpu pid) a)
          cpu := Function.update v.cpu pid ((v.cpu pid).setReturn (.ok (nextFid tg))) }
  | cleanup (alone : ∀ pid, v.frame pid = .user) :
      ViewStep tgid v (.cleanup tgid) none { v with tg := none }

section Views

variable {v : GroupView} {tg : ThreadGroup}

theorem GroupView.field_of_some {α : Type*} {d : α} {proj : Fiber → α} (hg : v.tg = some tg) :
    v.field d proj = tg.field d proj := by
  funext fid
  rw [GroupView.field, hg]
  rfl

/-- A group that a convert would generate looks like no group. -/
theorem GroupView.Offers.field {tgid : ℤ} (ho : v.Offers tgid tg) {α : Type*} {d : α}
    {proj : Fiber → α} : tg.field d proj = v.field d proj := by
  rcases ho with hg | ⟨hg, hash, rfl⟩
  · exact (GroupView.field_of_some hg).symm
  · funext fid
    rw [GroupView.field, hg]
    rfl

end Views

/-! ## Updates seen from a group -/

section Updates

variable {α : Type} (f : Task → α) (x : α) {tgid pid : ℤ}

theorem update_task_self :
    (fun q => Function.update f ⟨tgid, pid⟩ x ⟨tgid, q⟩) =
      Function.update (fun q => f ⟨tgid, q⟩) pid x := by
  funext q
  by_cases hq : q = pid
  · subst hq
    simp
  · have hne : (⟨tgid, q⟩ : Task) ≠ ⟨tgid, pid⟩ := by simpa using hq
    simp [hq]

theorem update_task_of_ne {t : Task} (ht : t.tgid ≠ tgid) :
    (fun q => Function.update f t x ⟨tgid, q⟩) = fun q => f ⟨tgid, q⟩ := by
  funext q
  have hne : (⟨tgid, q⟩ : Task) ≠ t := by
    rintro rfl
    exact ht rfl
  simp [hne]

end Updates

theorem offers_groupOf (s : Cfg) (tgid : ℤ) :
    (s.view tgid).Offers tgid (groupOf s.groups tgid) := by
  unfold GroupView.Offers Cfg.view groupOf
  cases hg : getGroup tgid s.groups with
  | some tg => exact Or.inl rfl
  | none => exact Or.inr ⟨rfl, s.groups.hash, rfl⟩

/-! ## Tables with distinct group ids -/

theorem unique_storeGroup {groups : Groups} (hu : groups.Unique) (tg : ThreadGroup) :
    (storeGroup groups tg).Unique := hu.modify _ _ _

theorem unique_lookupOrGenerate {groups : Groups} (hu : groups.Unique) (tgid : ℤ) :
    (lookupOrGenerate groups tgid).Unique := by
  unfold lookupOrGenerate getOrGenerateGroup
  cases hg : getGroup tgid groups with
  | some _ => exact hu
  | none => exact hu.add (r := freshGroup groups.hash tgid) hg

theorem unique_cleanupProcess {groups : Groups} (hu : groups.Unique) (tgid : ℤ) :
    (cleanupProcess groups tgid).Unique := by
  unfold cleanupProcess
  split
  · exact hu
  · exact hu.remove tgid

theorem getGroup_cleanupProcess {groups : Groups} (hu : groups.Unique) (tgid k : ℤ) :
    getGroup k (cleanupProcess groups tgid) = if k = tgid then none else getGroup k groups := by
  unfold cleanupProcess
  cases hg : getGroup tgid groups with
  | none =>
    by_cases hk : k = tgid
    · simp [hk, hg]
    · simp [hk]
  | some _ => exact hu.find_remove tgid k

/-! ## The cases of the step function -/

/-- The registry, the threads and their registers after a call that ran as a whole. -/
def Cfg.returned (s : Cfg) (t : Task) (groups : Groups) (r : Ret) : Cfg :=
  { s with groups := groups, cpu := Function.update s.cpu t ((s.cpu t).setReturn r) }

/-- Every way in which the step function yields a configuration. -/
inductive StepCase (s : Cfg) : Action → Option Ret → Cfg → Prop
  | user {t cpu} (hu : s.frame t = .user) :
      StepCase s (.user t cpu) none { s with cpu := Function.update s.cpu t cpu }
  | call {t c} (hu : s.frame t = .user) :
      StepCase s (.call t c) none { s with frame := Function.update s.frame t c.entry }
  | plock {t} (hf : s.frame t = .convertGroup) :
      StepCase s (.tick t) none
        { s with
          groups := lookupOrGenerate s.groups t.tgid
          frame := Function.update s.frame t .convertThread }
  | noGroup {t} (hg : getGroup t.tgid s.groups = none) (hl : (s.frame t).looksUpGroup = true) :
      StepCase s (.tick t) (some (.error .ESRCH)) (s.return t (.error .ESRCH))
  | piece {t tg p} (hg : getGroup t.tgid s.groups = some tg)
      (hp : piece tg t.pid (s.cpu t) (s.frame t) = some p) :
      StepCase s (.tick t) p.result (s.commit t p)
  | convertAgain {t k th} (hu : s.frame t = .user)
      (ht : getThread t.pid (groupOf s.groups t.tgid) = some th) :
      StepCase s (.convert t k) (some (.error .EEXIST))
        (s.returned t (lookupOrGenerate s.groups t.tgid) (.error .EEXIST))
  | convert {t k} (hu : s.frame t = .user)
      (ht : getThread t.pid (groupOf s.groups t.tgid) = none) :
      StepCase s (.convert t k) (some (.ok (nextFid (groupOf s.groups t.tgid))))
        (s.returned t (storeGroup (lookupOrGenerate s.groups t.tgid)
          (converted (groupOf s.groups t.tgid) t.pid (s.cpu t)))
          (.ok (nextFid (groupOf s.groups t.tgid))))
  | createUnknown {t k a} (hu : s.frame t = .user) :
      StepCase s (.create t k a) (some (.error .ESRCH)) (s.returned t s.groups (.error .ESRCH))
  | create {t k a tg th} (hu : s.frame t = .user) (hg : getGroup t.tgid s.groups = some tg)
      (ht : getThread t.pid tg = some th) :
      StepCase s (.create t k a) (some (.ok (nextFid tg)))
        (s.returned t (storeGroup s.groups (created tg th (s.cpu t) a)) (.ok (nextFid tg)))
  | cleanup {tgid} :
      StepCase s (.cleanup tgid) none { s with groups := cleanupProcess s.groups tgid }

theorem step_cases {s s' : Cfg} {a : Action} {r : Option Ret} (h : step s a = some (s', r)) :
    StepCase s a r s' := by
  cases a with
  | user t cpu =>
    simp only [step] at h
    split at h
    · next hu => cases h; exact .user hu
    · cases h
  | call t c =>
    simp only [step] at h
    split at h
    · next hu => cases h; exact .call hu
    · cases h
  | tick t =>
    simp only [step, tick] at h
    split at h
    · next hf => cases h; exact .plock hf
    · split at h
      · next hg =>
        split at h
        · next hl => cases h; exact .noGroup hg hl
        · cases h
      · next tg hg =>
        obtain ⟨p, hp, he⟩ := Option.map_eq_some_iff.mp h
        cases he
        exact .piece hg hp
  | convert t k =>
    simp only [step, doConvertThreadToFiber_eq] at h
    split at h
    · next hu =>
      obtain ⟨⟨groups, res⟩, ho, he⟩ := Option.map_eq_some_iff.mp h
      cases he
      split at ho
      · cases ho
      · split at ho
        · next th ht => cases ho; exact .convertAgain hu ht
        · next ht =>
          split at ho
          · cases ho; exact .convert hu ht
          · cases ho
    · cases h
  | create t k a =>
    simp only [step, doCreateFiber_eq] at h
    split at h
    · next hu =>
      obtain ⟨⟨groups, res⟩, ho, he⟩ := Option.map_eq_some_iff.mp h
      cases he
      split at ho
      · cases ho; exact .createUnknown hu
      · next tg hg =>
        split at ho
        · cases ho; exact .createUnknown hu
        · next th ht =>
          split at ho
          · cases ho; exact .create hu hg ht
          · cases ho
    · cases h
  | cleanup tgid =>
    cases h
    exact .cleanup

theorem unique_of_step {s s' : Cfg} {a : Action} {r : Option Ret} (hu : s.groups.Unique)
    (h : step s a = some (s', r)) : s'.groups.Unique := by
  cases step_cases h with
  | user | call | noGroup | createUnknown => exact hu
  | plock | convertAgain => exact unique_lookupOrGenerate hu _
  | piece | create => exact unique_storeGroup hu _
  | convert => exact unique_storeGroup (unique_lookupOrGenerate hu _) _
  | cleanup => exact unique_cleanupProcess hu _

/-! ## The steps, sorted by what a group sees of them -/

/-- A view is given by the group, the frames and the registers. -/
theorem view_eq {s : Cfg} {tgid : ℤ} {v : GroupView} (hg : getGroup tgid s.groups = v.tg)
    (hf : (fun pid => s.frame ⟨tgid, pid⟩) = v.frame) (hc : (fun pid => s.cpu ⟨tgid, pid⟩) = v.cpu) :
    s.view tgid = v := by
  cases v
  cases hg
  cases hf
  cases hc
  rfl

theorem getGroup_lookupOrGenerate_of_ne (groups : Groups) {tgid k : ℤ} (hk : tgid ≠ k) :
    getGroup k (lookupOrGenerate groups tgid) = getGroup k groups := by
  rw [getGroup_lookupOrGenerate, if_neg (Ne.symm hk)]

theorem getGroup_storeGroup_of_ne (groups : Groups) {tg : ThreadGroup} {tgid k : ℤ}
    (ht : tg.tgid = tgid) (hk : tgid ≠ k) :
    getGroup k (storeGroup groups tg) = getGroup k groups := by
  rw [getGroup_storeGroup, ht, if_neg (Ne.symm hk)]

theorem getGroup_storeGroup_self (groups : Groups) {tg tg' : ThreadGroup} {tgid : ℤ}
    (ht : tg'.tgid = tgid) (hg : getGroup tgid groups = some tg) :
    getGroup tgid (storeGroup groups tg') = some tg' := by
  rw [getGroup_storeGroup, ht, if_pos rfl, hg]
  rfl

/-- A group sees nothing of the steps of the others. -/
theorem view_elsewhere {s s' : Cfg} {a : Action} {r : Option Ret} (hu : s.groups.Unique)
    (h : step s a = some (s', r)) {tgid : ℤ} (ha : a.tgid ≠ tgid) : s'.view tgid = s.view tgid := by
  cases step_cases h with
  | user _ => exact view_eq rfl rfl (update_task_of_ne _ _ ha)
  | call _ => exact view_eq rfl (update_task_of_ne _ _ ha) rfl
  | @plock t _ =>
    have ha : t.tgid ≠ tgid := ha
    exact view_eq (getGroup_lookupOrGenerate_of_ne _ ha) (update_task_of_ne _ _ ha) rfl
  | noGroup _ _ => exact view_eq rfl (update_task_of_ne _ _ ha) (update_task_of_ne _ _ ha)
  | @piece t tg p hg hp =>
    have ha : t.tgid ≠ tgid := ha
    have htg := (piece_effect hp).tgid_eq.trans (tgid_of_getGroup hg)
    exact view_eq (getGroup_storeGroup_of_ne _ htg ha) (update_task_of_ne _ _ ha)
      (update_task_of_ne _ _ ha)
  | @convertAgain t _ _ _ _ =>
    have ha : t.tgid ≠ tgid := ha
    exact view_eq (getGroup_lookupOrGenerate_of_ne _ ha) rfl (update_task_of_ne _ _ ha)
  | @convert t _ _ _ =>
    have ha : t.tgid ≠ tgid := ha
    have htg := (tgid_converted (groupOf s.groups t.tgid) t.pid (s.cpu t)).trans (tgid_groupOf _ _)
    exact view_eq ((getGroup_storeGroup_of_ne _ htg ha).trans
      (getGroup_lookupOrGenerate_of_ne _ ha)) rfl (update_task_of_ne _ _ ha)
  | createUnknown _ => exact view_eq rfl rfl (update_task_of_ne _ _ ha)
  | @create t _ a tg th _ hg _ =>
    have ha : t.tgid ≠ tgid := ha
    have htg := (tgid_created tg th (s.cpu t) a).trans (tgid_of_getGroup hg)
    exact view_eq (getGroup_storeGroup_of_ne _ htg ha) rfl (update_task_of_ne _ _ ha)
  | @cleanup k =>
    have ha : k ≠ tgid := ha
    exact view_eq ((getGroup_cleanupProcess hu _ _).trans (if_neg (Ne.symm ha))) rfl rfl

theorem ViewStep.of_view {s : Cfg} {tgid : ℤ} {v v' : GroupView} {a : Action} {r : Option Ret}
    (h : ViewStep tgid v a r v') (hg : getGroup tgid s.groups = v'.tg)
    (hf : (fun pid => s.frame ⟨tgid, pid⟩) = v'.frame)
    (hc : (fun pid => s.cpu ⟨tgid, pid⟩) = v'.cpu) : ViewStep tgid v a r (s.view tgid) := by
  rw [view_eq hg hf hc]
  exact h

/-- What every step does to every group. -/
theorem viewStep_of_step {s s' : Cfg} {a : Action} {r : Option Ret} (hu : s.groups.Unique)
    (h : step s a = some (s', r))
    (alone : ∀ tgid, a = .cleanup tgid → ∀ pid, s.frame ⟨tgid, pid⟩ = .user) (tgid : ℤ) :
    ViewStep tgid (s.view tgid) a r (s'.view tgid) := by
  by_cases ha : a.tgid = tgid
  · subst ha
    cases step_cases h with
    | @user t cpu hf =>
      have hs : ViewStep t.tgid (s.view t.tgid) (.user t cpu) none _ := .user hf
      exact hs.of_view rfl rfl (update_task_self _ _)
    | @call t c hf =>
      have hs : ViewStep t.tgid (s.view t.tgid) (.call t c) none _ := .call hf
      exact hs.of_view rfl (update_task_self _ _) rfl
    | @plock t hf =>
      have hs : ViewStep t.tgid (s.view t.tgid) (.tick t) none _ :=
        .plock hf (offers_groupOf s t.tgid)
      exact hs.of_view (by simp) (update_task_self _ _) rfl
    | @noGroup t hg hl =>
      have hs : ViewStep t.tgid (s.view t.tgid) (.tick t) _ _ := .noGroup hg hl
      exact hs.of_view rfl (update_task_self _ _) (update_task_self _ _)
    | @piece t tg p hg hp =>
      have hs : ViewStep t.tgid (s.view t.tgid) (.tick t) _ _ := .piece hg hp
      have htg := (piece_effect hp).tgid_eq.trans (tgid_of_getGroup hg)
      exact hs.of_view (getGroup_storeGroup_self _ htg hg) (update_task_self _ _)
        (update_task_self _ _)
    | @convertAgain t k th hf ht =>
      have hs : ViewStep t.tgid (s.view t.tgid) (.convert t k) _ _ :=
        .convertAgain hf (offers_groupOf s t.tgid) ht
      exact hs.of_view (by simp [Cfg.returned]) rfl (update_task_self _ _)
    | @convert t k hf ht =>
      have hs : ViewStep t.tgid (s.view t.tgid) (.convert t k) _ _ :=
        .convert hf (offers_groupOf s t.tgid) ht
      refine hs.of_view ?_ rfl (update_task_self _ _)
      exact getGroup_storeGroup_self _ (tgid_groupOf _ _)
        ((getGroup_lookupOrGenerate _ _ _).trans (if_pos rfl))
    | @createUnknown t k a hf =>
      have hs : ViewStep t.tgid (s.view t.tgid) (.create t k a) _ _ := .createUnknown hf
      exact hs.of_view rfl rfl (update_task_self _ _)
    | @create t k a tg th hf hg ht =>
      have hs : ViewStep t.tgid (s.view t.tgid) (.create t k a) _ _ := .create hf hg ht
      have htg := (tgid_created tg th (s.cpu t) a).trans (tgid_of_getGroup hg)
      exact hs.of_view (getGroup_storeGroup_self _ htg hg) rfl (update_task_self _ _)
    | @cleanup tgid =>
      have hs : ViewStep tgid (s.view tgid) (.cleanup tgid) none _ := .cleanup (alone tgid rfl)
      exact hs.of_view (by simp [getGroup_cleanupProcess hu]) rfl rfl
  · rw [view_elsewhere hu h ha]
    exact .elsewhere ha

end Fibers
