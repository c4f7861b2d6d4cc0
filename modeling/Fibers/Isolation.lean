import Fibers.AllocationFailure
import Fibers.Lib.Purge
import Fibers.Locality
import Fibers.Requests

/-!
# Processes do not interfere

Every call looks up the group of its own process and writes back to that group, and a
release removes no other. So whatever the other processes do, a process gets the results
that it would get alone, and its group is what it would be alone.

## Main results

- `serve_local` — a request looks at one group and writes to it
- `processes_do_not_interfere` — the calls of other processes can be deleted from a run
-/

namespace Fibers

/-! ## Operations on one group -/

/-- Two registries are the same to a process. -/
structure SameFor (tgid : ℤ) (g₁ g₂ : Groups) : Prop where
  group : getGroup tgid g₁ = getGroup tgid g₂
  hash : g₁.hash = g₂.hash

/-- The registry with other contents of one group, which is generated if it is not there. -/
def writeBack (groups : Groups) (tgid : ℤ) : Option ThreadGroup → Groups
  | none => groups
  | some tg => storeGroup (lookupOrGenerate groups tgid) tg

section WriteBack

variable {groups : Groups} {tgid : ℤ}

theorem lookupOrGenerate_of_some {tg : ThreadGroup} (h : getGroup tgid groups = some tg) :
    lookupOrGenerate groups tgid = groups := by
  simp [lookupOrGenerate, getOrGenerateGroup, h]

/-- In a group that is there, writing back is storing. -/
theorem writeBack_of_some {tg tg' : ThreadGroup} (h : getGroup tgid groups = some tg) :
    writeBack groups tgid (some tg') = storeGroup groups tg' := by
  rw [writeBack, lookupOrGenerate_of_some h]

theorem getGroup_writeBack {w : Option ThreadGroup} (hw : ∀ tg, w = some tg → tg.tgid = tgid)
    (k : ℤ) : getGroup k (writeBack groups tgid w) =
      if k = tgid then w.or (getGroup k groups) else getGroup k groups := by
  cases w with
  | none => simp [writeBack]
  | some tg =>
    rw [writeBack, getGroup_storeGroup, getGroup_lookupOrGenerate, hw tg rfl]
    split <;> simp

theorem hash_writeBack (w : Option ThreadGroup) : (writeBack groups tgid w).hash = groups.hash := by
  cases w with
  | none => rfl
  | some tg =>
    unfold writeBack lookupOrGenerate getOrGenerateGroup
    cases getGroup tgid groups <;> rfl

theorem unique_writeBack (hu : groups.Unique) (w : Option ThreadGroup) :
    (writeBack groups tgid w).Unique := by
  cases w with
  | none => exact hu
  | some tg => exact unique_storeGroup (unique_lookupOrGenerate hu _) _

end WriteBack

/-- The operation gives the same result in all registries that are the same to the process, and
writes the same contents back to its group. -/
def Local {α : Type} (tgid : ℤ) (op : Groups → Option (Groups × α)) : Prop :=
  ∀ g₁ g₂, SameFor tgid g₁ g₂ →
    op g₁ = none ∧ op g₂ = none ∨
      ∃ w x, (∀ tg, w = some tg → tg.tgid = tgid) ∧ op g₁ = some (writeBack g₁ tgid w, x) ∧
        op g₂ = some (writeBack g₂ tgid w, x)

namespace Local

variable {α β : Type} {tgid : ℤ} {op : Groups → Option (Groups × α)}

theorem map (h : Local tgid op) (f : α → β) :
    Local tgid (fun g => (op g).map fun x => (x.1, f x.2)) := by
  intro g₁ g₂ hs
  rcases h g₁ g₂ hs with ⟨h₁, h₂⟩ | ⟨w, x, hw, h₁, h₂⟩
  · exact Or.inl ⟨by simp [h₁], by simp [h₂]⟩
  · exact Or.inr ⟨w, f x, hw, by simp [h₁], by simp [h₂]⟩

/-- An operation that leaves the registry as it is. -/
theorem const (x : α) : Local tgid (fun g => some (g, x)) :=
  fun _ _ _ => Or.inr ⟨none, x, by simp, rfl, rfl⟩

/-- What a local operation does in one registry. -/
theorem cases (h : Local tgid op) {g g' : Groups} {x : α} (ho : op g = some (g', x)) :
    ∃ w, (∀ tg, w = some tg → tg.tgid = tgid) ∧ g' = writeBack g tgid w := by
  rcases h g g ⟨rfl, rfl⟩ with ⟨hn, _⟩ | ⟨w, y, hw, hy, _⟩
  · rw [hn] at ho
    cases ho
  · rw [hy] at ho
    cases ho
    exact ⟨w, hw, rfl⟩

end Local

/-! ## Every request is local -/

section Calls

variable {g₁ g₂ : Groups} {t : Task}

theorem SameFor.currentFiber (h : SameFor t.tgid g₁ g₂) :
    currentFiber g₁ t = currentFiber g₂ t := by
  unfold Fibers.currentFiber
  rw [h.group]

theorem SameFor.groupOf (h : SameFor t.tgid g₁ g₂) : groupOf g₁ t.tgid = groupOf g₂ t.tgid := by
  unfold Fibers.groupOf
  rw [h.group, h.hash]

/-- The three lookups of an FLS call. -/
theorem currentFiber_eq_some_iff {groups : Groups} {tg : ThreadGroup} {f : Fiber} :
    currentFiber groups t = some (tg, f) ↔ getGroup t.tgid groups = some tg ∧
      ∃ th, getThread t.pid tg = some th ∧ getFiber th.currentFid tg = some f := by
  unfold currentFiber
  cases hg : getGroup t.tgid groups with
  | none => simp
  | some tg' =>
    cases ht : getThread t.pid tg' with
    | none =>
      simp only [Option.bind_eq_bind, Option.bind_some, ht, Option.bind_none, reduceCtorEq,
        Option.some.injEq, false_iff]
      rintro ⟨rfl, th, hth, _⟩
      rw [ht] at hth
      cases hth
    | some th =>
      simp only [Option.bind_eq_bind, Option.bind_some, ht, Option.pure_def,
        Option.bind_eq_some_iff, Option.some.injEq, Prod.mk.injEq]
      constructor
      · rintro ⟨f', hf, rfl, rfl⟩
        exact ⟨rfl, th, ht, hf⟩
      · rintro ⟨rfl, th', hth, hf⟩
        obtain rfl : th = th' := Option.some.inj (ht.symm.trans hth)
        exact ⟨f, hf, rfl, rfl⟩

theorem group_of_currentFiber {groups : Groups} {tg : ThreadGroup} {f : Fiber}
    (h : currentFiber groups t = some (tg, f)) : getGroup t.tgid groups = some tg :=
  (currentFiber_eq_some_iff.mp h).1

/-- Both registries get the same contents stored. -/
theorem store_local {α : Type} (h : SameFor t.tgid g₁ g₂) {tg : ThreadGroup}
    (hg : getGroup t.tgid g₂ = some tg) (tg' : ThreadGroup) (ht : tg'.tgid = tg.tgid) (x : α) :
    ∃ w y, (∀ tg, w = some tg → tg.tgid = t.tgid) ∧
      some (storeGroup g₁ tg', x) = some (writeBack g₁ t.tgid w, y) ∧
      some (storeGroup g₂ tg', x) = some (writeBack g₂ t.tgid w, y) := by
  refine ⟨some tg', x, ?_, ?_, ?_⟩
  · rintro _ ⟨⟩
    exact ht.trans (tgid_of_getGroup hg)
  · rw [writeBack_of_some (h.group.trans hg)]
  · rw [writeBack_of_some hg]

variable (t)

theorem doConvertThreadToFiber_local (k : Kmalloc) (cpu : Cpu) :
    Local t.tgid (fun g => doConvertThreadToFiber k g t cpu) := by
  intro g₁ g₂ h
  simp only [doConvertThreadToFiber_eq, h.group, h.groupOf]
  split
  · exact Or.inl ⟨rfl, rfl⟩
  · cases ht : getThread t.pid (groupOf g₂ t.tgid) with
    | some th =>
      -- the caller is registered, so its group was there
      cases hg : getGroup t.tgid g₂ with
      | none => simp [groupOf, hg] at ht
      | some tg =>
        refine Or.inr ⟨none, .error .EEXIST, by simp, ?_, ?_⟩
        · rw [lookupOrGenerate_of_some (h.group.trans hg)]
          rfl
        · rw [lookupOrGenerate_of_some hg]
          rfl
    | none =>
      dsimp only
      split
      · exact Or.inr ⟨some _, _, by rintro _ ⟨⟩; simp, rfl, rfl⟩
      · exact Or.inl ⟨rfl, rfl⟩

theorem doCreateFiber_local (k : Kmalloc) (cpu : Cpu) (a : FibArgs) :
    Local t.tgid (fun g => doCreateFiber k g t cpu a) := by
  intro g₁ g₂ h
  simp only [doCreateFiber_eq, h.group]
  cases hg : getGroup t.tgid g₂ with
  | none => exact Or.inr ⟨none, _, by simp, rfl, rfl⟩
  | some tg =>
    dsimp only
    cases ht : getThread t.pid tg with
    | none => exact Or.inr ⟨none, _, by simp, rfl, rfl⟩
    | some th =>
      dsimp only
      split
      · exact Or.inr (store_local h hg _ (tgid_created _ _ _ _) _)
      · exact Or.inl ⟨rfl, rfl⟩

theorem tgid_tryEnter (tg : ThreadGroup) (f : Fiber) : (tryEnter tg f).1.tgid = tg.tgid := by
  unfold tryEnter
  split <;> rfl

theorem tgid_switchTo (tg : ThreadGroup) (pid : ℤ) (cpu : Cpu) (old new : Fiber) :
    (switchTo tg pid cpu old new).1.tgid = tg.tgid := by
  unfold switchTo
  dsimp only
  split <;> rfl

theorem doSwitchToFiber_local (cpu : Cpu) (next : ℤ) :
    Local t.tgid (fun g => some (doSwitchToFiber g t cpu next)) := by
  intro g₁ g₂ h
  right
  simp only [doSwitchToFiber, h.group]
  cases hg : getGroup t.tgid g₂ with
  | none => exact ⟨none, _, by simp, rfl, rfl⟩
  | some tg =>
    dsimp only
    cases getThread t.pid tg with
    | none => exact ⟨none, _, by simp, rfl, rfl⟩
    | some th =>
      dsimp only
      cases getFiber next tg with
      | none => exact ⟨none, _, by simp, rfl, rfl⟩
      | some new =>
        have htg := tgid_tryEnter tg new
        dsimp only
        generalize tryEnter tg new = entered at htg
        obtain ⟨tg', _ | _⟩ := entered
        · exact store_local h hg (tg'.onFiber new.fid Fiber.countFailure) htg _
        · dsimp only
          cases getFiber th.currentFid tg' with
          | none => exact store_local h hg tg' htg _
          | some old => exact store_local h hg _ ((tgid_switchTo tg' t.pid cpu old new).trans htg) _

theorem doFlsAlloc_local : Local t.tgid (fun g => some (doFlsAlloc g t)) := by
  intro g₁ g₂ h
  right
  simp only [doFlsAlloc, h.currentFiber]
  cases hc : currentFiber g₂ t with
  | none => exact ⟨none, _, by simp, rfl, rfl⟩
  | some x =>
    dsimp only
    split
    · exact store_local h (group_of_currentFiber hc) (x.1.onFiber x.2.fid _) rfl _
    · exact ⟨none, _, by simp, rfl, rfl⟩

theorem doFlsFree_local (idx : ℤ) : Local t.tgid (fun g => some (doFlsFree g t idx)) := by
  intro g₁ g₂ h
  right
  simp only [doFlsFree, h.currentFiber]
  cases flsIndex idx with
  | none => exact ⟨none, _, by simp, rfl, rfl⟩
  | some i =>
    cases hc : currentFiber g₂ t with
    | none => exact ⟨none, _, by simp, rfl, rfl⟩
    | some x =>
      dsimp only
      split
      · exact store_local h (group_of_currentFiber hc) (x.1.onFiber x.2.fid _) rfl _
      · exact ⟨none, _, by simp, rfl, rfl⟩

theorem doFlsSetValue_local (idx : ℤ) (value : Word) :
    Local t.tgid (fun g => some (doFlsSetValue g t idx value)) := by
  intro g₁ g₂ h
  right
  simp only [doFlsSetValue, h.currentFiber]
  cases flsIndex idx with
  | none => exact ⟨none, _, by simp, rfl, rfl⟩
  | some i =>
    cases hc : currentFiber g₂ t with
    | none => exact ⟨none, _, by simp, rfl, rfl⟩
    | some x =>
      dsimp only
      split
      · exact store_local h (group_of_currentFiber hc) (x.1.onFiber x.2.fid _) rfl _
      · exact ⟨none, _, by simp, rfl, rfl⟩

/-- What an outcome says besides the registry. -/
def Outcome.reply (o : Outcome) : Cpu × UserMemory × ℕ × ℤ := (o.cpu, o.mem, o.written, o.ret)

/-- A request looks at the group of its caller only, and writes to no other. -/
theorem serve_local (k : Kmalloc) (cpu : Cpu) (mem : UserMemory) (req : Request) :
    Local t.tgid (fun g => (req.serve k g t cpu mem).map fun o => (o.groups, o.reply)) := by
  cases req with
  | unknown => exact .const (cpu, mem, 0, -Errno.EPERM.code)
  | unreadable => exact .const (cpu, mem, 0, -Errno.EINVAL.code)
  | convertThreadToFiber =>
    have h := (doConvertThreadToFiber_local t k cpu).map (fun r => (cpu, mem, 0, r.toLong))
    simp only [Request.serve, Option.map_map]
    exact h
  | createFiber a =>
    have h := (doCreateFiber_local t k cpu a).map (fun r => (cpu, mem, 0, r.toLong))
    simp only [Request.serve, Option.map_map]
    exact h
  | flsGetValue idx value =>
    intro g₁ g₂ h
    have hread : doFlsGetValue g₁ t idx = doFlsGetValue g₂ t idx := by
      simp only [doFlsGetValue, h.currentFiber]
    refine Or.inr ⟨none, _, by simp, rfl, ?_⟩
    simp only [Request.serve, hread]
    rfl
  | switchToFiber fid =>
    exact (doSwitchToFiber_local t cpu fid).map (fun x => (x.1, mem, 0, x.2.toLong))
  | flsAlloc => exact (doFlsAlloc_local t).map (fun r => (cpu, mem, 0, r.toLong))
  | flsFree idx => exact (doFlsFree_local t idx).map (fun r => (cpu, mem, 0, r.toLong))
  | flsSetValue idx value =>
    exact (doFlsSetValue_local t idx value).map (fun r => (cpu, mem, 0, r.toLong))

theorem fibersIoctl_local (k : Kmalloc) (cpu : Cpu) (mem : UserMemory) (cmd : BitVec 32)
    (args : Word) :
    Local t.tgid (fun g => (fibersIoctl k g t cpu mem cmd args).map fun o => (o.groups, o.reply)) := by
  simp only [fibersIoctl_eq]
  exact serve_local t k cpu mem _

end Calls

/-! ## The device and its users -/

/-- The registry, and the registers and the memory of its users. -/
structure DeviceCfg where
  groups : Groups
  cpu : Task → Cpu
  mem : ℤ → UserMemory

/-- What the users of the device do, each a step of its own. -/
inductive DeviceAction
  /-- user code changes the registers of its thread -/
  | user (t : Task) (cpu : Cpu)
  /-- user code changes the memory of its process -/
  | write (t : Task) (mem : UserMemory)
  | ioctl (t : Task) (cmd : BitVec 32) (args : Word)
  | release (t : Task)

/-- Who acts. -/
def DeviceAction.task : DeviceAction → Task
  | .user t _ => t
  | .write t _ => t
  | .ioctl t _ _ => t
  | .release t => t

/-- A call has returned to its caller. -/
def DeviceCfg.after (s : DeviceCfg) (t : Task) (o : Outcome) : DeviceCfg where
  groups := o.groups
  cpu := Function.update s.cpu t (o.cpu.setReturn (.ok o.ret))
  mem := Function.update s.mem t.tgid o.mem

/-- An action with the value that a call returns. Allocations succeed. -/
def DeviceCfg.step (s : DeviceCfg) : DeviceAction → Option (DeviceCfg × Option ℤ)
  | .user t cpu => some ({ s with cpu := Function.update s.cpu t cpu }, none)
  | .write t mem => some ({ s with mem := Function.update s.mem t.tgid mem }, none)
  | .ioctl t cmd args =>
    (fibersIoctl .succeeds s.groups t (s.cpu t) (s.mem t.tgid) cmd args).map fun o =>
      (s.after t o, some o.ret)
  | .release t => some ({ s with groups := fibersRelease s.groups t }, some 0)

/-- No group, as after loading the module. -/
def DeviceCfg.initial (hash : ℤ → Bucket) (cpu : Task → Cpu) (mem : ℤ → UserMemory) : DeviceCfg where
  groups := .init hash
  cpu := cpu
  mem := mem

/-- What a process sees: its group, the hash function, and the registers and memory of its
threads. -/
def DeviceCfg.view (tgid : ℤ) (s : DeviceCfg) :
    Option ThreadGroup × (ℤ → Bucket) × (ℤ → Cpu) × UserMemory :=
  (getGroup tgid s.groups, s.groups.hash, fun pid => s.cpu ⟨tgid, pid⟩, s.mem tgid)

/-- Whether the process acts. -/
def DeviceAction.byProcess (tgid : ℤ) (a : DeviceAction) : Bool := a.task.tgid = tgid

/-- An `ioctl` returns when allocations succeed. -/
theorem ioctl_isSome (groups : Groups) (t : Task) (cpu : Cpu) (mem : UserMemory) (cmd : BitVec 32)
    (args : Word) : (fibersIoctl .succeeds groups t cpu mem cmd args).isSome = true := by
  rw [fibersIoctl_eq]
  cases request mem cmd args with
  | convertThreadToFiber =>
    rw [Request.serve, Option.isSome_map, doConvertThreadToFiber_isSome]
    exact ⟨fun _ => rfl, fun _ => ⟨rfl, rfl⟩⟩
  | createFiber a =>
    rw [Request.serve, Option.isSome_map, doCreateFiber_isSome]
    exact fun _ _ _ _ => rfl
  | _ => rfl

theorem step_isSome (s : DeviceCfg) (a : DeviceAction) : (s.step a).isSome = true := by
  cases a with
  | ioctl t cmd args => rw [DeviceCfg.step, Option.isSome_map, ioctl_isSome]
  | _ => rfl

/-! ## Other processes can be ignored -/

theorem hash_cleanupProcess (groups : Groups) (tgid : ℤ) :
    (cleanupProcess groups tgid).hash = groups.hash := by
  unfold cleanupProcess
  split <;> rfl

theorem view_congr {tgid : ℤ} {s t : DeviceCfg}
    (hg : getGroup tgid s.groups = getGroup tgid t.groups) (hh : s.groups.hash = t.groups.hash)
    (hc : (fun pid => s.cpu ⟨tgid, pid⟩) = fun pid => t.cpu ⟨tgid, pid⟩)
    (hm : s.mem tgid = t.mem tgid) : s.view tgid = t.view tgid := by
  unfold DeviceCfg.view
  rw [hg, hh, hc, hm]

/-- The same outcome, to callers that see the same. -/
theorem view_after {tgid pid : ℤ} {s₁ s₂ : DeviceCfg} {o₁ o₂ : Outcome} {w : Option ThreadGroup}
    (hv : s₁.view tgid = s₂.view tgid) (hw : ∀ tg, w = some tg → tg.tgid = tgid)
    (h₁ : o₁.groups = writeBack s₁.groups tgid w) (h₂ : o₂.groups = writeBack s₂.groups tgid w)
    (hr : o₁.reply = o₂.reply) :
    (s₁.after ⟨tgid, pid⟩ o₁).view tgid = (s₂.after ⟨tgid, pid⟩ o₂).view tgid := by
  obtain ⟨hg, hh, hc, hm⟩ : _ ∧ _ ∧ _ ∧ _ := by simpa [DeviceCfg.view] using hv
  obtain ⟨hcpu, hmem, _, hret⟩ : _ ∧ _ ∧ _ ∧ _ := by simpa [Outcome.reply] using hr
  refine view_congr ?_ ?_ ?_ ?_
  · change getGroup tgid o₁.groups = getGroup tgid o₂.groups
    rw [h₁, h₂, getGroup_writeBack hw, getGroup_writeBack hw, hg]
  · change o₁.groups.hash = o₂.groups.hash
    rw [h₁, h₂, hash_writeBack, hash_writeBack, hh]
  · change (fun q => Function.update s₁.cpu ⟨tgid, pid⟩ _ ⟨tgid, q⟩) =
      fun q => Function.update s₂.cpu ⟨tgid, pid⟩ _ ⟨tgid, q⟩
    rw [update_task_self, update_task_self, hc, hcpu, hret]
  · simp [DeviceCfg.after, hmem]

/-- The groups of the other processes are out of sight, and a process acts on what it sees. -/
theorem separated (tgid : ℤ) :
    Purge.Separated DeviceCfg.step (fun s => s.groups.Unique) (DeviceCfg.view tgid)
      (DeviceAction.byProcess tgid) where
  inv_step := by
    intro s a s' o hu hs
    cases a with
    | user t cpu => cases hs; exact hu
    | write t mem => cases hs; exact hu
    | ioctl t cmd args =>
      obtain ⟨out, ho, he⟩ := Option.map_eq_some_iff.mp hs
      cases he
      obtain ⟨w, _, hw⟩ := (fibersIoctl_local t .succeeds (s.cpu t) (s.mem t.tgid) cmd args).cases
        (congrArg (Option.map fun o => (o.groups, o.reply)) ho)
      have hunique : (writeBack s.groups t.tgid w).Unique := unique_writeBack hu w
      rwa [← hw] at hunique
    | release t => cases hs; exact unique_cleanupProcess hu _
  respects := by
    intro s a s' o hu ha hs
    have hne : a.task.tgid ≠ tgid := by simpa [DeviceAction.byProcess] using ha
    cases a with
    | user t cpu => cases hs; exact view_congr rfl rfl (update_task_of_ne _ _ hne) rfl
    | write t mem => cases hs; exact view_congr rfl rfl rfl (Function.update_of_ne (Ne.symm hne) _ _)
    | ioctl t cmd args =>
      obtain ⟨out, ho, he⟩ := Option.map_eq_some_iff.mp hs
      cases he
      obtain ⟨w, hwt, hw⟩ := (fibersIoctl_local t .succeeds (s.cpu t) (s.mem t.tgid) cmd args).cases
        (congrArg (Option.map fun o => (o.groups, o.reply)) ho)
      have hne : t.tgid ≠ tgid := hne
      refine view_congr ?_ ?_ (update_task_of_ne _ _ hne) (Function.update_of_ne (Ne.symm hne) _ _)
      · change getGroup tgid out.groups = _
        rw [hw, getGroup_writeBack hwt, if_neg (Ne.symm hne)]
      · change out.groups.hash = _
        rw [hw, hash_writeBack]
    | release t =>
      cases hs
      refine view_congr ?_ (hash_cleanupProcess _ _) rfl rfl
      exact (getGroup_cleanupProcess hu _ _).trans (if_neg (Ne.symm hne))
  consistent := by
    intro s s₂ a s' o hu hu₂ hv ha hs
    have htgid : a.task.tgid = tgid := by simpa [DeviceAction.byProcess] using ha
    subst htgid
    have hview := hv
    obtain ⟨hg, hh, hc, hm⟩ : _ ∧ _ ∧ _ ∧ _ := by simpa [DeviceCfg.view] using hv
    cases a with
    | user t cpu =>
      obtain ⟨tgid, pid⟩ := t
      cases hs
      refine ⟨_, rfl, view_congr hg hh ?_ hm⟩
      change (fun q => Function.update s.cpu ⟨tgid, pid⟩ _ ⟨tgid, q⟩) =
        fun q => Function.update s₂.cpu ⟨tgid, pid⟩ _ ⟨tgid, q⟩
      have hc : (fun q => s.cpu ⟨tgid, q⟩) = fun q => s₂.cpu ⟨tgid, q⟩ := hc
      rw [update_task_self, update_task_self, hc]
    | write t mem =>
      cases hs
      exact ⟨_, rfl, view_congr hg hh hc (by simp [DeviceAction.task])⟩
    | ioctl t cmd args =>
      obtain ⟨tgid, pid⟩ := t
      have hcpu : s.cpu ⟨tgid, pid⟩ = s₂.cpu ⟨tgid, pid⟩ := congrFun hc pid
      have hmem : s.mem tgid = s₂.mem tgid := hm
      obtain ⟨o₁, ho₁, he⟩ := Option.map_eq_some_iff.mp hs
      cases he
      have hlocal := fibersIoctl_local ⟨tgid, pid⟩ .succeeds (s.cpu ⟨tgid, pid⟩) (s.mem tgid) cmd
        args s.groups s₂.groups ⟨hg, hh⟩
      rcases hlocal with ⟨hn, _⟩ | ⟨w, x, hw, h₁, h₂⟩
      · simp [ho₁] at hn
      · obtain ⟨o₂, ho₂, he₂⟩ := Option.map_eq_some_iff.mp h₂
        obtain ⟨hg₂, hr₂⟩ := Prod.mk.inj he₂
        simp only [ho₁, Option.map_some, Option.some.injEq, Prod.mk.injEq] at h₁
        obtain ⟨hg₁, hr₁⟩ := h₁
        have hreply : o₁.reply = o₂.reply := hr₁.trans hr₂.symm
        have hret : o₁.ret = o₂.ret := congrArg (fun r => r.2.2.2) hreply
        refine ⟨s₂.after ⟨tgid, pid⟩ o₂, ?_, view_after hview hw hg₁ hg₂ hreply⟩
        simp only [DeviceCfg.step, ← hcpu, ← hmem, ho₂, Option.map_some, hret]
    | release t =>
      cases hs
      refine ⟨_, rfl, view_congr ?_ ?_ hc hm⟩
      · change getGroup t.tgid (cleanupProcess s.groups t.tgid) =
          getGroup t.tgid (cleanupProcess s₂.groups t.tgid)
        rw [getGroup_cleanupProcess hu, getGroup_cleanupProcess hu₂, if_pos rfl, if_pos rfl]
      · exact (hash_cleanupProcess _ _).trans (hh.trans (hash_cleanupProcess _ _).symm)

/-- Whatever the users of the device do, a process gets the same results, and its group is the same
at the end, when all actions of the other processes are deleted. -/
theorem processes_do_not_interfere (hash : ℤ → Bucket) (cpu : Task → Cpu) (mem : ℤ → UserMemory)
    (acts : List DeviceAction) (tgid : ℤ) :
    ∃ s out s' out',
      Purge.exec DeviceCfg.step (.initial hash cpu mem) acts = some (s, out) ∧
      Purge.exec DeviceCfg.step (.initial hash cpu mem) (acts.filter (·.byProcess tgid)) =
        some (s', out') ∧
      out' = out.filter (fun x => x.1.byProcess tgid) ∧
      getGroup tgid s'.groups = getGroup tgid s.groups := by
  obtain ⟨s, out, he⟩ := Purge.exec_isSome step_isSome (.initial hash cpu mem) acts
  have hu : (DeviceCfg.initial hash cpu mem).groups.Unique := HashTable.unique_init hash
  obtain ⟨s', hpurged, hv⟩ := (separated tgid).purge hu hu rfl he
  exact ⟨s, out, s', _, he, hpurged, rfl, (congrArg Prod.fst hv).symm⟩

end Fibers
