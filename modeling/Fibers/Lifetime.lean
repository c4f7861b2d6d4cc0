import Fibers.Isolation
import Fibers.Lib.Descriptions
import Fibers.Lib.Run

/-!
# The lifetime of a group

A group should live as long as its process: while the process holds a description of the
device, and until all its descriptions are released. The module cleans up at every release,
and it cleans up after the process that dropped the last reference, which need not be the
process that the description was opened for.

## Main results

- `released_once` — `fibers_release` runs once for a description
- `group_lifetime` — when groups live as long as their processes
- `inherited_description_outlives_parent` — a fork after which they do not
-/

namespace Fibers

/-! ## The system -/

/-- The device with its users, and the descriptions of the device that they hold. -/
structure KernelCfg where
  dev : DeviceCfg
  files : Files ℤ

/-- A call of a thread, each a step of its own. A fork tells the number of the child, and an `ioctl`
which allocations succeed. -/
inductive KernelAction
  /-- user code changes the registers of its thread -/
  | user (t : Task) (cpu : Cpu)
  /-- user code changes the memory of its process -/
  | write (t : Task) (mem : UserMemory)
  | openDevice (t : Task)
  | dup (t : Task) (d : ℕ)
  | fork (t : Task) (child : ℤ)
  | ioctl (t : Task) (k : Kmalloc) (d : ℕ) (cmd : BitVec 32) (args : Word)
  | close (t : Task) (d : ℕ)

namespace KernelCfg

def step (s : KernelCfg) : KernelAction → Option KernelCfg
  | .user t cpu => some { s with dev.cpu := Function.update s.dev.cpu t cpu }
  | .write t mem => some { s with dev.mem := Function.update s.dev.mem t.tgid mem }
  | .openDevice t => (s.files.openNew t.tgid).map fun files => { s with files }
  | .dup t d => (s.files.dup t.tgid d).map fun files => { s with files }
  | .fork t child =>
    (s.files.fork t.tgid child).map fun files =>
      { dev.groups := s.dev.groups
        dev.cpu := Function.update s.dev.cpu ⟨child, child⟩ ((s.dev.cpu t).setReturn (.ok 0))
        dev.mem := Function.update s.dev.mem child (s.dev.mem t.tgid)
        files }
  | .ioctl t k d cmd args =>
    if s.files.Holds t.tgid d then
      (fibersIoctl k s.dev.groups t (s.dev.cpu t) (s.dev.mem t.tgid) cmd args).map fun o =>
        { s with dev := s.dev.after t o }
    else none
  | .close t d =>
    (s.files.close t.tgid d).map fun files =>
      -- the last reference: `fibers_release`, with the process that closes as `current`
      if s.files.lastRef t.tgid d then
        { dev := { s.dev with groups := fibersRelease s.dev.groups t }, files }
      else { s with files }

/-- No group and no descriptor, as after loading the module. -/
def initial (hash : ℤ → Bucket) (cpu : Task → Cpu) (mem : ℤ → UserMemory) (procs : List ℤ) :
    KernelCfg where
  dev := .initial hash cpu mem
  files := .init procs

/-- The registry holds a group for the process. -/
def HasGroup (s : KernelCfg) (tgid : ℤ) : Prop := (getGroup tgid s.dev.groups).isSome = true

instance (s : KernelCfg) : DecidablePred s.HasGroup :=
  fun tgid => inferInstanceAs (Decidable ((getGroup tgid s.dev.groups).isSome = true))

end KernelCfg

abbrev KernelEntry := Entry KernelCfg KernelAction

/-- The steps of the system. -/
def KernelStep (s : KernelCfg) (a : KernelAction) (s' : KernelCfg) : Prop := s.step a = some s'

/-! ## What is claimed of it -/

/-- The process has opened or inherited the description. -/
def EverHeld (h : List KernelEntry) (tgid : ℤ) (d : ℕ) : Prop :=
  ∃ e ∈ h, e.post.files.Holds tgid d

/-- The group of a process that holds a description is not destroyed. -/
def KeepsGroups (e : KernelEntry) : Prop :=
  ∀ tgid, e.pre.HasGroup tgid → (∃ d, e.post.files.Holds tgid d) → e.post.HasGroup tgid

/-- There is no group of a process all of whose descriptions have been released. -/
def NoGroupsLeft (h : List KernelEntry) (s : KernelCfg) : Prop :=
  ∀ tgid, (∀ d, EverHeld h tgid d → ¬ s.files.IsOpen d) → ¬ s.HasGroup tgid

/-- After a step the groups are those of living processes. -/
def FollowsProcesses (past : List KernelEntry) (e : KernelEntry) : Prop :=
  KeepsGroups e ∧ NoGroupsLeft (e :: past) e.post

/-- A description is released by a process that has no group or holds no other description, and
every other process that has a group and ever held it has also held one that is still open. -/
def TidyRelease (past : List KernelEntry) (e : KernelEntry) : Prop :=
  ∀ t d, e.act = .close t d → e.pre.files.lastRef t.tgid d = true →
    (e.pre.HasGroup t.tgid → ∀ d', e.pre.files.Holds t.tgid d' → d' = d) ∧
    ∀ tgid, tgid ≠ t.tgid → EverHeld past tgid d → e.pre.HasGroup tgid →
      ∃ d', d' ≠ d ∧ EverHeld past tgid d' ∧ e.pre.files.IsOpen d'

/-! ## The steps -/

/-- A step that drops no reference. -/
structure Grows (s s' : KernelCfg) : Prop where
  refs : s.files.refs ⊆ s'.files.refs
  groups : ∀ tgid, s.HasGroup tgid → s'.HasGroup tgid
  /-- only a process with a description gets a group -/
  users : ∀ tgid, s'.HasGroup tgid → s.HasGroup tgid ∨ ∃ d, s'.files.Holds tgid d

theorem Grows.of_groups {s s' : KernelCfg} (hr : s.files.refs ⊆ s'.files.refs)
    (hg : s'.dev.groups = s.dev.groups) : Grows s s' := by
  have h : ∀ tgid, s'.HasGroup tgid ↔ s.HasGroup tgid := by
    intro tgid
    unfold KernelCfg.HasGroup
    rw [hg]
  exact ⟨hr, fun tgid => (h tgid).mpr, fun tgid ht => Or.inl ((h tgid).mp ht)⟩

section Steps

variable {s s' : KernelCfg} {a : KernelAction}

/-- Every step but a close. -/
theorem grows_of_step (hs : s.step a = some s') (ha : ∀ t d, a ≠ .close t d) : Grows s s' := by
  cases a with
  | user t cpu =>
    cases hs
    exact .of_groups (List.Subset.refl _) rfl
  | write t mem =>
    cases hs
    exact .of_groups (List.Subset.refl _) rfl
  | openDevice t =>
    obtain ⟨files, hf, rfl⟩ := Option.map_eq_some_iff.mp hs
    exact .of_groups (Files.refs_openNew hf) rfl
  | dup t d =>
    obtain ⟨files, hf, rfl⟩ := Option.map_eq_some_iff.mp hs
    exact .of_groups (Files.refs_dup hf) rfl
  | fork t child =>
    obtain ⟨files, hf, rfl⟩ := Option.map_eq_some_iff.mp hs
    exact .of_groups (Files.refs_fork hf) rfl
  | ioctl t k d cmd args =>
    simp only [KernelCfg.step] at hs
    split at hs
    · next hd =>
      obtain ⟨o, ho, rfl⟩ := Option.map_eq_some_iff.mp hs
      obtain ⟨w, hwt, hw⟩ := (fibersIoctl_local t k _ _ cmd args).cases
        (congrArg (Option.map fun o => (o.groups, o.reply)) ho)
      have hget : ∀ tgid, getGroup tgid o.groups =
          if tgid = t.tgid then w.or (getGroup tgid s.dev.groups)
          else getGroup tgid s.dev.groups := by
        intro tgid
        rw [hw]
        exact getGroup_writeBack hwt tgid
      refine ⟨List.Subset.refl _, fun tgid hg => ?_, fun tgid hg => ?_⟩
      · change (getGroup tgid o.groups).isSome = true
        unfold KernelCfg.HasGroup at hg
        rw [hget]
        split
        · simp [hg]
        · exact hg
      · by_cases hne : tgid = t.tgid
        · subst hne
          exact Or.inr ⟨d, hd⟩
        · left
          change (getGroup tgid o.groups).isSome = true at hg
          rwa [hget, if_neg hne] at hg
    · cases hs
  | close t d => exact absurd rfl (ha t d)

/-- A close runs `fibers_release` when it drops the last reference. -/
theorem close_step {t : Task} {d : ℕ} (hs : s.step (.close t d) = some s') :
    s.files.close t.tgid d = some s'.files ∧
      s'.dev.groups =
        if s.files.lastRef t.tgid d then fibersRelease s.dev.groups t else s.dev.groups := by
  obtain ⟨files, hf, rfl⟩ := Option.map_eq_some_iff.mp hs
  by_cases hlast : s.files.lastRef t.tgid d = true <;> simp [hlast, hf]

theorem unique_step (hu : s.dev.groups.Unique) (hs : s.step a = some s') :
    s'.dev.groups.Unique := by
  cases a with
  | user t cpu => cases hs; exact hu
  | write t mem => cases hs; exact hu
  | openDevice t => obtain ⟨files, _, rfl⟩ := Option.map_eq_some_iff.mp hs; exact hu
  | dup t d => obtain ⟨files, _, rfl⟩ := Option.map_eq_some_iff.mp hs; exact hu
  | fork t child => obtain ⟨files, _, rfl⟩ := Option.map_eq_some_iff.mp hs; exact hu
  | ioctl t k d cmd args =>
    simp only [KernelCfg.step] at hs
    split at hs
    · obtain ⟨o, ho, rfl⟩ := Option.map_eq_some_iff.mp hs
      obtain ⟨w, _, hw⟩ := (fibersIoctl_local t k _ _ cmd args).cases
        (congrArg (Option.map fun o => (o.groups, o.reply)) ho)
      change o.groups.Unique
      rw [hw]
      exact unique_writeBack hu w
    · cases hs
  | close t d =>
    rw [(close_step hs).2]
    split
    · exact unique_cleanupProcess hu _
    · exact hu

end Steps

/-! ## Releases -/

section Releases

variable {h : List KernelEntry} {e : KernelEntry} {s s' : KernelCfg} {a : KernelAction}

theorem everHeld_cons {tgid : ℤ} {d : ℕ} :
    EverHeld (e :: h) tgid d ↔ e.post.files.Holds tgid d ∨ EverHeld h tgid d := by
  simp [EverHeld]

theorem everHeld_of_holds {hash : ℤ → Bucket} {cpu : Task → Cpu} {mem : ℤ → UserMemory}
    {procs : List ℤ} (hr : Run KernelStep (.initial hash cpu mem procs) h s) {tgid : ℤ} {d : ℕ}
    (hd : s.files.Holds tgid d) : EverHeld h tgid d := by
  cases hr with
  | start => cases hd
  | next _ _ => exact everHeld_cons.mpr (Or.inl hd)

theorem noGroupsLeft_iff : NoGroupsLeft h s ↔
    ∀ tgid, s.HasGroup tgid → ∃ d, EverHeld h tgid d ∧ s.files.IsOpen d := by
  refine forall_congr' fun tgid => ⟨fun hn hg => ?_, fun hn hall hg => ?_⟩
  · by_contra hall
    exact hn (fun d hd ho => hall ⟨d, hd, ho⟩) hg
  · obtain ⟨d, hd, ho⟩ := hn hg
    exact hall d hd ho

/-- A step that ends no description. -/
theorem NoGroupsLeft.keep (hn : NoGroupsLeft h s)
    (hopen : ∀ d, s.files.IsOpen d → s'.files.IsOpen d)
    (hg : ∀ tgid, s'.HasGroup tgid → s.HasGroup tgid ∨ ∃ d, s'.files.Holds tgid d) :
    NoGroupsLeft (⟨s, a, s'⟩ :: h) s' := by
  rw [noGroupsLeft_iff] at hn ⊢
  intro tgid ht
  rcases hg tgid ht with ht | ⟨d, hd⟩
  · obtain ⟨d, hd, ho⟩ := hn tgid ht
    exact ⟨d, everHeld_cons.mpr (Or.inr hd), hopen d ho⟩
  · exact ⟨d, everHeld_cons.mpr (Or.inl hd), .of_holds hd⟩

/-- The release of a description follows the processes when it is tidy. -/
theorem follows_release_iff {t : Task} {d : ℕ} (hu : s.dev.groups.Unique)
    (hever : ∀ tgid d, s.files.Holds tgid d → EverHeld h tgid d) (hn : NoGroupsLeft h s)
    (hf : s.files.close t.tgid d = some s'.files)
    (hg : s'.dev.groups = fibersRelease s.dev.groups t) (hlast : s.files.lastRef t.tgid d = true) :
    FollowsProcesses h ⟨s, .close t d, s'⟩ ↔ TidyRelease h ⟨s, .close t d, s'⟩ := by
  have hgroup : ∀ tgid, s'.HasGroup tgid ↔ tgid ≠ t.tgid ∧ s.HasGroup tgid := by
    intro tgid
    unfold KernelCfg.HasGroup
    rw [hg, fibersRelease, getGroup_cleanupProcess hu]
    by_cases hne : tgid = t.tgid <;> simp [hne]
  have hopen : ∀ d', s'.files.IsOpen d' ↔ s.files.IsOpen d' ∧ d' ≠ d := by
    intro d'
    simp [Files.isOpen_close hf, hlast]
  have hholds : ∀ tgid d', s'.files.Holds tgid d' ↔ s.files.Holds tgid d' ∧ d' ≠ d :=
    fun _ _ => Files.holds_close_of_lastRef hf hlast
  have hcons : ∀ tgid d', EverHeld (⟨s, .close t d, s'⟩ :: h) tgid d' ↔ EverHeld h tgid d' := by
    intro tgid d'
    rw [everHeld_cons]
    refine ⟨?_, Or.inr⟩
    rintro (hd | hd)
    · exact hever tgid d' ((hholds tgid d').mp hd).1
    · exact hd
  -- the group of the process that closes
  have hkeeps : KeepsGroups ⟨s, .close t d, s'⟩ ↔
      (s.HasGroup t.tgid → ∀ d', s.files.Holds t.tgid d' → d' = d) := by
    constructor
    · intro hk ht d' hd'
      by_contra hne
      have := hk t.tgid ht ⟨d', (hholds _ _).mpr ⟨hd', hne⟩⟩
      exact ((hgroup _).mp this).1 rfl
    · rintro honly tgid ht ⟨d', hd'⟩
      refine (hgroup _).mpr ⟨?_, ht⟩
      rintro rfl
      obtain ⟨hd', hne⟩ := (hholds _ _).mp hd'
      exact hne (honly ht d' hd')
  -- the groups of the others
  have hleft : NoGroupsLeft (⟨s, .close t d, s'⟩ :: h) s' ↔
      ∀ tgid, tgid ≠ t.tgid → EverHeld h tgid d → s.HasGroup tgid →
        ∃ d', d' ≠ d ∧ EverHeld h tgid d' ∧ s.files.IsOpen d' := by
    rw [noGroupsLeft_iff]
    constructor
    · intro hl tgid hne _ ht
      obtain ⟨d', hd', ho⟩ := hl tgid ((hgroup _).mpr ⟨hne, ht⟩)
      obtain ⟨ho, hdd⟩ := (hopen _).mp ho
      exact ⟨d', hdd, (hcons _ _).mp hd', ho⟩
    · intro hl tgid ht
      obtain ⟨hne, ht⟩ := (hgroup _).mp ht
      by_cases hd : EverHeld h tgid d
      · obtain ⟨d', hdd, hd', ho⟩ := hl tgid hne hd ht
        exact ⟨d', (hcons _ _).mpr hd', (hopen _).mpr ⟨ho, hdd⟩⟩
      · obtain ⟨d', hd', ho⟩ := noGroupsLeft_iff.mp hn tgid ht
        refine ⟨d', (hcons _ _).mpr hd', (hopen _).mpr ⟨ho, ?_⟩⟩
        rintro rfl
        exact hd hd'
  unfold FollowsProcesses
  rw [hkeeps, hleft]
  constructor
  · rintro ⟨hown, hothers⟩ _ _ ⟨⟩ _
    exact ⟨hown, hothers⟩
  · intro ht
    exact ht t d rfl hlast

/-- A step follows the processes when its release, if it has one, is tidy. -/
theorem follows_iff_tidy (hu : s.dev.groups.Unique)
    (hever : ∀ tgid d, s.files.Holds tgid d → EverHeld h tgid d) (hn : NoGroupsLeft h s)
    (hs : KernelStep s a s') : FollowsProcesses h ⟨s, a, s'⟩ ↔ TidyRelease h ⟨s, a, s'⟩ := by
  by_cases ha : ∀ t d, a ≠ .close t d
  · have hgrows := grows_of_step hs ha
    refine iff_of_true ⟨fun tgid ht _ => hgrows.groups tgid ht, ?_⟩ ?_
    · exact hn.keep (fun _ => Files.IsOpen.mono hgrows.refs) hgrows.users
    · intro t d hact
      exact absurd hact (ha t d)
  · simp only [not_forall, not_not] at ha
    obtain ⟨t, d, rfl⟩ := ha
    obtain ⟨hf, hg⟩ := close_step hs
    by_cases hlast : s.files.lastRef t.tgid d = true
    · rw [if_pos hlast] at hg
      exact follows_release_iff hu hever hn hf hg hlast
    · rw [if_neg hlast] at hg
      have hgrows : ∀ tgid, s'.HasGroup tgid ↔ s.HasGroup tgid := by
        intro tgid
        unfold KernelCfg.HasGroup
        rw [hg]
      refine iff_of_true ⟨fun tgid ht _ => (hgrows tgid).mpr ht, ?_⟩ ?_
      · refine hn.keep (fun d' ho => (Files.isOpen_close hf).mpr ⟨ho, ?_⟩)
          (fun tgid ht => Or.inl ((hgrows tgid).mp ht))
        exact fun h => hlast h.1
      · rintro _ _ ⟨⟩ hl
        exact absurd hl hlast

end Releases

/-! ## The whole run -/

section Runs

variable {hash : ℤ → Bucket} {cpu : Task → Cpu} {mem : ℤ → UserMemory} {procs : List ℤ}
  {h : List KernelEntry} {s : KernelCfg}

theorem unique_of_kernelRun (hr : Run KernelStep (.initial hash cpu mem procs) h s) :
    s.dev.groups.Unique :=
  hr.invariant (I := fun s => s.dev.groups.Unique) (HashTable.unique_init hash)
    (fun _ _ _ hu hs => unique_step hu hs)

theorem noGroupsLeft_initial : NoGroupsLeft [] (.initial hash cpu mem procs) := by
  intro tgid _ hg
  cases hg

/-- In a run the groups are always those of living processes if and only if every release in it is
tidy. -/
theorem group_lifetime (hr : Run KernelStep (.initial hash cpu mem procs) h s) :
    EveryEntry FollowsProcesses h ↔ EveryEntry TidyRelease h := by
  refine hr.everyEntry_iff noGroupsLeft_initial ?_ (fun _ _ _ _ _ _ hf => hf.2)
  intro h s a s' hr hn hs
  exact follows_iff_tidy (unique_of_kernelRun hr) (fun _ _ => everHeld_of_holds hr) hn hs

theorem released_step {s' : KernelCfg} {a : KernelAction} {d : ℕ} (hd : s.files.Released d)
    (hs : KernelStep s a s') : s'.files.Released d := by
  cases a with
  | user t cpu => cases hs; exact hd
  | write t mem => cases hs; exact hd
  | openDevice t =>
    obtain ⟨files, hf, rfl⟩ := Option.map_eq_some_iff.mp hs
    exact Files.released_openNew hf hd
  | dup t e =>
    obtain ⟨files, hf, rfl⟩ := Option.map_eq_some_iff.mp hs
    exact Files.released_dup hf hd
  | fork t child =>
    obtain ⟨files, hf, rfl⟩ := Option.map_eq_some_iff.mp hs
    exact Files.released_fork hf hd
  | ioctl t k e cmd args =>
    simp only [KernelStep, KernelCfg.step] at hs
    split at hs
    · obtain ⟨o, _, rfl⟩ := Option.map_eq_some_iff.mp hs
      exact hd
    · cases hs
  | close t e => exact Files.released_close (close_step hs).1 hd

/-- After the release of a description no step refers to it. -/
theorem released_once {s₀ : KernelCfg} {later past : List KernelEntry} {e : KernelEntry} {t : Task}
    {d : ℕ} (hr : Run KernelStep s₀ (later ++ e :: past) s) (hact : e.act = .close t d)
    (hlast : e.pre.files.lastRef t.tgid d = true) :
    ∀ x ∈ later, ∀ tgid, ¬ x.pre.files.Holds tgid d := by
  suffices h : s.files.Released d ∧ ∀ x ∈ later, x.pre.files.Released d by
    intro x hx tgid hd
    exact (h.2 x hx).2 (.of_holds hd)
  induction later generalizing s with
  | nil =>
    obtain ⟨s₁, a, s₂⟩ := e
    cases hact
    cases hr with
    | next _ hs => exact ⟨Files.released_of_lastRef (close_step hs).1 hlast, by simp⟩
  | cons x later ih =>
    cases hr with
    | next hr hs =>
      obtain ⟨hd, hall⟩ := ih hr
      refine ⟨released_step hd hs, ?_⟩
      intro y hy
      rcases List.mem_cons.mp hy with rfl | hy
      · exact hd
      · exact hall y hy

end Runs

/-! ## A parent and its child -/

/-- A process that converts its thread, forks, and the child converts its own. -/
def convertedTwice : List KernelAction :=
  [.openDevice ⟨1, 1⟩, .ioctl ⟨1, 1⟩ .succeeds 0 ioctlConvertThreadToFiber 0, .fork ⟨1, 1⟩ 2,
    .openDevice ⟨2, 2⟩, .ioctl ⟨2, 2⟩ .succeeds 1 ioctlConvertThreadToFiber 0]

/-- A release by the only process with a group that ever held the description. -/
def ReleasedAlone (past : List KernelEntry) (e : KernelEntry) : Prop :=
  match e.act with
  | .close t d => e.pre.files.lastRef t.tgid d = true →
      (∀ r ∈ e.pre.files.refs, r.1 = t.tgid → e.pre.HasGroup t.tgid → r.2 = d) ∧
      ∀ x ∈ past, ∀ r ∈ x.post.files.refs, r.2 = d → r.1 = t.tgid ∨ ¬ e.pre.HasGroup r.1
  | _ => True

instance (past : List KernelEntry) : DecidablePred (ReleasedAlone past)
  | ⟨s, .close t d, _⟩ => inferInstanceAs (Decidable (s.files.lastRef t.tgid d = true →
      (∀ r ∈ s.files.refs, r.1 = t.tgid → s.HasGroup t.tgid → r.2 = d) ∧
      ∀ x ∈ past, ∀ r ∈ x.post.files.refs, r.2 = d → r.1 = t.tgid ∨ ¬ s.HasGroup r.1))
  | ⟨_, .user _ _, _⟩ | ⟨_, .write _ _, _⟩ | ⟨_, .openDevice _, _⟩ | ⟨_, .dup _ _, _⟩
  | ⟨_, .fork _ _, _⟩ | ⟨_, .ioctl _ _ _ _ _, _⟩ => isTrue trivial

theorem tidy_of_alone (past : List KernelEntry) (e : KernelEntry) (ha : ReleasedAlone past e) :
    TidyRelease past e := by
  intro t d hact hlast
  unfold ReleasedAlone at ha
  rw [hact] at ha
  obtain ⟨hown, hothers⟩ := ha hlast
  refine ⟨fun hg d' hd' => hown _ hd' rfl hg, ?_⟩
  rintro tgid hne ⟨x, hx, hd⟩ hg
  rcases hothers x hx _ hd rfl with heq | hn
  · exact absurd heq hne
  · exact absurd hg hn

/-- The child goes first. -/
theorem group_lifetime_childFirst :
    ∃ h s, Run.execute KernelCfg.step [] (.initial (fun _ => 0) default (fun _ => flatMemory) [1])
        (convertedTwice ++ [.close ⟨2, 2⟩ 0, .close ⟨2, 2⟩ 1, .close ⟨1, 1⟩ 0]) = some (h, s) ∧
      EveryEntry FollowsProcesses h ∧ ¬ s.HasGroup 1 ∧ ¬ s.HasGroup 2 := by
  obtain ⟨h, s, he, hc⟩ := Run.exists_execute KernelCfg.step
    (.initial (fun _ => 0) default (fun _ => flatMemory) [1])
    (convertedTwice ++ [.close ⟨2, 2⟩ 0, .close ⟨2, 2⟩ 1, .close ⟨1, 1⟩ 0])
    (fun h s => EveryEntry ReleasedAlone h ∧ ¬ s.HasGroup 1 ∧ ¬ s.HasGroup 2) (by decide +kernel)
  obtain ⟨halone, hgone⟩ := of_decide_eq_true hc
  exact ⟨h, s, he, (group_lifetime (Run.of_execute _ .start he)).mpr (halone.mono tidy_of_alone),
    hgone⟩

/-- The parent goes first, and the child closes what it inherited: this destroys the group of the
child, which holds another description, and leaves the group of the parent, which holds none. -/
theorem inherited_description_outlives_parent :
    ∃ e past s, Run.execute KernelCfg.step []
        (.initial (fun _ => 0) default (fun _ => flatMemory) [1])
        (convertedTwice ++ [.close ⟨1, 1⟩ 0, .close ⟨2, 2⟩ 0]) = some (e :: past, s) ∧
      Run KernelStep (.initial (fun _ => 0) default (fun _ => flatMemory) [1]) (e :: past) s ∧
      ¬ KeepsGroups e ∧ ¬ NoGroupsLeft (e :: past) e.post := by
  obtain ⟨e, past, s, he, hc⟩ := Run.exists_execute_cons KernelCfg.step
    (.initial (fun _ => 0) default (fun _ => flatMemory) [1])
    (convertedTwice ++ [.close ⟨1, 1⟩ 0, .close ⟨2, 2⟩ 0])
    (fun e past _ => (e.pre.HasGroup 2 ∧ e.post.files.Holds 2 1 ∧ ¬ e.post.HasGroup 2) ∧
      e.post.HasGroup 1 ∧
      ∀ x ∈ e :: past, ∀ r ∈ x.post.files.refs, r.1 = 1 → ¬ e.post.files.IsOpen r.2)
    (by decide +kernel)
  obtain ⟨⟨hhad, hholds, hgone⟩, hleft, hreleased⟩ := of_decide_eq_true hc
  refine ⟨e, past, s, he, Run.of_execute _ .start he, ?_, ?_⟩
  · intro hk
    exact hgone (hk 2 hhad ⟨1, hholds⟩)
  · intro hn
    refine hn 1 ?_ hleft
    rintro d ⟨x, hx, hd⟩
    exact hreleased x hx _ hd rfl

end Fibers
