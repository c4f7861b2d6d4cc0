import Fibers.CleanupHeap

/-!
# Cleanup in the heap

Both cleanups free the record under the cursor of a traversal that reads its `next` afterwards, so
they follow a freed record for every thread and every fiber, and `cleanup_all` also for every
group. What such a read yields is open; if it is still the old `next`, the cleanup is complete.

## Main results

- `Slab.cleanup_complete` — the cleanup is complete if freed memory keeps its contents
- `cleanup_reads_nothing_freed` — exactly when the cleanup is complete and reads nothing freed
-/

namespace Fibers

open Chains

namespace Slab

variable {s : Slab} {H H' : Heap ChainId} {lists : ChainId → List ℕ} {groups : Groups}
variable {tgid : ℤ} {tg fuel : ℕ}

/-! ## What cleaning up keeps -/

section Keeps

variable {Q : Heap ChainId → Prop}

theorem getGroup_keeps (hread : ∀ H a, Q H → Q (H.readNext s.junk a).2) {p r : Option ℕ}
    (hq : Q H) (hrun : s.getGroup tgid fuel H p = some (r, H')) : Q H' := by
  induction fuel generalizing H p with
  | zero => cases hrun
  | succ fuel ih =>
    cases p with
    | none =>
      cases hrun
      exact hq
    | some a =>
      simp only [getGroup] at hrun
      split at hrun
      · cases hrun
      · split at hrun
        · cases hrun
          exact hq
        · exact ih (hread H a hq) hrun

/-- What deleting a record and reading a `next` keep, `cleanup_process` keeps. -/
theorem cleanupProcess_keeps (hdelete : ∀ H a H', Q H → H.delete a = some H' → Q H')
    (hread : ∀ H a, Q H → Q (H.readNext s.junk a).2) (hq : Q H)
    (hrun : s.cleanupProcess fuel tgid H = some H') : Q H' := by
  simp only [cleanupProcess] at hrun
  split at hrun
  · cases hrun
  · next H₁ hget =>
    cases hrun
    exact getGroup_keeps hread hq hget
  · next tg H₁ hget =>
    have hq₁ : Q H₁ := getGroup_keeps hread hq hget
    obtain ⟨H₃, hloops, hlast⟩ := Option.bind_eq_some_iff.mp hrun
    obtain ⟨H₂, hthreads, hfibers⟩ := Option.bind_eq_some_iff.mp hloops
    have hq₂ : Q H₂ := forEachIn_keeps hdelete hread hq₁ hthreads
    have hq₃ : Q H₃ := forEachIn_keeps hdelete hread hq₂ hfibers
    exact hdelete H₃ tg H' hq₃ hlast

theorem cleanupAll_keeps (hdelete : ∀ H a H', Q H → H.delete a = some H' → Q H')
    (hread : ∀ H a, Q H → Q (H.readNext s.junk a).2) (hq : Q H)
    (hrun : s.cleanupAll fuel H = some H') : Q H' := by
  refine forEachIn_keeps (fun H₁ a H₂ hq₁ hbody => ?_) hread hq hrun
  obtain ⟨k, -, hclean⟩ := Option.bind_eq_some_iff.mp hbody
  exact cleanupProcess_keeps hdelete hread hq₁ hclean

end Keeps

theorem nodup_delete {a : ℕ} (h : H.freed.Nodup) (hrun : H.delete a = some H') :
    H'.freed.Nodup := by
  obtain ⟨ha, hfreed, -⟩ := delete_cases hrun
  rw [hfreed]
  exact List.nodup_cons.mpr ⟨ha, h⟩

theorem nodup_readNext (H : Heap ChainId) (a : ℕ) (h : H.freed.Nodup) :
    (H.readNext s.junk a).2.freed.Nodup := by
  rwa [freed_readNext]

theorem logs_cleanup : Logs fun (H : Heap ChainId) tg =>
    (s.tgidAt H tg).bind fun tgid => s.cleanupProcess fuel tgid H := by
  intro H a H' hrun
  obtain ⟨k, -, hclean⟩ := Option.bind_eq_some_iff.mp hrun
  exact cleanupProcess_keeps (Q := fun H₁ => H.stale <:+ H₁.stale)
    (fun _ _ _ hq hstep => hq.trans (logs_delete _ _ _ hstep))
    (fun _ _ hq => hq.trans (stale_readNext _ _)) List.suffix_rfl hclean

/-! ## Cleaning up completely -/

theorem Represents.readNext (h : s.Represents H lists groups) (a : ℕ) :
    s.Represents (H.readNext s.junk a).2 lists groups :=
  ⟨h.holds.readNext, h.hash, h.groups, h.tables⟩

/-- The run of `cleanup_process` and the records it follows, if it frees nothing under a cursor or
freed memory keeps its contents. -/
theorem Represents.cleansProcess (h : s.Represents H lists groups) (tgid : ℤ)
    (hfreed : H.freed = [])
    (hk : ∀ tg, s.groupAddr lists tgid = some tg → tableRecords lists tg ≠ [] → Kept s.junk) :
    ∃ H', s.CleansProcess H lists groups tgid H' ∧
      H'.stale =
        ((s.groupAddr lists tgid).toList.flatMap (tableRecords lists)).reverse ++ H.stale := by
  obtain ⟨fuel, hfuel⟩ := h.exists_fuel
  cases haddr : s.groupAddr lists tgid with
  | none =>
    have hgroup : Fibers.cleanupProcess groups tgid = groups := by
      rcases h.groupAddr_cases tgid with ⟨-, hnone⟩ | ⟨a, -, -, -, -, -, -, -, hsome, -⟩
      · rw [Fibers.cleanupProcess, hnone]
      · rw [haddr] at hsome
        cases hsome
    have hrun : s.cleanupProcess fuel tgid H = some H := by
      simp only [Slab.cleanupProcess, h.getGroup_eq (hfuel _), haddr]
    refine ⟨H, ⟨⟨fuel, hrun⟩, ?_⟩, rfl⟩
    rw [haddr, hgroup]
    refine ⟨fun a => by simp [hfreed], by simp [hfreed], ?_⟩
    rw [Option.toList_none, without_nil]
    exact h
  | some tg =>
    obtain ⟨H', hrun, hleft, hfreed', hstale, -⟩ := h.cleanupProcess_eq haddr (hk tg haddr) hfuel
    refine ⟨H', ⟨⟨fuel, hrun⟩, ?_⟩, by simpa using hstale⟩
    rw [haddr]
    refine ⟨fun a => ?_, ?_, hleft⟩
    · simp [hfreed', hfreed]
    · refine cleanupProcess_keeps (fun _ _ _ => nodup_delete) nodup_readNext ?_ hrun
      simp [hfreed]

/-- Some groups have been cleaned up, and the others are where they were. -/
structure Clearing (s : Slab) (lists : ChainId → List ℕ) (done : List ℕ) (H : Heap ChainId) :
    Prop where
  left : ∃ groups, s.Represents H (without lists done) groups
  freed : ∀ a, a ∈ H.freed ↔ ∃ tg ∈ done, a = tg ∨ a ∈ tableRecords lists tg
  groups : ∀ tg ∈ done, ∃ b, tg ∈ lists (.groups b)

namespace Clearing

variable {done : List ℕ} {b : Bucket} {a : ℕ} {l : List ℕ}

/-- One iteration of `cleanup_all`, at the first group of a bucket. -/
theorem step (hc : s.Clearing lists done H) (hl : without lists done (.groups b) = a :: l)
    (hk : Kept s.junk) (hfuel : ∀ i, (lists i).length < fuel) :
    ∃ H', ((s.tgidAt H a).bind fun tgid => s.cleanupProcess fuel tgid H) = some H' ∧
      (H'.readNext s.junk a).1 = l.head? ∧
      s.Clearing lists (done ++ [a]) (H'.readNext s.junk a).2 ∧
      without lists (done ++ [a]) (.groups b) = l := by
  obtain ⟨groups, hrep⟩ := hc.left
  -- the cursor is the first group of its bucket, so the lookup of its `tgid` finds it again
  obtain ⟨tgid, htgid, rfl, haddr⟩ := hrep.groupAddr_head hl
  obtain ⟨H', hrun, hleft, hfreed, -, hcursor⟩ := hrep.cleanupProcess_eq haddr (fun _ => hk)
    fun i => (without_sublist lists done i).length_le.trans_lt (hfuel i)
  have ha : a ∈ lists (.groups (s.hash tgid)) := by
    have hm : a ∈ without lists done (.groups (s.hash tgid)) := by simp [hl]
    exact (without_sublist lists done _).subset hm
  have hnew : a ∉ done := by
    have hm : a ∈ (lists (.groups (s.hash tgid))).filter (· ∉ done) := by
      show a ∈ without lists done (.groups (s.hash tgid))
      simp [hl]
    simpa using (List.mem_filter.mp hm).2
  rw [without_append] at hleft
  refine ⟨H', ?_, hcursor hk [] l hl, ⟨⟨_, hleft.readNext a⟩, fun c => ?_, ?_⟩, ?_⟩
  · rw [htgid]
    exact hrun
  · rw [freed_readNext, hfreed, tableRecords_without hnew]
    simp only [List.mem_cons, List.mem_append, List.mem_reverse, hc.freed c, List.not_mem_nil,
      or_false, or_and_right, exists_or, exists_eq_left]
    exact or_assoc.symm.trans or_comm
  · intro tg htg
    rcases List.mem_append.mp htg with htg | htg
    · exact hc.groups tg htg
    · obtain rfl := List.mem_singleton.mp htg
      exact ⟨_, ha⟩
  · rw [← without_append]
    exact (hrep.filter_eq (show _ = [] ++ a :: l from hl)).1

/-- The loop over one bucket. -/
theorem bucket (hc : s.Clearing lists done H) (hk : Kept s.junk)
    (hfuel : ∀ i, (lists i).length < fuel) (b : Bucket) :
    ∃ H', forEach s.junk (fun H tg => (s.tgidAt H tg).bind fun tgid => s.cleanupProcess fuel tgid H)
        fuel H (H.head (.groups b)) = some H' ∧
      ∃ more, s.Clearing lists (done ++ more) H' ∧ without lists (done ++ more) (.groups b) = [] := by
  obtain ⟨groups, hrep⟩ := hc.left
  rw [hrep.head_eq (.groups b)]
  refine forEach_drains
    (P := fun l H => ∃ more, s.Clearing lists (done ++ more) H ∧
      without lists (done ++ more) (.groups b) = l) ?_ ⟨[], ?_, ?_⟩ ?_
  · rintro a l H₁ ⟨more, hc₁, hl⟩
    obtain ⟨H₂, hrun, hcursor, hc₂, hl₂⟩ := hc₁.step hl hk hfuel
    refine ⟨H₂, hrun, hcursor, more ++ [a], ?_, ?_⟩
    · rwa [← List.append_assoc]
    · rwa [← List.append_assoc]
  · rwa [List.append_nil]
  · rw [List.append_nil]
  · exact (without_sublist lists done _).length_le.trans_lt (hfuel _)

end Clearing

/-- The loop over the buckets has those of `is` left, and the groups of the others are cleaned
up. -/
def Sweeping (s : Slab) (lists : ChainId → List ℕ) (is : List ChainId) (H : Heap ChainId) : Prop :=
  ∃ done, s.Clearing lists done H ∧ (∀ i ∈ is, ∃ b, i = .groups b) ∧
    ∀ b, .groups b ∉ is → without lists done (.groups b) = []

theorem Sweeping.next {i : ChainId} {is : List ChainId} (hs : s.Sweeping lists (i :: is) H)
    (hk : Kept s.junk) (hfuel : ∀ i, (lists i).length < fuel) :
    ∃ H', forEach s.junk (fun H tg => (s.tgidAt H tg).bind fun tgid => s.cleanupProcess fuel tgid H)
        fuel H (H.head i) = some H' ∧ s.Sweeping lists is H' := by
  obtain ⟨done, hc, his, hbehind⟩ := hs
  obtain ⟨b, rfl⟩ := his i List.mem_cons_self
  obtain ⟨H', hloop, more, hc', hb⟩ := hc.bucket hk hfuel b
  refine ⟨H', hloop, done ++ more, hc', fun j hj => his j (List.mem_cons_of_mem _ hj), ?_⟩
  intro c hcs
  by_cases hcb : c = b
  · rwa [hcb]
  · -- a bucket that was empty stays empty
    have hnil := hbehind c fun hm => by simp [hcb, hcs] at hm
    have hsub := without_sublist (without lists done) more (.groups c)
    rw [hnil, without_append] at hsub
    exact List.sublist_nil.mp hsub

/-- The run of `cleanup_all`, if freed memory keeps its contents. -/
theorem Represents.cleansAll (h : s.Represents H lists groups) (hfreed : H.freed = [])
    (hk : Kept s.junk) : ∃ H', s.CleansAll H lists groups H' := by
  obtain ⟨fuel, hfuel⟩ := h.exists_fuel
  have hstart : s.Sweeping lists groupChains H := by
    refine ⟨[], ⟨⟨groups, ?_⟩, fun a => by simp [hfreed], fun tg htg => ?_⟩, fun i hi => ?_,
      fun b hb => absurd (mem_groupChains b) hb⟩
    · rwa [without_nil]
    · exact absurd htg List.not_mem_nil
    · obtain ⟨b, -, rfl⟩ := List.mem_map.mp hi
      exact ⟨b, rfl⟩
  obtain ⟨H', hrun, done, hend, -, hempty⟩ :=
    forEachIn_drains (P := s.Sweeping lists) (fun _ _ _ hs => hs.next hk hfuel) hstart
  have hall : ∀ a, a ∈ done ↔ a ∈ groupChains.flatMap lists := by
    intro a
    constructor
    · intro ha
      obtain ⟨b, hb⟩ := hend.groups a ha
      exact List.mem_flatMap.mpr ⟨_, mem_groupChains b, hb⟩
    · intro ha
      obtain ⟨i, hi, ha⟩ := List.mem_flatMap.mp ha
      obtain ⟨b, -, rfl⟩ := List.mem_map.mp hi
      have hnone : (lists (.groups b)).filter (· ∉ done) = [] := hempty b List.not_mem_nil
      have hkeep := List.filter_eq_nil_iff.mp hnone a ha
      simpa using hkeep
  have honce : H'.freed.Nodup :=
    cleanupAll_keeps (fun _ _ _ => nodup_delete) nodup_readNext (by simp [hfreed]) hrun
  obtain ⟨groups', hleft⟩ := hend.left
  rw [without_congr hall] at hleft
  refine ⟨H', ⟨fuel, hrun⟩, fun a => ?_, honce, hleft.holds, h.hash, fun b => ?_, hleft.tables⟩
  · simp only [hend.freed a, hall]
  · have hnone := hempty b List.not_mem_nil
    rw [without_congr hall] at hnone
    rw [hnone]
    exact .nil

/-- If freed memory keeps its contents, both cleanups are complete. -/
theorem cleanup_complete (hk : Kept s.junk) (h : s.Represents H lists groups)
    (hfreed : H.freed = []) :
    (∀ tgid, ∃ H', s.CleansProcess H lists groups tgid H') ∧
      ∃ H', s.CleansAll H lists groups H' := by
  refine ⟨fun tgid => ?_, h.cleansAll hfreed hk⟩
  obtain ⟨H', hclean, -⟩ := h.cleansProcess tgid hfreed fun _ _ _ => hk
  exact ⟨H', hclean⟩

/-! ## Cleaning up without reading freed memory -/

/-- The tables at a group's address are empty when the group's are. -/
theorem GroupAt.tableRecords_eq_nil {a : ℕ} {g : ThreadGroup} (h : s.GroupAt lists a g) :
    tableRecords lists a = [] ↔ ∀ b, g.threads.bucket b = [] ∧ g.fibers.bucket b = [] := by
  have hthreads : ∀ b, lists (.threads a b) = [] ↔ g.threads.bucket b = [] := fun b => by
    rw [← List.map_eq_nil_iff (f := s.record), h.threads b, List.map_eq_nil_iff]
  have hfibers : ∀ b, lists (.fibers a b) = [] ↔ g.fibers.bucket b = [] := fun b => by
    rw [← List.map_eq_nil_iff (f := s.record), h.fibers b, List.map_eq_nil_iff]
  simp only [← hthreads, ← hfibers, List.eq_nil_iff_forall_not_mem, mem_tableRecords, not_or,
    not_exists, forall_and]
  exact ⟨fun h => ⟨fun b a => h.1 a b, fun b a => h.2 a b⟩,
    fun h => ⟨fun a b => h.1 b a, fun a b => h.2 b a⟩⟩

namespace Represents

/-- The parts of a run of `cleanup_process` on a group. -/
theorem cleanupProcess_parts (h : s.Represents H lists groups)
    (haddr : s.groupAddr lists tgid = some tg) (hrun : s.cleanupProcess fuel tgid H = some H') :
    ∃ H₁ H₂, forEachIn s.junk Heap.delete fuel (threadChains tg) H = some H₁ ∧
      forEachIn s.junk Heap.delete fuel (fiberChains tg) H₁ = some H₂ ∧ H₂.delete tg = some H' := by
  simp only [cleanupProcess] at hrun
  split at hrun
  · cases hrun
  · next H₁ hget =>
    have hr := h.getGroup_of_some hget
    rw [haddr] at hr
    cases hr
  · next a H₁ hget =>
    have hr := h.getGroup_of_some hget
    rw [haddr] at hr
    cases hr
    obtain ⟨H₂, hloops, hlast⟩ := Option.bind_eq_some_iff.mp hrun
    obtain ⟨H₁, hthreads, hfibers⟩ := Option.bind_eq_some_iff.mp hloops
    exact ⟨H₁, H₂, hthreads, hfibers, hlast⟩

/-- A cleanup that reads nothing freed found the tables empty. -/
theorem tableRecords_of_quiet (h : s.Represents H lists groups)
    (haddr : s.groupAddr lists tgid = some tg) (hrun : s.cleanupProcess fuel tgid H = some H')
    (hquiet : H'.stale = []) : tableRecords lists tg = [] := by
  obtain ⟨H₁, H₂, hthreads, hfibers, hlast⟩ := h.cleanupProcess_parts haddr hrun
  have hfrees : ∀ is : List ChainId, ∀ i ∈ is, ∀ a H₁, H.head i = some a → H.delete a = some H₁ →
      a ∈ H₁.freed := by
    intro is i _ a H₁ _ hdelete
    rw [(delete_cases hdelete).2.1]
    exact List.mem_cons_self
  -- backwards from the end: a loop that reads nothing freed left the heap as it was
  have hquiet₂ : H₂.stale = [] := (delete_cases hlast).2.2.symm.trans hquiet
  have hquiet₁ : H₁.stale = [] := by
    have hsuffix := forEachIn_stale logs_delete hfibers
    rw [hquiet₂] at hsuffix
    exact List.suffix_nil.mp hsuffix
  obtain ⟨rfl, hnothreads⟩ := untouched_of_quiet logs_delete (hfrees _) hthreads hquiet₁
  obtain ⟨-, hnofibers⟩ := untouched_of_quiet logs_delete (hfrees _) hfibers hquiet₂
  refine List.flatMap_eq_nil_iff.mpr fun i hi => ?_
  have hhead : H₁.head i = none := by
    rcases List.mem_append.mp hi with hi | hi
    · exact hnothreads i hi
    · exact hnofibers i hi
  rw [h.head_eq i] at hhead
  exact List.head?_eq_none_iff.mp hhead

theorem freed_of_cleanupProcess (h : s.Represents H lists groups)
    (haddr : s.groupAddr lists tgid = some tg) (hrun : s.cleanupProcess fuel tgid H = some H') :
    tg ∈ H'.freed := by
  obtain ⟨H₁, H₂, -, -, hlast⟩ := h.cleanupProcess_parts haddr hrun
  rw [(delete_cases hlast).2.1]
  exact List.mem_cons_self

/-- A cleanup of everything that reads nothing freed found no group. -/
theorem groups_of_quiet (h : s.Represents H lists groups) (hrun : s.cleanupAll fuel H = some H')
    (hquiet : H'.stale = []) (b : Bucket) : groups.bucket b = [] := by
  have hfrees : ∀ i ∈ groupChains, ∀ a H₁, H.head i = some a →
      ((s.tgidAt H a).bind fun tgid => s.cleanupProcess fuel tgid H) = some H₁ → a ∈ H₁.freed := by
    intro i hi a H₁ hhead hbody
    obtain ⟨b, -, rfl⟩ := List.mem_map.mp hi
    rw [h.head_eq] at hhead
    obtain ⟨l, hl⟩ := List.head?_eq_some_iff.mp hhead
    obtain ⟨tgid, htgid, -, haddr⟩ := h.groupAddr_head hl
    rw [htgid] at hbody
    exact h.freed_of_cleanupProcess haddr hbody
  have hhead := (untouched_of_quiet logs_cleanup hfrees hrun hquiet).2 _ (mem_groupChains b)
  rw [h.head_eq] at hhead
  have hlen := (h.groups b).length_eq
  rw [List.head?_eq_none_iff.mp hhead] at hlen
  exact List.length_eq_zero_iff.mp hlen.symm

/-- `cleanup_process` is complete and reads nothing freed exactly when there is no thread and no
fiber to free. -/
theorem cleansProcess_iff (h : s.Represents H lists groups) (hfreed : H.freed = [])
    (hstale : H.stale = []) (tgid : ℤ) :
    (∃ H', s.CleansProcess H lists groups tgid H' ∧ H'.stale = []) ↔
      ∀ tg, Fibers.getGroup tgid groups = some tg →
        ∀ b, tg.threads.bucket b = [] ∧ tg.fibers.bucket b = [] := by
  rcases h.groupAddr_cases tgid with ⟨hnone, hgroup⟩ |
    ⟨a, g, l₁, l₂, u₁, u₂, -, -, haddr, hgroup, -, hat, -⟩
  · refine iff_of_true ?_ fun tg htg => by rw [hgroup] at htg; cases htg
    obtain ⟨H', hclean, hstale'⟩ := h.cleansProcess tgid hfreed fun tg htg => by
      rw [hnone] at htg
      cases htg
    rw [hnone, hstale] at hstale'
    exact ⟨H', hclean, hstale'⟩
  · have hempty : (∀ tg, Fibers.getGroup tgid groups = some tg →
        ∀ b, tg.threads.bucket b = [] ∧ tg.fibers.bucket b = []) ↔ tableRecords lists a = [] := by
      rw [hat.tableRecords_eq_nil, hgroup]
      exact ⟨fun h => h g rfl, fun h tg htg => Option.some.inj htg ▸ h⟩
    rw [hempty]
    constructor
    · rintro ⟨H', ⟨⟨fuel, hrun⟩, -⟩, hquiet⟩
      exact h.tableRecords_of_quiet haddr hrun hquiet
    · intro hnil
      obtain ⟨H', hclean, hstale'⟩ := h.cleansProcess tgid hfreed fun tg htg hne => by
        rw [haddr] at htg
        cases htg
        exact absurd hnil hne
      rw [haddr, hstale] at hstale'
      exact ⟨H', hclean, by simpa [hnil] using hstale'⟩

/-- `cleanup_all` is complete and reads nothing freed exactly when there is no group. -/
theorem cleansAll_iff (h : s.Represents H lists groups) (hfreed : H.freed = [])
    (hstale : H.stale = []) :
    (∃ H', s.CleansAll H lists groups H' ∧ H'.stale = []) ↔ ∀ b, groups.bucket b = [] := by
  constructor
  · rintro ⟨H', ⟨⟨fuel, hrun⟩, -⟩, hquiet⟩ b
    exact h.groups_of_quiet hrun hquiet b
  · intro hnil
    have hlists : ∀ b, lists (.groups b) = [] := by
      intro b
      have hlen := (h.groups b).length_eq
      rw [hnil b] at hlen
      exact List.length_eq_zero_iff.mp hlen
    have hhead : ∀ i ∈ groupChains, H.head i = none := by
      intro i hi
      obtain ⟨b, -, rfl⟩ := List.mem_map.mp hi
      rw [h.head_eq, hlists b]
      rfl
    have hflat : groupChains.flatMap lists = [] := by
      refine List.flatMap_eq_nil_iff.mpr fun i hi => ?_
      obtain ⟨b, -, rfl⟩ := List.mem_map.mp hi
      exact hlists b
    refine ⟨H, ⟨⟨1, forEachIn_none hhead⟩, ?_⟩, hstale⟩
    rw [hflat]
    refine ⟨fun a => by simp [hfreed], by simp [hfreed], ?_⟩
    rw [without_nil]
    refine ⟨h.holds, h.hash, fun b => ?_, h.tables⟩
    rw [hlists b]
    exact .nil

end Represents

end Slab

/-! ## The registry after one convert -/

/-- Every record is alone in its chain. -/
def oneLists : ChainId → List ℕ
  | .groups b => if b = hashZero 1 then [0] else []
  | .threads tg b => if tg = 0 ∧ b = hashZero 1 then [1] else []
  | .fibers tg b => if tg = 0 ∧ b = hashZero 0 then [2] else []

def oneHeap : Heap ChainId where
  head := fun i => (oneLists i).head?
  next := fun _ => none
  freed := []
  stale := []

def oneSlab : Slab where
  record
    | 0 => (oneFiber.bucket (hashZero 1)).head?.map fun tg => .group tg.tgid tg.fidCount
    | 1 => (oneFiber.bucket (hashZero 1)).head?.bind fun tg =>
      (tg.threads.bucket (hashZero 1)).head?.map .thread
    | 2 => (oneFiber.bucket (hashZero 1)).head?.bind fun tg =>
      (tg.fibers.bucket (hashZero 0)).head?.map .fiber
    | _ => none
  hash := hashZero
  junk := fun H a => H.next a

theorem oneFiber_records : ∃ g t f, getGroup 1 oneFiber = some g ∧
    oneFiber.bucket (hashZero 1) = [g] ∧ g.threads.bucket (hashZero 1) = [t] ∧
    g.fibers.bucket (hashZero 0) = [f] ∧ g.threads.hash = hashZero ∧ g.fibers.hash = hashZero :=
  ⟨_, _, _, rfl, rfl, rfl, rfl, rfl, rfl⟩

theorem bucket_of_hashZero {α : Type*} {key : α → ℤ} {T : HashTable Bucket key}
    (h : T.hash = hashZero) {b : Bucket} {k : ℤ} (hb : b ≠ hashZero k) : T.bucket b = [] := by
  refine List.eq_nil_iff_forall_not_mem.mpr fun r hr => hb ?_
  rw [← T.placed b r hr, h]
  rfl

theorem oneHeap_holds : oneHeap.Holds oneLists where
  leads i := by
    cases i <;> simp only [oneHeap, oneLists] <;> split <;> simp [Leads]
  nodup i := by
    cases i <;> simp only [oneLists] <;> split <;> simp
  apart i j a hi hj := by
    cases i <;> cases j <;> simp_all [oneLists]
  live _ _ _ := List.not_mem_nil

theorem oneSlab_represents : oneSlab.Represents oneHeap oneLists oneFiber where
  holds := oneHeap_holds
  hash := rfl
  groups b := by
    obtain ⟨g, t, f, -, hg, ht, hf, hthreads, hfibers⟩ := oneFiber_records
    by_cases hb : b = hashZero 1
    · have hlist : oneLists (.groups b) = [0] := if_pos hb
      rw [hlist, hb, hg]
      refine .cons ⟨?_, fun c => ?_, fun c => ?_⟩ .nil
      · simp [oneSlab, hg]
      · by_cases hc : c = hashZero 1
        · simp [oneLists, oneSlab, hc, hg, ht]
        · simp [oneLists, hc, bucket_of_hashZero hthreads hc]
      · by_cases hc : c = hashZero 0
        · simp [oneLists, oneSlab, hc, hg, hf]
        · simp [oneLists, hc, bucket_of_hashZero hfibers hc]
    · have hlist : oneLists (.groups b) = [] := if_neg hb
      rw [hlist, bucket_of_hashZero rfl hb]
      exact .nil
  tables a ha b := by
    have hne : a ≠ 0 := by
      rintro rfl
      exact ha (hashZero 1) (by simp [oneLists])
    simp [oneLists, hne]

theorem oneSlab_addr : oneSlab.groupAddr oneLists 1 = some 0 := rfl

/-! ## When a cleanup is safe -/

/-- Both cleanups free the record under the cursor and then read its `next`. So
`cleanup_process` is complete and reads nothing freed exactly when there is no group, or one
without threads and fibers; `cleanup_all` exactly when there is no group at all. The logs begin
with the call. -/
theorem cleanup_reads_nothing_freed (s : Slab) (H : Heap ChainId) (lists : ChainId → List ℕ)
    (groups : Groups) (h : s.Represents H lists groups) (hfreed : H.freed = [])
    (hstale : H.stale = []) :
    (∀ tgid, (∃ H', s.CleansProcess H lists groups tgid H' ∧ H'.stale = []) ↔
      ∀ tg, getGroup tgid groups = some tg →
        ∀ b, tg.threads.bucket b = [] ∧ tg.fibers.bucket b = []) ∧
    ((∃ H', s.CleansAll H lists groups H' ∧ H'.stale = []) ↔ ∀ b, groups.bucket b = []) :=
  ⟨h.cleansProcess_iff hfreed hstale, h.cleansAll_iff hfreed hstale⟩

/-- The group of process 1 has a thread and a fiber, and process 2 has no group. -/
theorem cleanup_reads_nothing_freed_converted :
    (¬ ∃ H', oneSlab.CleansProcess oneHeap oneLists oneFiber 1 H' ∧ H'.stale = []) ∧
      (∃ H', oneSlab.CleansProcess oneHeap oneLists oneFiber 2 H' ∧ H'.stale = []) ∧
      ¬ ∃ H', oneSlab.CleansAll oneHeap oneLists oneFiber H' ∧ H'.stale = [] := by
  obtain ⟨hprocess, hall⟩ :=
    cleanup_reads_nothing_freed oneSlab oneHeap oneLists oneFiber oneSlab_represents rfl rfl
  obtain ⟨g, t, -, hgroup, hg, ht, -⟩ := oneFiber_records
  refine ⟨fun h => ?_, (hprocess 2).mpr fun tg htg => ?_, fun h => ?_⟩
  · have hnil := ((hprocess 1).mp h g hgroup (hashZero 1)).1
    rw [ht] at hnil
    cases hnil
  · have hnone : getGroup 2 oneFiber = none := rfl
    rw [hnone] at htg
    cases htg
  · have hnil := hall.mp h (hashZero 1)
    rw [hg] at hnil
    cases hnil

/-- After one convert, the cleanups follow the freed thread and the freed fiber, and `cleanup_all`
also the freed group; so neither is complete without reading freed memory. -/
theorem cleanup_follows_freed :
    oneSlab.Represents oneHeap oneLists oneFiber ∧
      (oneSlab.cleanupProcess 3 1 oneHeap).map Heap.stale = some [2, 1] ∧
      (oneSlab.cleanupAll 3 oneHeap).map Heap.stale = some [0, 2, 1] ∧
      (¬ ∃ H', oneSlab.CleansProcess oneHeap oneLists oneFiber 1 H' ∧ H'.stale = []) ∧
      ¬ ∃ H', oneSlab.CleansAll oneHeap oneLists oneFiber H' ∧ H'.stale = [] := by
  refine ⟨oneSlab_represents, by decide +kernel, by decide +kernel, ?_, ?_⟩
  · rintro ⟨H', ⟨⟨fuel, hrun⟩, -⟩, hquiet⟩
    have hnil := oneSlab_represents.tableRecords_of_quiet oneSlab_addr hrun hquiet
    have hmem : 1 ∈ tableRecords oneLists 0 := mem_tableRecords.mpr (.inl ⟨hashZero 1, by decide⟩)
    rw [hnil] at hmem
    cases hmem
  · rintro ⟨H', ⟨⟨fuel, hrun⟩, -⟩, hquiet⟩
    have hnil := oneSlab_represents.groups_of_quiet hrun hquiet (hashZero 1)
    obtain ⟨g, -, -, -, hg, -⟩ := oneFiber_records
    rw [hg] at hnil
    cases hnil

end Fibers
