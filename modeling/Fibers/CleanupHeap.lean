import Fibers.Calls
import Fibers.Lib.Chains
import Mathlib.Data.List.Forall2
import Mathlib.Data.Set.Finite.Lattice

/-!
# The registry in the heap

`cleanup_process` and `cleanup_all` on the records themselves: the hash tables are chains of
records linked by `next`, `hash_del_rcu` makes the pointer to a record skip it, and `kfree` frees
it. The heap represents a registry when its chains hold the records of the tables.

## Main results

- `Slab.Represents.getGroup_eq` — the lookup finds the address of the group
- `Slab.Represents.cleanupProcess_eq` — what one cleanup frees and what it leaves
-/

namespace Fibers

open Chains

/-! ## The records of a registry -/

/-- The chains: the buckets of the global table, and those of the two tables of the group at an
address. -/
inductive ChainId
  | groups (b : Bucket)
  | threads (tg : ℕ) (b : Bucket)
  | fibers (tg : ℕ) (b : Bucket)
  deriving DecidableEq

/-- A record without its `hlist_node`; the tables of a group are chains. -/
inductive Record
  | group (tgid fidCount : ℤ)
  | thread (t : Thread)
  | fiber (f : Fiber)

def Record.tgid : Record → Option ℤ
  | .group tgid _ => some tgid
  | _ => none

/-- What the cleanup does not write: the records and the hash function, and what the `next` of a
freed record reads as. -/
structure Slab where
  record : ℕ → Option Record
  hash : ℤ → Bucket
  junk : Heap ChainId → ℕ → Option ℕ

/-- The buckets of a table in the order of `hash_for_each_rcu`. -/
def buckets : List Bucket := List.finRange (2 ^ hashSize)

def groupChains : List ChainId := buckets.map .groups

def threadChains (tg : ℕ) : List ChainId := buckets.map (.threads tg)

def fiberChains (tg : ℕ) : List ChainId := buckets.map (.fibers tg)

/-! ## The functions -/

namespace Slab

variable (s : Slab)

/-- `tg->tgid`, for the record of a group that is not freed. -/
def tgidAt (H : Heap ChainId) (a : ℕ) : Option ℤ :=
  if a ∈ H.freed then none else (s.record a).bind Record.tgid

/-- `get_group`, from a record of the chain on. -/
def getGroup (tgid : ℤ) : ℕ → Heap ChainId → Option ℕ → Option (Option ℕ × Heap ChainId)
  | 0, _, _ => none
  | _ + 1, H, none => some (none, H)
  | fuel + 1, H, some a =>
    match s.tgidAt H a with
    | none => none
    | some k =>
      if k = tgid then some (some a, H)
      else getGroup tgid fuel (H.readNext s.junk a).2 (H.readNext s.junk a).1

def cleanupProcess (fuel : ℕ) (tgid : ℤ) (H : Heap ChainId) : Option (Heap ChainId) :=
  match s.getGroup tgid fuel H (H.head (.groups (s.hash tgid))) with
  | none => none
  | some (none, H) => some H
  | some (some tg, H) =>
    ((forEachIn s.junk Heap.delete fuel (threadChains tg) H).bind fun H =>
      forEachIn s.junk Heap.delete fuel (fiberChains tg) H).bind fun H => H.delete tg

def cleanupAll (fuel : ℕ) (H : Heap ChainId) : Option (Heap ChainId) :=
  forEachIn s.junk (fun H tg => (s.tgidAt H tg).bind fun tgid => s.cleanupProcess fuel tgid H) fuel
    groupChains H

/-! ## Heaps of a registry -/

/-- The record and the tables at an address are those of the group. -/
structure GroupAt (lists : ChainId → List ℕ) (a : ℕ) (tg : ThreadGroup) : Prop where
  record : s.record a = some (.group tg.tgid tg.fidCount)
  threads : ∀ b, (lists (.threads a b)).map s.record =
    (tg.threads.bucket b).map fun t => some (.thread t)
  fibers : ∀ b, (lists (.fibers a b)).map s.record =
    (tg.fibers.bucket b).map fun f => some (.fiber f)

/-- The chains of the heap are the given ones, and they hold the records of the registry. -/
structure Represents (H : Heap ChainId) (lists : ChainId → List ℕ) (groups : Groups) : Prop where
  holds : H.Holds lists
  hash : s.hash = groups.hash
  groups : ∀ b, List.Forall₂ (s.GroupAt lists) (lists (.groups b)) (groups.bucket b)
  tables : ∀ a, (∀ b, a ∉ lists (.groups b)) →
    ∀ b, lists (.threads a b) = [] ∧ lists (.fibers a b) = []

/-- The address of the group of a process. -/
def groupAddr (lists : ChainId → List ℕ) (tgid : ℤ) : Option ℕ :=
  (lists (.groups (s.hash tgid))).find? fun a => (s.record a).bind Record.tgid = some tgid

end Slab

/-- The threads and fibers of the group at an address. -/
def tableRecords (lists : ChainId → List ℕ) (tg : ℕ) : List ℕ :=
  (threadChains tg ++ fiberChains tg).flatMap lists

/-- The chains without some groups and their tables. -/
def without (lists : ChainId → List ℕ) (tgs : List ℕ) : ChainId → List ℕ
  | .groups b => (lists (.groups b)).filter (· ∉ tgs)
  | .threads tg b => if tg ∈ tgs then [] else lists (.threads tg b)
  | .fibers tg b => if tg ∈ tgs then [] else lists (.fibers tg b)

namespace Slab

variable (s : Slab)

/-- Some groups of a registry were cleaned up completely: every record of theirs is freed and
nothing else, none is freed twice, and the heap holds what is left of the registry where it
was. -/
structure Cleaned (lists : ChainId → List ℕ) (tgs : List ℕ) (groups : Groups) (H : Heap ChainId) :
    Prop where
  freed : ∀ a, a ∈ H.freed ↔ ∃ tg ∈ tgs, a = tg ∨ a ∈ tableRecords lists tg
  once : H.freed.Nodup
  left : s.Represents H (without lists tgs) groups

/-- `cleanup_process` returns with the group of the process cleaned up, if there is one. -/
def CleansProcess (H : Heap ChainId) (lists : ChainId → List ℕ) (groups : Groups) (tgid : ℤ)
    (H' : Heap ChainId) : Prop :=
  (∃ fuel, s.cleanupProcess fuel tgid H = some H') ∧
    s.Cleaned lists (s.groupAddr lists tgid).toList (Fibers.cleanupProcess groups tgid) H'

/-- `cleanup_all` returns with every group cleaned up and an empty registry. -/
def CleansAll (H : Heap ChainId) (lists : ChainId → List ℕ) (groups : Groups) (H' : Heap ChainId) :
    Prop :=
  (∃ fuel, s.cleanupAll fuel H = some H') ∧
    s.Cleaned lists (groupChains.flatMap lists) (.init groups.hash) H'

end Slab

/-! ## Chains and buckets side by side -/

theorem mem_buckets (b : Bucket) : b ∈ buckets := List.mem_finRange b

theorem mem_groupChains (b : Bucket) : .groups b ∈ groupChains :=
  List.mem_map_of_mem (mem_buckets b)

theorem nodup_threadChains (tg : ℕ) : (threadChains tg).Nodup :=
  (List.nodup_finRange _).map fun _ _ h => by cases h; rfl

theorem nodup_fiberChains (tg : ℕ) : (fiberChains tg).Nodup :=
  (List.nodup_finRange _).map fun _ _ h => by cases h; rfl

theorem mem_threadChains {tg : ℕ} {i : ChainId} : i ∈ threadChains tg ↔ ∃ b, i = .threads tg b := by
  simp [threadChains, mem_buckets, eq_comm]

theorem mem_fiberChains {tg : ℕ} {i : ChainId} : i ∈ fiberChains tg ↔ ∃ b, i = .fibers tg b := by
  simp [fiberChains, mem_buckets, eq_comm]

theorem mem_tableRecords {lists : ChainId → List ℕ} {tg a : ℕ} :
    a ∈ tableRecords lists tg ↔
      (∃ b, a ∈ lists (.threads tg b)) ∨ ∃ b, a ∈ lists (.fibers tg b) := by
  simp only [tableRecords, List.flatMap_append, List.mem_append, List.mem_flatMap, mem_threadChains,
    mem_fiberChains]
  constructor
  · rintro (⟨_, ⟨b, rfl⟩, h⟩ | ⟨_, ⟨b, rfl⟩, h⟩)
    · exact .inl ⟨b, h⟩
    · exact .inr ⟨b, h⟩
  · rintro (⟨b, h⟩ | ⟨b, h⟩)
    · exact .inl ⟨_, ⟨b, rfl⟩, h⟩
    · exact .inr ⟨_, ⟨b, rfl⟩, h⟩

/-- Two related lists are searched for related elements. -/
theorem forall₂_find {α β : Type*} {R : α → β → Prop} {p : α → Bool} {q : β → Bool} {l : List α}
    {u : List β} (h : List.Forall₂ R l u) (hpq : ∀ a b, R a b → p a = q b) :
    (l.find? p = none ∧ u.find? q = none) ∨
      ∃ a b l₁ l₂ u₁ u₂, l = l₁ ++ a :: l₂ ∧ u = u₁ ++ b :: u₂ ∧ l.find? p = some a ∧
        u.find? q = some b ∧ u.eraseP q = u₁ ++ u₂ ∧ R a b ∧
        List.Forall₂ R (l₁ ++ l₂) (u₁ ++ u₂) := by
  induction h with
  | nil => exact .inl ⟨rfl, rfl⟩
  | @cons a b l u hr hl ih =>
    cases hb : q b with
    | true =>
      have ha : p a = true := (hpq a b hr).trans hb
      exact .inr ⟨a, b, [], l, [], u, rfl, rfl, by simp [ha], by simp [hb], by simp [hb], hr, hl⟩
    | false =>
      have ha : p a = false := (hpq a b hr).trans hb
      rcases ih with ⟨hl', hu⟩ | ⟨a', b', l₁, l₂, u₁, u₂, rfl, rfl, hfl, hfu, he, hr', hrest⟩
      · exact .inl ⟨by simp [ha, hl'], by simp [hb, hu]⟩
      · exact .inr ⟨a', b', a :: l₁, l₂, b :: u₁, u₂, rfl, rfl, by simpa [ha] using hfl,
          by simpa [hb] using hfu, by simpa [hb] using he, hr', .cons hr hrest⟩

section Without

variable {lists : ChainId → List ℕ} {tgs : List ℕ}

theorem without_nil (lists : ChainId → List ℕ) : without lists [] = lists := by
  funext i
  cases i with
  | groups b => exact List.filter_eq_self.mpr fun _ _ => by simp
  | threads tg b | fibers tg b => simp [without]

theorem without_append (lists : ChainId → List ℕ) (tgs tgs' : List ℕ) :
    without (without lists tgs) tgs' = without lists (tgs ++ tgs') := by
  funext i
  cases i with
  | groups b =>
    show List.filter _ (List.filter _ _) = List.filter _ _
    rw [List.filter_filter]
    refine List.filter_congr fun a _ => ?_
    simp [Bool.and_comm]
  | threads tg b | fibers tg b =>
    by_cases h : tg ∈ tgs <;> by_cases h' : tg ∈ tgs' <;> simp [without, h, h']

theorem without_congr {tgs' : List ℕ} (h : ∀ a, a ∈ tgs ↔ a ∈ tgs') :
    without lists tgs = without lists tgs' := by
  funext i
  cases i with
  | groups b => exact List.filter_congr fun a _ => by simp [h a]
  | threads tg b | fibers tg b => simp [without, h tg]

theorem without_sublist (lists : ChainId → List ℕ) (tgs : List ℕ) (i : ChainId) :
    (without lists tgs i).Sublist (lists i) := by
  cases i with
  | groups b => exact List.filter_sublist
  | threads tg b | fibers tg b =>
    show List.Sublist (if tg ∈ tgs then [] else _) _
    split
    · exact List.nil_sublist _
    · exact List.Sublist.refl _

theorem tableRecords_without {tg : ℕ} (h : tg ∉ tgs) :
    tableRecords (without lists tgs) tg = tableRecords lists tg := by
  refine List.flatMap_congr fun i hi => ?_
  rcases List.mem_append.mp hi with hi | hi
  · obtain ⟨b, rfl⟩ := mem_threadChains.mp hi
    exact if_neg h
  · obtain ⟨b, rfl⟩ := mem_fiberChains.mp hi
    exact if_neg h

end Without

/-! ## Looking up a group -/

namespace Slab

variable {s : Slab} {H H' : Heap ChainId} {lists : ChainId → List ℕ} {groups : Groups}
variable {tgid : ℤ} {tg fuel : ℕ}

namespace Represents

theorem tgidAt_group (h : s.Represents H lists groups) {b : Bucket} {a : ℕ}
    (ha : a ∈ lists (.groups b)) :
    ∃ g ∈ groups.bucket b, s.GroupAt lists a g ∧ s.tgidAt H a = some g.tgid := by
  obtain ⟨n, hn, rfl⟩ := List.mem_iff_getElem.mp ha
  have hlen := (h.groups b).length_eq
  have hat := (h.groups b).get hn (hlen ▸ hn)
  refine ⟨_, List.getElem_mem (hlen ▸ hn), hat, ?_⟩
  rw [tgidAt, if_neg (h.holds.live _ _ ha)]
  exact congrArg (·.bind Record.tgid) hat.record

theorem head_eq (h : s.Represents H lists groups) (i : ChainId) : H.head i = (lists i).head? :=
  (h.holds.leads i).head?_eq

/-- The loop of `get_group` finds the group's record, or runs out of fuel. -/
theorem getGroup_cases (h : s.Represents H lists groups) {b : Bucket} {l : List ℕ} {p : Option ℕ}
    (hl : Leads H.next p l) (hsub : ∀ a ∈ l, a ∈ lists (.groups b)) :
    s.getGroup tgid fuel H p =
        some (l.find? fun a => (s.record a).bind Record.tgid = some tgid, H) ∨
      fuel ≤ l.length ∧ s.getGroup tgid fuel H p = none := by
  induction l generalizing p fuel with
  | nil =>
    cases hl
    cases fuel with
    | zero => exact .inr ⟨le_rfl, rfl⟩
    | succ fuel => exact .inl rfl
  | cons a l ih =>
    obtain ⟨rfl, hl⟩ := hl
    cases fuel with
    | zero => exact .inr ⟨Nat.zero_le _, rfl⟩
    | succ fuel =>
      -- the records of the chain are live, so the walk follows no freed one
      have ha := hsub a List.mem_cons_self
      obtain ⟨g, -, hat, htgid⟩ := h.tgidAt_group ha
      have hrec : (s.record a).bind Record.tgid = some g.tgid :=
        congrArg (·.bind Record.tgid) hat.record
      simp only [getGroup, htgid, h.holds.readNext_live ha]
      by_cases hg : g.tgid = tgid
      · left
        rw [if_pos hg, List.find?_cons_of_pos (by simp [hrec, hg])]
      · rw [if_neg hg, List.find?_cons_of_neg (by simp [hrec, hg])]
        rcases ih hl fun c hc => hsub c (List.mem_cons_of_mem a hc) with hfound | ⟨hf, hnone⟩
        · exact .inl hfound
        · exact .inr ⟨Nat.succ_le_succ hf, hnone⟩

/-- `get_group` leads to the group's address. -/
theorem getGroup_eq (h : s.Represents H lists groups)
    (hfuel : (lists (.groups (s.hash tgid))).length < fuel) :
    s.getGroup tgid fuel H (H.head (.groups (s.hash tgid))) = some (s.groupAddr lists tgid, H) := by
  rcases h.getGroup_cases (h.holds.leads (.groups (s.hash tgid))) fun _ ha => ha with hr | ⟨hf, -⟩
  · exact hr
  · exact absurd hfuel (not_lt.mpr hf)

theorem getGroup_of_some (h : s.Represents H lists groups) {r : Option ℕ × Heap ChainId}
    (hrun : s.getGroup tgid fuel H (H.head (.groups (s.hash tgid))) = some r) :
    r = (s.groupAddr lists tgid, H) := by
  rcases h.getGroup_cases (h.holds.leads (.groups (s.hash tgid))) fun _ ha => ha with hr | ⟨-, hr⟩
  · exact Option.some.inj (hrun.symm.trans hr)
  · rw [hr] at hrun
    cases hrun

/-- The group's address and the group in the registry. -/
theorem groupAddr_cases (h : s.Represents H lists groups) (tgid : ℤ) :
    (s.groupAddr lists tgid = none ∧ Fibers.getGroup tgid groups = none) ∨
      ∃ a g l₁ l₂ u₁ u₂, lists (.groups (s.hash tgid)) = l₁ ++ a :: l₂ ∧
        groups.bucket (s.hash tgid) = u₁ ++ g :: u₂ ∧ s.groupAddr lists tgid = some a ∧
        Fibers.getGroup tgid groups = some g ∧
        (groups.remove tgid).bucket (s.hash tgid) = u₁ ++ u₂ ∧ s.GroupAt lists a g ∧
        List.Forall₂ (s.GroupAt lists) (l₁ ++ l₂) (u₁ ++ u₂) := by
  have hsplit := forall₂_find (p := fun a => decide ((s.record a).bind Record.tgid = some tgid))
    (q := fun g => decide (g.tgid = tgid)) (h.groups (s.hash tgid)) fun a g hat => by
      simp [hat.record, Record.tgid]
  have hgroup : Fibers.getGroup tgid groups =
      (groups.bucket (s.hash tgid)).find? fun g => decide (g.tgid = tgid) := by
    rw [h.hash]
    rfl
  have hremove : (groups.remove tgid).bucket (s.hash tgid) =
      (groups.bucket (s.hash tgid)).eraseP fun g => decide (g.tgid = tgid) := by
    rw [h.hash]
    exact Function.update_self _ _ _
  rw [hgroup, hremove]
  rcases hsplit with hnone | ⟨a, g, l₁, l₂, u₁, u₂, hl, hu, hfl, hfu, he, hat, hrest⟩
  · exact .inl hnone
  · exact .inr ⟨a, g, l₁, l₂, u₁, u₂, hl, hu, hfl, hfu, he, hat, hrest⟩

/-! ## One group cleaned up -/

end Represents

theorem GroupAt.without {a : ℕ} {g : ThreadGroup} {tgs : List ℕ} (h : s.GroupAt lists a g)
    (ha : a ∉ tgs) : s.GroupAt (without lists tgs) a g where
  record := h.record
  threads := fun b => by simpa [Fibers.without, ha] using h.threads b
  fibers := fun b => by simpa [Fibers.without, ha] using h.fibers b

theorem forall₂_without {tgs l : List ℕ} {u : List ThreadGroup}
    (h : List.Forall₂ (s.GroupAt lists) l u) (hl : ∀ a ∈ l, a ∉ tgs) :
    List.Forall₂ (s.GroupAt (without lists tgs)) l u :=
  ((List.forall₂_and_left (p := fun a => a ∉ tgs) l u).mpr ⟨hl, h⟩).imp fun _ _ hat =>
    hat.2.without hat.1

namespace Represents

/-- A list of groups without one of them. -/
theorem filter_eq (h : s.Represents H lists groups) {b : Bucket} {a : ℕ} {l₁ l₂ : List ℕ}
    (hl : lists (.groups b) = l₁ ++ a :: l₂) :
    without lists [a] (.groups b) = l₁ ++ l₂ ∧ ∀ c ∈ l₁ ++ l₂, c ≠ a := by
  have hd := h.holds.nodup (.groups b)
  rw [hl, List.nodup_middle, List.nodup_cons] at hd
  have hne : ∀ c ∈ l₁ ++ l₂, c ≠ a := by
    rintro c hc rfl
    exact hd.1 hc
  have hkeep : ∀ l : List ℕ, (∀ c ∈ l, c ≠ a) → l.filter (· ∉ [a]) = l := fun l hl =>
    List.filter_eq_self.mpr fun c hc => by simpa using hl c hc
  refine ⟨?_, hne⟩
  show List.filter _ (lists (.groups b)) = _
  rw [hl, List.filter_append, List.filter_cons_of_neg (by simp),
    hkeep l₁ fun c hc => hne c (by simp [hc]), hkeep l₂ fun c hc => hne c (by simp [hc])]

/-- The registry without a group, in a heap that holds its chains without it. -/
theorem remove (h : s.Represents H lists groups) (haddr : s.groupAddr lists tgid = some tg)
    (hholds : H'.Holds (without lists [tg])) :
    s.Represents H' (without lists [tg]) (Fibers.cleanupProcess groups tgid) := by
  rcases h.groupAddr_cases tgid with ⟨hnone, -⟩ |
    ⟨a, g, l₁, l₂, u₁, u₂, hl, -, hsome, hgroup, hremove, -, hrest⟩
  · rw [haddr] at hnone
    cases hnone
  obtain rfl : tg = a := Option.some.inj (haddr.symm.trans hsome)
  have hclean : Fibers.cleanupProcess groups tgid = groups.remove tgid := by
    rw [Fibers.cleanupProcess, hgroup]
  obtain ⟨hfilter, hne⟩ := h.filter_eq hl
  rw [hclean]
  refine ⟨hholds, h.hash, ?_, ?_⟩
  · intro b
    -- only the bucket of the group changes
    by_cases hb : b = s.hash tgid
    · subst hb
      rw [hfilter, hremove]
      exact forall₂_without hrest fun c hc => by simpa using hne c hc
    · have hmem : ∀ c ∈ lists (.groups b), c ∉ [tg] := by
        intro c hc hct
        obtain rfl := List.mem_singleton.mp hct
        cases h.holds.apart _ _ c hc (by rw [hl]; simp : c ∈ lists (.groups (s.hash tgid)))
        exact hb rfl
      have hsame : without lists [tg] (.groups b) = lists (.groups b) :=
        List.filter_eq_self.mpr fun c hc => by simpa using hmem c hc
      have hbucket : (groups.remove tgid).bucket b = groups.bucket b :=
        Function.update_of_ne (by rw [← h.hash]; exact hb) _ _
      rw [hsame, hbucket]
      exact forall₂_without (h.groups b) hmem
  · intro c hc b
    by_cases hct : c = tg
    · simp [without, hct]
    · have hold : ∀ b, c ∉ lists (.groups b) := fun b hm =>
        hc b (List.mem_filter.mpr ⟨hm, by simpa using hct⟩)
      simpa [without, hct] using h.tables c hold b

/-- The tables of a group emptied and its record deleted. -/
theorem cleanupProcess_eq (h : s.Represents H lists groups)
    (haddr : s.groupAddr lists tgid = some tg) (hk : tableRecords lists tg ≠ [] → Kept s.junk)
    (hfuel : ∀ i, (lists i).length < fuel) :
    ∃ H', s.cleanupProcess fuel tgid H = some H' ∧
      s.Represents H' (without lists [tg]) (Fibers.cleanupProcess groups tgid) ∧
      H'.freed = tg :: ((tableRecords lists tg).reverse ++ H.freed) ∧
      H'.stale = (tableRecords lists tg).reverse ++ H.stale ∧
      (Kept s.junk → ∀ l₁ l₂, lists (.groups (s.hash tgid)) = l₁ ++ tg :: l₂ →
        (H'.readNext s.junk tg).1 = l₂.head?) := by
  have hkeep : ∀ i ∈ threadChains tg ++ fiberChains tg, lists i ≠ [] → Kept s.junk := by
    intro i hi hne
    obtain ⟨a, ha⟩ := List.exists_mem_of_ne_nil _ hne
    exact hk (List.ne_nil_of_mem (List.mem_flatMap.mpr ⟨i, hi, ha⟩))
  obtain ⟨H₁, hthreads, hholds₁, hfreed₁, hstale₁⟩ := h.holds.drainIn (threadChains tg)
    (fun i hi => hkeep i (List.mem_append_left _ hi)) (nodup_threadChains tg) fun i _ => hfuel i
  -- the threads are gone; the fibers and the chain of the group are where they were
  have hsame : ∀ i ∈ fiberChains tg, (if i ∈ threadChains tg then [] else lists i) = lists i := by
    intro i hi
    obtain ⟨b, rfl⟩ := mem_fiberChains.mp hi
    exact if_neg fun hm => by cases (mem_threadChains.mp hm).choose_spec
  obtain ⟨H₂, hfibers, hholds₂, hfreed₂, hstale₂⟩ := hholds₁.drainIn (fiberChains tg)
    (fun i hi => by rw [hsame i hi]; exact hkeep i (List.mem_append_right _ hi))
    (nodup_fiberChains tg) fun i hi => by rw [hsame i hi]; exact hfuel i
  rw [List.flatMap_congr hsame] at hfreed₂ hstale₂
  rcases h.groupAddr_cases tgid with ⟨hnone, -⟩ | ⟨a, g, l₁, l₂, -, -, hl, -, hsome, -⟩
  · rw [haddr] at hnone
    cases hnone
  obtain rfl : tg = a := Option.some.inj (haddr.symm.trans hsome)
  have hgroups : (if ChainId.groups (s.hash tgid) ∈ fiberChains tg then [] else
      if ChainId.groups (s.hash tgid) ∈ threadChains tg then [] else
        lists (.groups (s.hash tgid))) = lists (.groups (s.hash tgid)) := by
    simp [mem_fiberChains, mem_threadChains]
  obtain ⟨hdelete, hholds⟩ := hholds₂.delete (hgroups.trans hl)
  refine ⟨(H₂.unlink tg).free tg, ?_, h.remove haddr ?_, ?_, ?_, ?_⟩
  · simp only [cleanupProcess, h.getGroup_eq (hfuel _), haddr, hthreads, Option.bind_some, hfibers,
      hdelete]
  · convert hholds using 1
    funext i
    cases i with
    | groups b =>
      by_cases hb : b = s.hash tgid
      · subst hb
        rw [Function.update_self]
        exact (h.filter_eq hl).1
      · have hmem : ∀ c ∈ lists (.groups b), c ≠ tg := by
          rintro c hc rfl
          cases h.holds.apart _ _ c hc (by rw [hl]; simp : c ∈ lists (.groups (s.hash tgid)))
          exact hb rfl
        rw [Function.update_of_ne (by simpa using hb)]
        simp only [mem_fiberChains, mem_threadChains, reduceCtorEq, exists_false, if_false]
        exact List.filter_eq_self.mpr fun c hc => by simpa using hmem c hc
    | threads a b =>
      rw [Function.update_of_ne (by simp)]
      simp [without, mem_fiberChains, mem_threadChains]
    | fibers a b =>
      rw [Function.update_of_ne (by simp)]
      simp [without, mem_fiberChains, mem_threadChains]
  · show tg :: H₂.freed = _
    rw [hfreed₂, hfreed₁, tableRecords, List.flatMap_append, List.reverse_append, List.append_assoc]
  · show H₂.stale = _
    rw [hstale₂, hstale₁, tableRecords, List.flatMap_append, List.reverse_append, List.append_assoc]
  · intro hjunk l₁' l₂' hl'
    rw [hholds₂.readNext_deleted (hgroups.trans hl') hjunk]

/-- Only finitely many chains have records, so some number exceeds the length of each. -/
theorem exists_fuel (h : s.Represents H lists groups) : ∃ fuel, ∀ i, (lists i).length < fuel := by
  let addrs := groupChains.flatMap lists
  let chains := groupChains ++ addrs.flatMap fun tg => threadChains tg ++ fiberChains tg
  have hmem : ∀ i, i ∈ chains ∨ lists i = [] := by
    intro i
    by_cases hi : ∃ tg b, tg ∈ lists (.groups b) ∧ i ∈ threadChains tg ++ fiberChains tg
    · obtain ⟨tg, b, htg, hi⟩ := hi
      have htg : tg ∈ addrs := List.mem_flatMap.mpr ⟨_, mem_groupChains b, htg⟩
      exact .inl (List.mem_append_right _ (List.mem_flatMap.mpr ⟨tg, htg, hi⟩))
    · cases i with
      | groups b => exact .inl (List.mem_append_left _ (mem_groupChains b))
      -- at the address of no group there are no tables
      | threads tg b =>
        refine .inr (h.tables tg (fun c hc => hi ⟨tg, c, hc, ?_⟩) b).1
        exact List.mem_append_left _ (mem_threadChains.mpr ⟨b, rfl⟩)
      | fibers tg b =>
        refine .inr (h.tables tg (fun c hc => hi ⟨tg, c, hc, ?_⟩) b).2
        exact List.mem_append_right _ (mem_fiberChains.mpr ⟨b, rfl⟩)
  refine ⟨(chains.flatMap lists).length + 1, fun i => Nat.lt_succ_of_le ?_⟩
  rcases hmem i with hi | hi
  · exact (List.sublist_flatten_of_mem (List.mem_map_of_mem hi)).length_le
  · rw [hi]
    exact Nat.zero_le _

/-- The first group of a bucket is the one that `get_group` finds under its `tgid`. -/
theorem groupAddr_head (h : s.Represents H lists groups) {b : Bucket} {a : ℕ} {l : List ℕ}
    (hl : lists (.groups b) = a :: l) :
    ∃ tgid, s.tgidAt H a = some tgid ∧ s.hash tgid = b ∧ s.groupAddr lists tgid = some a := by
  obtain ⟨g, hg, hat, htgid⟩ := h.tgidAt_group (b := b) (a := a) (by simp [hl])
  have hb : s.hash g.tgid = b := by
    rw [h.hash]
    exact groups.placed b g hg
  refine ⟨g.tgid, htgid, hb, ?_⟩
  rw [groupAddr, hb, hl]
  exact List.find?_cons_of_pos (by simp [hat.record, Record.tgid])

end Represents

end Slab

end Fibers
