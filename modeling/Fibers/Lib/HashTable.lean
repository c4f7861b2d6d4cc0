import Mathlib.Algebra.BigOperators.Fin
import Mathlib.Algebra.BigOperators.Group.Finset.Basic
import Mathlib.Data.Fintype.Basic
import Mathlib.Tactic.Abel
import Mathlib.Data.List.Basic

/-!
# Chained hash tables

A table of chains over arbitrary keys, buckets and records, with the lookup that
scans one chain and returns the first record carrying the key. The table keeps,
as a field, that every record lies in the bucket of its own key; it does not
promise that keys are distinct, since insertion does not look before it inserts.

`HashTable.chain` is the list of the records under one key. All operations act on
it, and on no other chain, so it describes a table completely as far as lookups
are concerned, whatever the hash function and its collisions.
-/

/-- Chains of records of type `α` with keys in `κ`, hung from buckets `β`. -/
structure HashTable {α κ : Type*} (β : Type*) (key : α → κ) where
  hash : κ → β
  bucket : β → List α
  placed : ∀ b, ∀ r ∈ bucket b, hash (key r) = b

namespace HashTable

variable {α κ β : Type*} {key : α → κ}

/-- The table without records. -/
def init (hash : κ → β) : HashTable β key where
  hash := hash
  bucket := fun _ => []
  placed := by simp

/-- The record lies somewhere in the table. -/
def Mem (T : HashTable β key) (r : α) : Prop := ∃ b, r ∈ T.bucket b

/-! ## Lookups -/

section Lookup

variable [DecidableEq κ]

/-- The first record of the key's chain that carries the key. -/
def find (T : HashTable β key) (k : κ) : Option α :=
  (T.bucket (T.hash k)).find? (fun r => key r = k)

/-- The records under one key, most recently inserted first. -/
def chain (T : HashTable β key) (k : κ) : List α :=
  (T.bucket (T.hash k)).filter (fun r => key r = k)

theorem find_eq_head? (T : HashTable β key) (k : κ) : T.find k = (T.chain k).head? :=
  (List.head?_filter ..).symm

@[simp] theorem chain_init (hash : κ → β) (k : κ) :
    (init hash : HashTable β key).chain k = [] := rfl

@[simp] theorem find_init (hash : κ → β) (k : κ) :
    (init hash : HashTable β key).find k = none := rfl

theorem key_of_find {T : HashTable β key} {k : κ} {r : α} (h : T.find k = some r) :
    key r = k := by
  simpa using List.find?_some h

theorem mem_chain {T : HashTable β key} {k : κ} {r : α} :
    r ∈ T.chain k ↔ T.Mem r ∧ key r = k := by
  simp only [chain, List.mem_filter, decide_eq_true_eq]
  constructor
  · rintro ⟨hr, hk⟩
    exact ⟨⟨_, hr⟩, hk⟩
  · rintro ⟨⟨b, hr⟩, rfl⟩
    rw [T.placed b r hr]
    exact ⟨hr, rfl⟩

theorem mem_of_find {T : HashTable β key} {k : κ} {r : α} (h : T.find k = some r) : T.Mem r := by
  rw [find_eq_head?] at h
  exact (mem_chain.mp (List.mem_of_head? h)).1

theorem find_eq_none_iff {T : HashTable β key} {k : κ} :
    T.find k = none ↔ ∀ r, T.Mem r → key r ≠ k := by
  rw [find_eq_head?, List.head?_eq_none_iff, List.eq_nil_iff_forall_not_mem]
  simp only [mem_chain, not_and, ne_eq]

/-- No key is carried by two records. -/
def Unique (T : HashTable β key) : Prop := ∀ k, (T.chain k).length ≤ 1

theorem unique_init (hash : κ → β) : (init hash : HashTable β key).Unique := by
  intro k
  simp

theorem Unique.find_eq_some_iff {T : HashTable β key} (hT : T.Unique) {k : κ} {r : α} :
    T.find k = some r ↔ T.Mem r ∧ key r = k := by
  rw [find_eq_head?, ← mem_chain]
  have hk := hT k
  cases hc : T.chain k with
  | nil => simp
  | cons a l =>
    have hl : l = [] := by
      rw [hc] at hk
      exact List.length_eq_zero_iff.mp (by simpa using hk)
    simp [hl, eq_comm]

end Lookup

/-! ## Updates -/

section Update

variable [DecidableEq β]

/-- Insertion at the head of the chain, without a look at what is there. -/
def add (T : HashTable β key) (r : α) : HashTable β key where
  hash := T.hash
  bucket := Function.update T.bucket (T.hash (key r)) (r :: T.bucket (T.hash (key r)))
  placed := by
    intro b x hx
    by_cases hb : b = T.hash (key r)
    · subst hb
      rw [Function.update_self] at hx
      rcases List.mem_cons.mp hx with rfl | hx
      · rfl
      · exact T.placed _ x hx
    · rw [Function.update_of_ne hb] at hx
      exact T.placed b x hx

@[simp] theorem hash_add (T : HashTable β key) (r : α) : (T.add r).hash = T.hash := rfl

theorem mem_replaceF {l : List α} {p : α → Option α} {x : α} (h : x ∈ l.replaceF p) :
    x ∈ l ∨ ∃ y ∈ l, p y = some x := by
  induction l with
  | nil => simp at h
  | cons a l ih =>
    rw [List.replaceF_cons] at h
    cases hp : p a with
    | none =>
      rw [hp] at h
      rcases List.mem_cons.mp h with rfl | h
      · exact Or.inl (by simp)
      · rcases ih h with h | ⟨y, hy, he⟩
        · exact Or.inl (by simp [h])
        · exact Or.inr ⟨y, by simp [hy], he⟩
    | some b =>
      rw [hp] at h
      rcases List.mem_cons.mp h with rfl | h
      · exact Or.inr ⟨a, by simp, hp⟩
      · exact Or.inl (by simp [h])

theorem mem_add {T : HashTable β key} {r x : α} (h : (T.add r).Mem x) : x = r ∨ T.Mem x := by
  obtain ⟨b, hb⟩ := h
  have hx : x ∈ Function.update T.bucket (T.hash (key r)) (r :: T.bucket (T.hash (key r))) b := hb
  rw [Function.update_apply] at hx
  split at hx
  · obtain rfl | hx := List.mem_cons.mp hx
    · exact .inl rfl
    · exact .inr ⟨_, hx⟩
  · exact .inr ⟨b, hx⟩

variable [DecidableEq κ]

/-- A write through a pointer to the record under `k`. The write leaves keys alone. -/
def modify (T : HashTable β key) (k : κ) (g : α → α)
    (hg : ∀ r, key (g r) = key r := by intro _; rfl) : HashTable β key where
  hash := T.hash
  bucket := Function.update T.bucket (T.hash k)
    ((T.bucket (T.hash k)).replaceF (fun r => if key r = k then some (g r) else none))
  placed := by
    intro b x hx
    by_cases hb : b = T.hash k
    · subst hb
      rw [Function.update_self] at hx
      rcases mem_replaceF hx with hx | ⟨y, hy, he⟩
      · exact T.placed _ x hx
      · split at he
        · cases he
          rw [hg]
          exact T.placed _ y hy
        · cases he
    · rw [Function.update_of_ne hb] at hx
      exact T.placed b x hx

theorem mem_modify {T : HashTable β key} {k : κ} {g : α → α} (hg : ∀ r, key (g r) = key r) {x : α}
    (h : (T.modify k g hg).Mem x) : T.Mem x ∨ ∃ y, T.Mem y ∧ g y = x := by
  obtain ⟨b, hb⟩ := h
  have hx : x ∈ Function.update T.bucket (T.hash k)
    ((T.bucket (T.hash k)).replaceF (fun r => if key r = k then some (g r) else none)) b := hb
  rw [Function.update_apply] at hx
  split at hx
  · obtain hx | ⟨y, hy, he⟩ := mem_replaceF hx
    · exact .inl ⟨_, hx⟩
    · split at he
      · exact .inr ⟨y, ⟨_, hy⟩, Option.some.inj he⟩
      · cases he
  · exact .inl ⟨b, hx⟩

/-- Unlinking of the record that a lookup of `k` returns. -/
def remove (T : HashTable β key) (k : κ) : HashTable β key where
  hash := T.hash
  bucket := Function.update T.bucket (T.hash k)
    ((T.bucket (T.hash k)).eraseP (fun r => key r = k))
  placed := by
    intro b x hx
    by_cases hb : b = T.hash k
    · subst hb
      rw [Function.update_self] at hx
      exact T.placed _ x (List.mem_of_mem_eraseP hx)
    · rw [Function.update_of_ne hb] at hx
      exact T.placed b x hx

@[simp] theorem hash_modify (T : HashTable β key) (k : κ) (g : α → α)
    (hg : ∀ r, key (g r) = key r) : (T.modify k g hg).hash = T.hash := rfl

@[simp] theorem hash_remove (T : HashTable β key) (k : κ) : (T.remove k).hash = T.hash := rfl

/-! ### What the updates do to a chain -/

theorem filter_replaceF_self {l : List α} {p : α → Bool} {g : α → α}
    (hg : ∀ r, p (g r) = p r) :
    (l.replaceF (fun r => if p r then some (g r) else none)).filter p =
      (l.filter p).modifyHead g := by
  induction l with
  | nil => rfl
  | cons a l ih => by_cases hp : p a <;> simp [hp, hg, ih]

theorem filter_replaceF_of_ne {l : List α} {p q : α → Bool} {g : α → α}
    (hq : ∀ r, p r → q r = false ∧ q (g r) = false) :
    (l.replaceF (fun r => if p r then some (g r) else none)).filter q = l.filter q := by
  induction l with
  | nil => rfl
  | cons a l ih =>
    by_cases hp : p a
    · simp [hp, hq a hp]
    · simp [hp, List.filter_cons, ih]

theorem filter_eraseP_self {l : List α} {p : α → Bool} :
    (l.eraseP p).filter p = (l.filter p).tail := by
  induction l with
  | nil => rfl
  | cons a l ih => by_cases hp : p a <;> simp [hp, ih]

theorem filter_eraseP_of_ne {l : List α} {p q : α → Bool} (hq : ∀ r, p r → q r = false) :
    (l.eraseP p).filter q = l.filter q := by
  induction l with
  | nil => rfl
  | cons a l ih =>
    by_cases hp : p a
    · simp [hp, hq a hp]
    · simp [hp, List.filter_cons, ih]

@[simp] theorem chain_add (T : HashTable β key) (r : α) (k : κ) :
    (T.add r).chain k = if key r = k then r :: T.chain k else T.chain k := by
  simp only [chain, add]
  by_cases hb : T.hash k = T.hash (key r)
  · rw [hb, Function.update_self]
    by_cases hk : key r = k <;> simp [hk]
  · have hk : key r ≠ k := fun h => hb (by rw [h])
    rw [Function.update_of_ne hb, if_neg hk]

@[simp] theorem chain_modify (T : HashTable β key) (k : κ) (g : α → α)
    (hg : ∀ r, key (g r) = key r) (k' : κ) :
    (T.modify k g hg).chain k' = if k' = k then (T.chain k).modifyHead g else T.chain k' := by
  simp only [chain, modify]
  by_cases hk : k' = k
  · subst hk
    rw [if_pos rfl, Function.update_self]
    simpa using filter_replaceF_self (l := T.bucket (T.hash k'))
      (p := fun r => decide (key r = k')) (g := g) (by simp [hg])
  · rw [if_neg hk]
    by_cases hb : T.hash k' = T.hash k
    · rw [hb, Function.update_self]
      simpa using filter_replaceF_of_ne (l := T.bucket (T.hash k))
        (p := fun r => decide (key r = k)) (q := fun r => decide (key r = k')) (g := g)
        (by simp only [decide_eq_true_eq, hg]; rintro r rfl; simp [Ne.symm hk])
    · rw [Function.update_of_ne hb]

@[simp] theorem chain_remove (T : HashTable β key) (k k' : κ) :
    (T.remove k).chain k' = if k' = k then (T.chain k).tail else T.chain k' := by
  simp only [chain, remove]
  by_cases hk : k' = k
  · subst hk
    rw [if_pos rfl, Function.update_self, filter_eraseP_self]
  · rw [if_neg hk]
    by_cases hb : T.hash k' = T.hash k
    · rw [hb, Function.update_self]
      refine filter_eraseP_of_ne ?_
      simp only [decide_eq_true_eq, decide_eq_false_iff_not]
      rintro r rfl
      exact Ne.symm hk
    · rw [Function.update_of_ne hb]

/-! ### Lookups after an update -/

@[simp] theorem find_add (T : HashTable β key) (r : α) (k : κ) :
    (T.add r).find k = if key r = k then some r else T.find k := by
  simp only [find_eq_head?, chain_add]
  split <;> rfl

@[simp] theorem find_modify (T : HashTable β key) (k : κ) (g : α → α)
    (hg : ∀ r, key (g r) = key r) (k' : κ) :
    (T.modify k g hg).find k' = if k' = k then (T.find k).map g else T.find k' := by
  simp only [find_eq_head?, chain_modify]
  split
  · cases T.chain k <;> rfl
  · rfl

/-- In a table with distinct keys an unlinked record is no longer found. -/
theorem Unique.find_remove {T : HashTable β key} (hT : T.Unique) (k k' : κ) :
    (T.remove k).find k' = if k' = k then none else T.find k' := by
  simp only [find_eq_head?, chain_remove]
  by_cases hk : k' = k
  · have := hT k
    simp only [hk, if_true, List.head?_eq_none_iff, ← List.length_eq_zero_iff, List.length_tail]
    omega
  · simp [hk]

/-- A write only depends on what it does to the record the pointer reaches. -/
theorem modify_congr {T : HashTable β key} {k : κ} {g g' : α → α}
    {hg : ∀ r, key (g r) = key r} {hg' : ∀ r, key (g' r) = key r}
    (h : ∀ r, T.find k = some r → g r = g' r) : T.modify k g hg = T.modify k g' hg' := by
  have hl : ∀ l : List α, (∀ r, l.find? (fun r => key r = k) = some r → g r = g' r) →
      l.replaceF (fun r => if key r = k then some (g r) else none) =
      l.replaceF (fun r => if key r = k then some (g' r) else none) := by
    intro l
    induction l with
    | nil => intro _; rfl
    | cons a l ih =>
      intro hl
      by_cases hk : key a = k
      · simp [hk, hl a (by simp [hk])]
      · simp only [List.replaceF_cons, hk, if_false]
        rw [ih (fun r hr => hl r (by simpa [hk] using hr))]
  simp [modify, hl _ h]

/-- A write of what is there already. -/
theorem modify_of_same {T : HashTable β key} {k : κ} {g : α → α} {hg : ∀ r, key (g r) = key r}
    (h : ∀ r, T.find k = some r → g r = r) : T.modify k g hg = T := by
  have hid : T.modify k g hg = T.modify k (fun r => r) (fun _ => rfl) := modify_congr h
  rw [hid]
  have hl : ∀ l : List α, l.replaceF (fun r => if key r = k then some r else none) = l := by
    intro l
    induction l with
    | nil => rfl
    | cons a l ih => by_cases hk : key a = k <;> simp [hk, ih]
  simp [modify, hl]

/-! ### Distinct keys are kept -/

theorem Unique.add {T : HashTable β key} (hT : T.Unique) {r : α} (h : T.find (key r) = none) :
    (T.add r).Unique := by
  intro k
  rw [chain_add]
  by_cases hk : key r = k
  · have hc : T.chain k = [] := by
      rw [find_eq_head?, hk] at h
      exact List.head?_eq_none_iff.mp h
    simp [hk, hc]
  · simpa [hk] using hT k

theorem Unique.modify {T : HashTable β key} (hT : T.Unique) (k : κ) (g : α → α)
    (hg : ∀ r, key (g r) = key r) : (T.modify k g hg).Unique := by
  intro k'
  rw [chain_modify]
  by_cases hk : k' = k <;> simp [hk, hT _]

theorem Unique.remove {T : HashTable β key} (hT : T.Unique) (k : κ) : (T.remove k).Unique := by
  intro k'
  rw [chain_remove]
  by_cases hk : k' = k
  · have := hT k
    simp only [hk, if_true, List.length_tail]
    omega
  · simpa [hk] using hT k'

end Update

/-! ## The population -/

section Population

variable [Fintype β]

/-- The keys of all records, each as often as it is carried. -/
def keys (T : HashTable β key) : Multiset κ :=
  ∑ b : β, ((T.bucket b).map key : Multiset κ)

/-- The number of records. -/
def size (T : HashTable β key) : ℕ := T.keys.card

@[simp] theorem keys_init (hash : κ → β) : (init hash : HashTable β key).keys = 0 := by
  simp [keys, init]

@[simp] theorem size_init (hash : κ → β) : (init hash : HashTable β key).size = 0 := by
  simp [size]

theorem count_keys [DecidableEq κ] (T : HashTable β key) (k : κ) : T.keys.count k = (T.chain k).length := by
  rw [keys, Multiset.count_sum', Finset.sum_eq_single (T.hash k)]
  · have hc : (fun r => key r == k) = fun r => decide (key r = k) := by
      funext r
      simp [beq_eq_decide]
    rw [Multiset.coe_count, List.count, List.countP_map, List.countP_eq_length_filter, chain]
    simp only [Function.comp_def, hc]
  · intro b _ hb
    rw [Multiset.coe_count, List.count_eq_zero]
    intro hk
    obtain ⟨r, hr, rfl⟩ := List.mem_map.mp hk
    exact hb (T.placed b r hr).symm
  · intro h
    exact absurd (Finset.mem_univ _) h

theorem unique_iff_nodup_keys [DecidableEq κ] {T : HashTable β key} : T.Unique ↔ T.keys.Nodup := by
  rw [Multiset.nodup_iff_count_le_one]
  simp only [Unique, count_keys]

theorem find_isSome_iff [DecidableEq κ] {T : HashTable β key} {k : κ} : (T.find k).isSome ↔ k ∈ T.keys := by
  rw [← Multiset.count_pos, count_keys, find_eq_head?]
  cases T.chain k <;> simp

variable [DecidableEq β]

theorem keys_update (T T' : HashTable β key) (b : β) (l : List α)
    (h : T'.bucket = Function.update T.bucket b l) :
    T'.keys + ((T.bucket b).map key : Multiset κ) = T.keys + (l.map key : Multiset κ) := by
  simp only [keys, h]
  rw [← Finset.add_sum_erase _ _ (Finset.mem_univ b),
    ← Finset.add_sum_erase (Finset.univ) (fun b => ((T.bucket b).map key : Multiset κ))
      (Finset.mem_univ b), Function.update_self]
  have hs : ∀ c ∈ Finset.univ.erase b,
      ((Function.update T.bucket b l c).map key : Multiset κ) =
        ((T.bucket c).map key : Multiset κ) := by
    intro c hc
    rw [Function.update_of_ne (Finset.ne_of_mem_erase hc)]
  rw [Finset.sum_congr rfl hs]
  abel

@[simp] theorem keys_add (T : HashTable β key) (r : α) : (T.add r).keys = key r ::ₘ T.keys := by
  have h := keys_update T (T.add r) _ _ rfl
  rw [List.map_cons, ← Multiset.cons_coe, Multiset.add_cons, ← Multiset.cons_add] at h
  exact add_right_cancel h

@[simp] theorem size_add (T : HashTable β key) (r : α) : (T.add r).size = T.size + 1 := by
  simp [size]

variable [DecidableEq κ]

@[simp] theorem keys_modify (T : HashTable β key) (k : κ) (g : α → α)
    (hg : ∀ r, key (g r) = key r) : (T.modify k g hg).keys = T.keys := by
  have h := keys_update T (T.modify k g hg) _ _ rfl
  have hl : ∀ l : List α,
      (l.replaceF (fun r => if key r = k then some (g r) else none)).map key = l.map key := by
    intro l
    induction l with
    | nil => rfl
    | cons a l ih => by_cases hk : key a = k <;> simp [hk, hg, ih]
  rw [hl] at h
  exact add_right_cancel h

@[simp] theorem size_modify (T : HashTable β key) (k : κ) (g : α → α)
    (hg : ∀ r, key (g r) = key r) : (T.modify k g hg).size = T.size := by
  simp [size]

end Population

/-! ## Walks -/

section Walk

variable {n : ℕ} {κ : Type*} {key : α → κ}

/-- All records, bucket by bucket. -/
def walk (T : HashTable (Fin n) key) : List α := (List.finRange n).flatMap T.bucket

theorem mem_walk {T : HashTable (Fin n) key} {r : α} : r ∈ T.walk ↔ T.Mem r := by
  simp [walk, Mem]

theorem length_walk (T : HashTable (Fin n) key) : T.walk.length = T.size := by
  rw [walk, List.length_flatMap, size, keys, Multiset.card_sum, Fin.sum_univ_def]
  simp

end Walk

end HashTable
