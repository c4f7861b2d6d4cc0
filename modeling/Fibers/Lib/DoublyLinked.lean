import Mathlib.Data.List.Nodup
import Mathlib.Logic.Function.Basic
import Mathlib.Tactic.Common

/-!
# Doubly linked lists in a heap

Nodes at addresses, each with a value and two pointers. `Linked H nx p l q` says that the pointer
`p` leads along `prev` through the nodes of `l` to the pointer `q`, that their values are those of
`l`, and that each `next` points back, the first one to `nx`.

## Main results

- `DoublyLinked.linked_append` — a list is its two halves
- `DoublyLinked.Linked.push`, `DoublyLinked.Linked.unlink_head`, `DoublyLinked.Linked.unlink` — the
  updates of a list
- `DoublyLinked.Linked.search_eq`, `DoublyLinked.Linked.walk_eq` — the loops over a list end
-/

namespace DoublyLinked

structure Node (α : Type*) where
  value : α
  next : Option ℕ
  prev : Option ℕ

/-- What is allocated. -/
abbrev Heap (α : Type*) := ℕ → Option (Node α)

variable {α : Type*}

/-! ## Operations -/

/-- `p->next = v`, where a null `p` is tested for. -/
def setNext (H : Heap α) (p v : Option ℕ) : Option (Heap α) :=
  match p with
  | none => some H
  | some a => (H a).map fun n => Function.update H a (some { n with next := v })

/-- `p->prev = v`, where a null `p` is tested for. -/
def setPrev (H : Heap α) (p v : Option ℕ) : Option (Heap α) :=
  match p with
  | none => some H
  | some a => (H a).map fun n => Function.update H a (some { n with prev := v })

/-- The first node along `prev` with a value, within `fuel` nodes. -/
def search (H : Heap α) (hit : α → Bool) : ℕ → Option ℕ → Option (Option ℕ)
  | 0, _ => none
  | _ + 1, none => some none
  | fuel + 1, some a =>
    match H a with
    | none => none
    | some n => if hit n.value then some (some a) else search H hit fuel n.prev

/-- The nodes along `prev`, within `fuel` of them. -/
def walk (H : Heap α) : ℕ → Option ℕ → Option (List ℕ)
  | 0, _ => none
  | _ + 1, none => some []
  | fuel + 1, some a =>
    match H a with
    | none => none
    | some n => (walk H fuel n.prev).map (a :: ·)

/-! ## Lists -/

def Linked (H : Heap α) : Option ℕ → Option ℕ → List (ℕ × α) → Option ℕ → Prop
  | _, p, [], q => p = q
  | nx, p, (a, v) :: l, q => p = some a ∧ ∃ r, H a = some ⟨v, nx, r⟩ ∧ Linked H (some a) r l q

/-- The address that `next` of the node after `l` has. -/
def lastOr (nx : Option ℕ) : List (ℕ × α) → Option ℕ
  | [] => nx
  | (a, _) :: l => lastOr (some a) l

variable {H H' : Heap α} {nx p q r v : Option ℕ} {l l' : List (ℕ × α)} {a : ℕ} {x : α}

theorem linked_append : Linked H nx p (l ++ l') q ↔
    ∃ r, Linked H nx p l r ∧ Linked H (lastOr nx l) r l' q := by
  induction l generalizing nx p with
  | nil => exact ⟨fun h => ⟨p, rfl, h⟩, fun ⟨r, hr, h⟩ => by cases hr; exact h⟩
  | cons y l ih =>
    obtain ⟨b, w⟩ := y
    constructor
    · rintro ⟨hp, s, hb, hl⟩
      obtain ⟨r, hr, hl'⟩ := ih.mp hl
      exact ⟨r, ⟨hp, s, hb, hr⟩, hl'⟩
    · rintro ⟨r, ⟨hp, s, hb, hr⟩, hl'⟩
      exact ⟨hp, s, hb, ih.mpr ⟨r, hr, hl'⟩⟩

/-- A list survives changes elsewhere. -/
theorem Linked.frame (h : Linked H nx p l q) (hsame : ∀ y ∈ l, H' y.1 = H y.1) :
    Linked H' nx p l q := by
  induction l generalizing nx p with
  | nil => exact h
  | cons y l ih =>
    obtain ⟨hp, s, hb, hl⟩ := h
    refine ⟨hp, s, (hsame y List.mem_cons_self).trans hb, ih hl fun z hz => ?_⟩
    exact hsame z (List.mem_cons_of_mem _ hz)

theorem Linked.isSome (h : Linked H nx p l q) : ∀ y ∈ l, (H y.1).isSome := by
  induction l generalizing nx p with
  | nil => exact fun y hy => absurd hy List.not_mem_nil
  | cons y l ih =>
    obtain ⟨-, s, hb, hl⟩ := h
    intro z hz
    obtain rfl | hz := List.mem_cons.mp hz
    · rw [hb]
      rfl
    · exact ih hl z hz

theorem Linked.not_mem (h : Linked H nx p l q) (ha : H a = none) : ∀ y ∈ l, y.1 ≠ a := by
  rintro y hy rfl
  have hsome := h.isSome y hy
  rw [ha] at hsome
  cases hsome

/-- A node elsewhere does not matter. -/
theorem Linked.update (h : Linked H nx p l q) (ha : ∀ y ∈ l, y.1 ≠ a) (n : Option (Node α)) :
    Linked (Function.update H a n) nx p l q :=
  h.frame fun y hy => Function.update_of_ne (ha y hy) _ _

theorem fst_ne_of_nodup (hd : (((a, x) :: l).map Prod.fst).Nodup) : ∀ y ∈ l, y.1 ≠ a := by
  intro y hy he
  exact (List.nodup_cons.mp hd).1 (List.mem_map.mpr ⟨y, hy, he⟩)

theorem Linked.head_mem (h : Linked H nx (some a) l none) : ∃ y ∈ l, y.1 = a := by
  cases l with
  | nil => cases h
  | cons y l => exact ⟨y, List.mem_cons_self, (Option.some.inj h.1).symm⟩

/-- The first node is made to point back elsewhere. -/
theorem Linked.redirect (h : Linked H nx p l none) (hd : (l.map Prod.fst).Nodup) (v : Option ℕ) :
    ∃ H', setNext H p v = some H' ∧ Linked H' v p l none ∧ ∀ b, some b ≠ p → H' b = H b := by
  cases l with
  | nil =>
    cases h
    exact ⟨H, rfl, rfl, fun _ _ => rfl⟩
  | cons y l =>
    obtain ⟨b, w⟩ := y
    obtain ⟨rfl, s, hb, hl⟩ := h
    refine ⟨Function.update H b (some ⟨w, v, s⟩), ?_, ⟨rfl, s, Function.update_self _ _ _, ?_⟩, ?_⟩
    · simp only [setNext, hb, Option.map_some]
    · exact hl.update (fst_ne_of_nodup hd) _
    · exact fun c hc => Function.update_of_ne (fun he => hc (congrArg some he)) _ _

/-! ## Updates -/

/-- A new node in front. -/
theorem Linked.push (h : Linked H none p l none) (hd : (l.map Prod.fst).Nodup) (ha : H a = none)
    (x : α) :
    ∃ H', setNext (Function.update H a (some ⟨x, none, p⟩)) p (some a) = some H' ∧
      Linked H' (some a) p l none ∧ Linked H' none (some a) ((a, x) :: l) none := by
  have hfresh := h.not_mem ha
  obtain ⟨H', hset, hl, hsame⟩ := (h.update hfresh (some ⟨x, none, p⟩)).redirect hd (some a)
  refine ⟨H', hset, hl, rfl, p, ?_, hl⟩
  have hp : some a ≠ p := by
    rintro rfl
    obtain ⟨y, hy, he⟩ := h.head_mem
    exact hfresh y hy he
  rw [hsame a hp, Function.update_self]

/-- The first node taken out. -/
theorem Linked.unlink_head (h : Linked H none p ((a, x) :: l) none)
    (hd : (((a, x) :: l).map Prod.fst).Nodup) :
    ∃ r H', H a = some ⟨x, none, r⟩ ∧ setNext H r none = some H' ∧
      Linked (Function.update H' a none) none r l none := by
  obtain ⟨-, r, ha, hl⟩ := h
  obtain ⟨H', hset, hl', -⟩ := hl.redirect (List.nodup_cons.mp hd).2 none
  exact ⟨r, H', ha, hset, hl'.update (fst_ne_of_nodup hd) none⟩

/-- A node behind another one taken out. -/
theorem Linked.unlink {b : ℕ} {y : α} (h : Linked H none p (l ++ (b, y) :: (a, x) :: l') none)
    (hd : ((l ++ (b, y) :: (a, x) :: l').map Prod.fst).Nodup) :
    ∃ r H₁ H₂, H a = some ⟨x, some b, r⟩ ∧ setPrev H (some b) r = some H₁ ∧
      setNext H₁ r (some b) = some H₂ ∧
      Linked (Function.update H₂ a none) none p (l ++ (b, y) :: l') none := by
  obtain ⟨s, hl, rfl, t, hb, rfl, r, ha, hl'⟩ := linked_append.mp h
  rw [List.map_append, List.nodup_append] at hd
  obtain ⟨-, hd', hdisjoint⟩ := hd
  have hb' := fst_ne_of_nodup hd'
  have ha' := fst_ne_of_nodup (List.nodup_cons.mp hd').2
  have hab : a ≠ b := hb' (a, x) List.mem_cons_self
  have hfront : ∀ z ∈ l, ∀ w ∈ (b, y) :: (a, x) :: l', z.1 ≠ w.1 := fun z hz w hw =>
    hdisjoint _ (List.mem_map_of_mem hz) _ (List.mem_map_of_mem hw)
  obtain ⟨H₂, hset, hl₂, hsame⟩ := (hl'.update (fun z hz => hb' z (List.mem_cons_of_mem _ hz))
    (some ⟨y, lastOr none l, r⟩)).redirect (List.nodup_cons.mp (List.nodup_cons.mp hd').2).2 (some b)
  have hrest : ∀ z, (∀ w ∈ l', z ≠ w.1) → some z ≠ r := by
    rintro z hz rfl
    obtain ⟨w, hw, rfl⟩ := hl'.head_mem
    exact hz w hw rfl
  refine ⟨r, _, H₂, ha, by simp only [setPrev, hb, Option.map_some], hset, linked_append.mpr
    ⟨some b, hl.frame fun z hz => ?_, rfl, r, ?_, hl₂.update ha' none⟩⟩
  · have hza : z.1 ≠ a := hfront z hz (a, x) (by simp)
    have hzb : z.1 ≠ b := hfront z hz _ List.mem_cons_self
    have hzr : some z.1 ≠ r := hrest z.1 fun w hw => hfront z hz w (by simp [hw])
    rw [Function.update_of_ne hza, hsame _ hzr, Function.update_of_ne hzb]
  · have hbr : some b ≠ r := hrest b fun w hw => (hb' w (List.mem_cons_of_mem _ hw)).symm
    rw [Function.update_of_ne hab.symm, hsame _ hbr, Function.update_self]

/-! ## Loops -/

theorem Linked.search_eq (h : Linked H nx p l none) (hit : α → Bool) {fuel : ℕ}
    (hfuel : l.length < fuel) :
    search H hit fuel p = some ((l.find? fun y => hit y.2).map Prod.fst) := by
  induction l generalizing nx p fuel with
  | nil =>
    obtain ⟨fuel, rfl⟩ := Nat.exists_eq_add_of_lt hfuel
    cases h
    rfl
  | cons y l ih =>
    obtain ⟨k, rfl⟩ : ∃ k, fuel = k + 1 := ⟨fuel - 1, by omega⟩
    obtain ⟨b, w⟩ := y
    obtain ⟨rfl, s, hb, hl⟩ := h
    rw [search, hb]
    dsimp only
    split
    · next hw => simp [hw]
    · next hw =>
      have hmiss : ((b, w) :: l).find? (fun y => hit y.2) = l.find? fun y => hit y.2 := by
        simp [hw]
      rw [hmiss]
      exact ih hl (Nat.lt_of_succ_lt_succ hfuel)

theorem Linked.walk_eq (h : Linked H nx p l none) {fuel : ℕ} (hfuel : l.length < fuel) :
    walk H fuel p = some (l.map Prod.fst) := by
  induction l generalizing nx p fuel with
  | nil =>
    obtain ⟨fuel, rfl⟩ := Nat.exists_eq_add_of_lt hfuel
    cases h
    rfl
  | cons y l ih =>
    obtain ⟨k, rfl⟩ : ∃ k, fuel = k + 1 := ⟨fuel - 1, by omega⟩
    obtain ⟨b, w⟩ := y
    obtain ⟨rfl, s, hb, hl⟩ := h
    rw [walk, hb]
    dsimp only
    rw [ih hl (Nat.lt_of_succ_lt_succ hfuel), Option.map_some, List.map_cons]

end DoublyLinked
