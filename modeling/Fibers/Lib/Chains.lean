import Mathlib.Data.List.Nodup
import Mathlib.Logic.Function.Basic
import Mathlib.Tactic.Common

/-!
# Chains of records in a heap

Records at addresses, linked by `next` and hung from the heads of any number of lists. A list
is traversed by following `next` after the body of the loop, so a body that frees the record
under the cursor makes the loop follow the `next` of a freed record; the heap keeps a log of
these reads, and what they yield is a parameter, since a freed record may be given out again at
any time.

## Main results

- `Heap.Holds.delete` — a record taken out of its list and freed
- `forEach_drains`, `forEachIn_drains` — the rules for a loop that consumes what it traverses
- `Heap.Holds.drainIn` — deleting all records of some lists
- `untouched_of_quiet` — a loop that frees its cursors and reads nothing freed had nothing to do
-/

namespace Chains

/-- The pointers, what was freed and which freed records were followed, the latest first. -/
structure Heap (I : Type*) where
  head : I → Option ℕ
  next : ℕ → Option ℕ
  freed : List ℕ
  stale : List ℕ

variable {I : Type*}

namespace Heap

/-- A pointer to `a` becomes a pointer to what comes after it. -/
def skip (H : Heap I) (a : ℕ) (p : Option ℕ) : Option ℕ := if p = some a then H.next a else p

/-- The record is taken out of its list: the pointer that leads to it skips it. It keeps its own
`next`, and the pointers in freed records are left alone. -/
def unlink (H : Heap I) (a : ℕ) : Heap I :=
  { H with
    head := fun i => H.skip a (H.head i)
    next := fun c => if c ∈ H.freed then H.next c else H.skip a (H.next c) }

def free (H : Heap I) (a : ℕ) : Heap I := { H with freed := a :: H.freed }

/-- Unlink and free. There is no result for a record that is freed already. -/
def delete (H : Heap I) (a : ℕ) : Option (Heap I) :=
  if a ∈ H.freed then none else some ((H.unlink a).free a)

/-- The `next` of a record; `junk` says what that of a freed record reads as. -/
def readNext (junk : Heap I → ℕ → Option ℕ) (H : Heap I) (a : ℕ) : Option ℕ × Heap I :=
  if a ∈ H.freed then (junk H a, { H with stale := a :: H.stale }) else (H.next a, H)

end Heap

/-- Freed memory keeps its contents. -/
def Kept (junk : Heap I → ℕ → Option ℕ) : Prop := ∀ H a, junk H a = H.next a

/-! ## Loops -/

/-- A loop over the records from the cursor on, within `fuel` of them. -/
def forEach (junk : Heap I → ℕ → Option ℕ) (body : Heap I → ℕ → Option (Heap I)) :
    ℕ → Heap I → Option ℕ → Option (Heap I)
  | 0, _, _ => none
  | _ + 1, H, none => some H
  | fuel + 1, H, some a =>
    match body H a with
    | none => none
    | some H => forEach junk body fuel (H.readNext junk a).2 (H.readNext junk a).1

/-- A loop over several lists, one after the other. -/
def forEachIn (junk : Heap I → ℕ → Option ℕ) (body : Heap I → ℕ → Option (Heap I)) (fuel : ℕ) :
    List I → Heap I → Option (Heap I)
  | [], H => some H
  | i :: is, H =>
    match forEach junk body fuel H (H.head i) with
    | none => none
    | some H => forEachIn junk body fuel is H

variable {junk : Heap I → ℕ → Option ℕ} {body : Heap I → ℕ → Option (Heap I)} {H H' : Heap I}
variable {fuel : ℕ}

/-- The rule for a loop whose body consumes the record under the cursor. -/
theorem forEach_drains {P : List ℕ → Heap I → Prop}
    (hbody : ∀ a l H, P (a :: l) H → ∃ H', body H a = some H' ∧
      (H'.readNext junk a).1 = l.head? ∧ P l (H'.readNext junk a).2)
    {l : List ℕ} (hl : P l H) (hfuel : l.length < fuel) :
    ∃ H', forEach junk body fuel H l.head? = some H' ∧ P [] H' := by
  -- on the records that are left; the fuel goes down with them
  induction l generalizing H fuel with
  | nil =>
    obtain ⟨k, rfl⟩ : ∃ k, fuel = k + 1 := ⟨fuel - 1, by simp at hfuel; omega⟩
    exact ⟨H, rfl, hl⟩
  | cons a l ih =>
    obtain ⟨k, rfl⟩ : ∃ k, fuel = k + 1 := ⟨fuel - 1, by simp at hfuel; omega⟩
    obtain ⟨H₁, hrun, hcursor, hl₁⟩ := hbody a l H hl
    obtain ⟨H', hloop, hend⟩ := ih hl₁ (Nat.lt_of_succ_lt_succ hfuel)
    refine ⟨H', ?_, hend⟩
    simp only [List.head?_cons, forEach, hrun, hcursor]
    exact hloop

/-- The same for a loop over several lists. -/
theorem forEachIn_drains {P : List I → Heap I → Prop}
    (hloop : ∀ i is H, P (i :: is) H → ∃ H', forEach junk body fuel H (H.head i) = some H' ∧ P is H')
    {is : List I} (hl : P is H) : ∃ H', forEachIn junk body fuel is H = some H' ∧ P [] H' := by
  induction is generalizing H with
  | nil => exact ⟨H, rfl, hl⟩
  | cons i is ih =>
    obtain ⟨H₁, hrun, hl₁⟩ := hloop i is H hl
    obtain ⟨H', hrest, hend⟩ := ih hl₁
    refine ⟨H', ?_, hend⟩
    simp only [forEachIn, hrun]
    exact hrest

/-! ## Lists -/

/-- The pointer leads along `next` through the addresses of the list to null. -/
def Leads (next : ℕ → Option ℕ) : Option ℕ → List ℕ → Prop
  | p, [] => p = none
  | p, a :: l => p = some a ∧ Leads next (next a) l

section Leads

variable {next next' : ℕ → Option ℕ} {p : Option ℕ} {l l₁ l₂ : List ℕ} {a : ℕ}

theorem Leads.head?_eq (h : Leads next p l) : p = l.head? := by
  cases l with
  | nil => exact h
  | cons a l => exact h.1

theorem Leads.frame (h : Leads next p l) (hsame : ∀ c ∈ l, next' c = next c) : Leads next' p l := by
  induction l generalizing p with
  | nil => exact h
  | cons b l ih =>
    refine ⟨h.1, ?_⟩
    rw [hsame b List.mem_cons_self]
    exact ih h.2 fun c hc => hsame c (List.mem_cons_of_mem b hc)

theorem Leads.ne_of_not_mem (h : Leads next p l) (ha : a ∉ l) : p ≠ some a := by
  rw [h.head?_eq]
  exact fun hp => ha (List.mem_of_head? hp)

theorem Leads.next_ne (h : Leads next p l) (ha : a ∉ l) : ∀ c ∈ l, next c ≠ some a := by
  induction l generalizing p with
  | nil => exact fun c hc => absurd hc List.not_mem_nil
  | cons b l ih =>
    have hal : a ∉ l := fun hm => ha (List.mem_cons_of_mem b hm)
    intro c hc
    rcases List.mem_cons.mp hc with rfl | hc
    · exact h.2.ne_of_not_mem hal
    · exact ih h.2 hal c hc

/-- What comes after a record of the list. -/
theorem Leads.next_eq (h : Leads next p (l₁ ++ a :: l₂)) : Leads next (next a) l₂ := by
  induction l₁ generalizing p with
  | nil => exact h.2
  | cons b l ih => exact ih h.2

/-- A list without the record that all pointers skip. -/
theorem Leads.unlinked {H : Heap I} (h : Leads H.next p (l₁ ++ a :: l₂))
    (hd : (l₁ ++ a :: l₂).Nodup) (hnext : ∀ c ∈ l₁ ++ l₂, next' c = H.skip a (H.next c)) :
    Leads next' (H.skip a p) (l₁ ++ l₂) := by
  induction l₁ generalizing p with
  | nil =>
    -- the pointer led to the record itself and now leads to the rest
    obtain ⟨rfl, hl⟩ := h
    have ha : a ∉ l₂ := (List.nodup_cons.mp hd).1
    rw [Heap.skip, if_pos rfl]
    refine hl.frame fun c hc => ?_
    rw [hnext c hc, Heap.skip, if_neg (hl.next_ne ha c hc)]
  | cons b l ih =>
    obtain ⟨rfl, hl⟩ := h
    obtain ⟨hb, hd⟩ := List.nodup_cons.mp hd
    have hab : some b ≠ some a := by
      rintro ⟨⟩
      exact hb (by simp)
    rw [Heap.skip, if_neg hab]
    refine ⟨rfl, ?_⟩
    rw [hnext b List.mem_cons_self]
    exact ih hl hd fun c hc => hnext c (List.mem_cons_of_mem b hc)

/-- A list in which the skipped record does not occur. -/
theorem Leads.skip {H : Heap I} (h : Leads H.next p l) (ha : a ∉ l)
    (hnext : ∀ c ∈ l, next' c = H.skip a (H.next c)) : Leads next' (H.skip a p) l := by
  rw [Heap.skip, if_neg (h.ne_of_not_mem ha)]
  refine h.frame fun c hc => ?_
  rw [hnext c hc, Heap.skip, if_neg (h.next_ne ha c hc)]

end Leads

/-! ## Heaps with disjoint lists -/

/-- The heads lead through the given lists, which share no record and contain no freed one. -/
structure Heap.Holds (H : Heap I) (lists : I → List ℕ) : Prop where
  leads : ∀ i, Leads H.next (H.head i) (lists i)
  nodup : ∀ i, (lists i).Nodup
  apart : ∀ i j a, a ∈ lists i → a ∈ lists j → i = j
  live : ∀ i, ∀ a ∈ lists i, a ∉ H.freed

namespace Heap.Holds

variable {lists : I → List ℕ} {i : I} {a : ℕ} {l₁ l₂ : List ℕ}

theorem readNext (h : H.Holds lists) : (H.readNext junk a).2.Holds lists := by
  unfold Heap.readNext
  split
  · exact ⟨h.leads, h.nodup, h.apart, h.live⟩
  · exact h

theorem readNext_live (h : H.Holds lists) (ha : a ∈ lists i) : H.readNext junk a = (H.next a, H) :=
  if_neg (h.live i a ha)

variable [DecidableEq I]

theorem delete (h : H.Holds lists) (hl : lists i = l₁ ++ a :: l₂) :
    H.delete a = some ((H.unlink a).free a) ∧
      ((H.unlink a).free a).Holds (Function.update lists i (l₁ ++ l₂)) := by
  have hd := h.nodup i
  rw [hl] at hd
  have ha : a ∈ lists i := by simp [hl]
  have hsub : ∀ j, ∀ c ∈ Function.update lists i (l₁ ++ l₂) j, c ∈ lists j := by
    intro j c hc
    by_cases hj : j = i
    · subst hj
      rw [Function.update_self] at hc
      rw [hl]
      exact (List.Sublist.append_left (List.sublist_cons_self a l₂) l₁).subset hc
    · rw [Function.update_of_ne hj] at hc
      exact hc
  have hgone : ∀ j, a ∉ Function.update lists i (l₁ ++ l₂) j := by
    intro j hm
    obtain rfl := h.apart j i a (hsub j a hm) ha
    rw [Function.update_self] at hm
    rw [List.nodup_middle, List.nodup_cons] at hd
    exact hd.1 hm
  have hnext : ∀ j, ∀ c ∈ Function.update lists i (l₁ ++ l₂) j,
      ((H.unlink a).free a).next c = H.skip a (H.next c) := fun j c hc =>
    if_neg (h.live j c (hsub j c hc))
  refine ⟨if_neg (h.live i a ha), ?_, ?_, ?_, ?_⟩
  · -- the other lists share no record with this one, so their pointers stay
    intro j
    by_cases hj : j = i
    · subst hj
      have hn := hnext j
      have hlead := h.leads j
      rw [Function.update_self] at hn ⊢
      rw [hl] at hlead
      exact hlead.unlinked hd hn
    · have hn := hnext j
      have hg := hgone j
      rw [Function.update_of_ne hj] at hn hg ⊢
      exact (h.leads j).skip hg hn
  · intro j
    by_cases hj : j = i
    · subst hj
      rw [Function.update_self]
      exact hd.sublist (List.Sublist.append_left (List.sublist_cons_self a l₂) l₁)
    · rw [Function.update_of_ne hj]
      exact h.nodup j
  · exact fun j k c hc hc' => h.apart j k c (hsub j c hc) (hsub k c hc')
  · intro j c hc hfreed
    rcases List.mem_cons.mp hfreed with rfl | hfreed
    · exact hgone j hc
    · exact h.live j c (hsub j c hc) hfreed

omit [DecidableEq I] in
/-- A freed record whose memory keeps its contents still points to what came after it. -/
theorem readNext_deleted (h : H.Holds lists) (hl : lists i = l₁ ++ a :: l₂) (hk : Kept junk) :
    ((H.unlink a).free a).readNext junk a =
      (l₂.head?, { (H.unlink a).free a with stale := a :: H.stale }) := by
  have hlead := h.leads i
  have hd := h.nodup i
  rw [hl] at hlead hd
  have hafter := hlead.next_eq
  have ha : a ∉ l₂ := (List.nodup_cons.mp (List.nodup_append.mp hd).2.1).1
  have hlive : a ∉ H.freed := h.live i a (by simp [hl])
  have hsame : ((H.unlink a).free a).next a = l₂.head? := by
    show (if a ∈ H.freed then _ else H.skip a (H.next a)) = _
    rw [if_neg hlive, Heap.skip, if_neg (hafter.ne_of_not_mem ha), hafter.head?_eq]
  have hfreed : a ∈ ((H.unlink a).free a).freed := List.mem_cons_self
  rw [Heap.readNext, if_pos hfreed, hk, hsame]
  rfl

/-- A loop has deleted the first records of a list and has those of `l` left. -/
def Draining (H : Heap I) (lists : I → List ℕ) (i : I) (l : List ℕ) (H' : Heap I) : Prop :=
  ∃ done, lists i = done ++ l ∧ H'.Holds (Function.update lists i l) ∧
    H'.freed = done.reverse ++ H.freed ∧ H'.stale = done.reverse ++ H.stale

theorem Draining.next {l : List ℕ} (hd : Draining H lists i (a :: l) H') (hk : Kept junk) :
    ∃ H₂, H'.delete a = some H₂ ∧ (H₂.readNext junk a).1 = l.head? ∧
      Draining H lists i l (H₂.readNext junk a).2 := by
  obtain ⟨done, hdone, hholds, hfreed, hstale⟩ := hd
  have hl : Function.update lists i (a :: l) i = [] ++ a :: l := Function.update_self i _ _
  obtain ⟨hdel, hholds'⟩ := hholds.delete hl
  rw [Function.update_idem, List.nil_append] at hholds'
  have hread := hholds.readNext_deleted hl hk
  refine ⟨_, hdel, congrArg Prod.fst hread, done ++ [a], by simp [hdone], hholds'.readNext, ?_⟩
  rw [hread]
  simp [Heap.free, Heap.unlink, hfreed, hstale]

/-- Deleting a whole list, if freed memory keeps its contents or there is nothing to delete. -/
theorem drain (h : H.Holds lists) (i : I) (hk : lists i ≠ [] → Kept junk)
    (hfuel : (lists i).length < fuel) :
    ∃ H', forEach junk Heap.delete fuel H (H.head i) = some H' ∧
      H'.Holds (Function.update lists i []) ∧ H'.freed = (lists i).reverse ++ H.freed ∧
      H'.stale = (lists i).reverse ++ H.stale := by
  have hbody : ∀ a l H₁, Draining H lists i (a :: l) H₁ → ∃ H₂, H₁.delete a = some H₂ ∧
      (H₂.readNext junk a).1 = l.head? ∧ Draining H lists i l (H₂.readNext junk a).2 := by
    intro a l H₁ hd
    have hne : lists i ≠ [] := by
      obtain ⟨done, hdone, -⟩ := hd
      simp [hdone]
    exact Draining.next hd (hk hne)
  have hstart : Draining H lists i (lists i) H := by
    refine ⟨[], rfl, ?_, rfl, rfl⟩
    rw [Function.update_eq_self]
    exact h
  obtain ⟨H', hrun, done, hdone, hend⟩ := forEach_drains hbody hstart hfuel
  rw [List.append_nil] at hdone
  subst hdone
  rw [(h.leads i).head?_eq]
  exact ⟨H', hrun, hend⟩

/-- Deleting several lists. -/
theorem drainIn (h : H.Holds lists) (is : List I) (hk : ∀ i ∈ is, lists i ≠ [] → Kept junk)
    (hd : is.Nodup) (hfuel : ∀ i ∈ is, (lists i).length < fuel) :
    ∃ H', forEachIn junk Heap.delete fuel is H = some H' ∧
      H'.Holds (fun i => if i ∈ is then [] else lists i) ∧
      H'.freed = (is.flatMap lists).reverse ++ H.freed ∧
      H'.stale = (is.flatMap lists).reverse ++ H.stale := by
  induction is generalizing H lists with
  | nil => exact ⟨H, rfl, by simpa using h, rfl, rfl⟩
  | cons i is ih =>
    obtain ⟨hi, hd⟩ := List.nodup_cons.mp hd
    obtain ⟨H₁, hrun, hholds, hfreed, hstale⟩ := h.drain i (hk i List.mem_cons_self)
      (hfuel i List.mem_cons_self)
    have hrest : ∀ j ∈ is, Function.update lists i [] j = lists j := by
      intro j hj
      refine Function.update_of_ne ?_ _ _
      rintro rfl
      exact hi hj
    obtain ⟨H', hrun', hholds', hfreed', hstale'⟩ := ih hholds
      (fun j hj => by rw [hrest j hj]; exact hk j (List.mem_cons_of_mem i hj)) hd
      fun j hj => by rw [hrest j hj]; exact hfuel j (List.mem_cons_of_mem i hj)
    have hflat : is.flatMap (Function.update lists i []) = is.flatMap lists :=
      List.flatMap_congr hrest
    refine ⟨H', ?_, ?_, ?_, ?_⟩
    · simp only [forEachIn, hrun]
      exact hrun'
    · have heq : (fun j => if j ∈ is then [] else Function.update lists i [] j) =
          fun j => if j ∈ i :: is then [] else lists j := by
        funext j
        by_cases hj : j = i
        · subst hj
          simp
        · simp [hj]
      rwa [heq] at hholds'
    · rw [hfreed', hfreed, hflat]
      simp
    · rw [hstale', hstale, hflat]
      simp

end Heap.Holds

/-! ## What a loop keeps -/

section Keeps

variable {Q : Heap I → Prop}

theorem forEach_keeps (hbody : ∀ H a H', Q H → body H a = some H' → Q H')
    (hread : ∀ H a, Q H → Q (H.readNext junk a).2) {p : Option ℕ} (hq : Q H)
    (hrun : forEach junk body fuel H p = some H') : Q H' := by
  induction fuel generalizing H p with
  | zero => cases hrun
  | succ fuel ih =>
    cases p with
    | none =>
      cases hrun
      exact hq
    | some a =>
      simp only [forEach] at hrun
      split at hrun
      · cases hrun
      · next H₁ hstep => exact ih (hread H₁ a (hbody H a H₁ hq hstep)) hrun

theorem forEachIn_keeps (hbody : ∀ H a H', Q H → body H a = some H' → Q H')
    (hread : ∀ H a, Q H → Q (H.readNext junk a).2) {is : List I} (hq : Q H)
    (hrun : forEachIn junk body fuel is H = some H') : Q H' := by
  induction is generalizing H with
  | nil =>
    cases hrun
    exact hq
  | cons i is ih =>
    simp only [forEachIn] at hrun
    split at hrun
    · cases hrun
    · next H₁ hloop => exact ih (forEach_keeps hbody hread hq hloop) hrun

end Keeps

theorem freed_readNext (H : Heap I) (a : ℕ) : (H.readNext junk a).2.freed = H.freed := by
  unfold Heap.readNext
  split <;> rfl

theorem stale_readNext (H : Heap I) (a : ℕ) : H.stale <:+ (H.readNext junk a).2.stale := by
  unfold Heap.readNext
  split
  · exact List.suffix_cons a H.stale
  · exact List.suffix_rfl

theorem delete_cases {a : ℕ} (h : H.delete a = some H') :
    a ∉ H.freed ∧ H'.freed = a :: H.freed ∧ H'.stale = H.stale := by
  unfold Heap.delete at h
  split at h
  · cases h
  · next ha =>
    cases h
    exact ⟨ha, rfl, rfl⟩

/-! ## Loops that read nothing freed -/

/-- The body follows no freed record without entering it in the log. -/
def Logs (body : Heap I → ℕ → Option (Heap I)) : Prop :=
  ∀ H a H', body H a = some H' → H.stale <:+ H'.stale

theorem logs_delete : Logs (Heap.delete (I := I)) := by
  intro H a H' hrun
  exact ⟨[], (delete_cases hrun).2.2.symm⟩

theorem forEach_stale (hb : Logs body) {p : Option ℕ}
    (hrun : forEach junk body fuel H p = some H') : H.stale <:+ H'.stale :=
  forEach_keeps (Q := fun H₁ => H.stale <:+ H₁.stale)
    (fun _ _ _ hq hstep => hq.trans (hb _ _ _ hstep)) (fun _ _ hq => hq.trans (stale_readNext _ _))
    List.suffix_rfl hrun

theorem forEachIn_stale (hb : Logs body) {is : List I}
    (hrun : forEachIn junk body fuel is H = some H') : H.stale <:+ H'.stale :=
  forEachIn_keeps (Q := fun H₁ => H.stale <:+ H₁.stale)
    (fun _ _ _ hq hstep => hq.trans (hb _ _ _ hstep)) (fun _ _ hq => hq.trans (stale_readNext _ _))
    List.suffix_rfl hrun

/-- A loop that frees the record under its first cursor and reads nothing freed had none. -/
theorem forEach_quiet (hb : Logs body) {p : Option ℕ}
    (hfrees : ∀ a H₁, p = some a → body H a = some H₁ → a ∈ H₁.freed)
    (hrun : forEach junk body fuel H p = some H') (hs : H'.stale = []) : p = none ∧ H' = H := by
  cases fuel with
  | zero => cases hrun
  | succ fuel =>
    cases p with
    | none =>
      cases hrun
      exact ⟨rfl, rfl⟩
    | some a =>
      simp only [forEach] at hrun
      split at hrun
      · cases hrun
      · next H₁ hbody =>
        -- the cursor is freed and then followed, and nothing takes it out of the log again
        have hlog : a ∈ (H₁.readNext junk a).2.stale := by
          rw [Heap.readNext, if_pos (hfrees a H₁ rfl hbody)]
          exact List.mem_cons_self
        have hend := (forEach_stale hb hrun).subset hlog
        rw [hs] at hend
        cases hend

/-- A loop over lists without records. -/
theorem forEachIn_none {is : List I} (hnone : ∀ i ∈ is, H.head i = none) :
    forEachIn junk body (fuel + 1) is H = some H := by
  induction is with
  | nil => rfl
  | cons i is ih =>
    simp only [forEachIn, hnone i List.mem_cons_self, forEach]
    exact ih fun j hj => hnone j (List.mem_cons_of_mem i hj)

theorem untouched_of_quiet (hb : Logs body) {is : List I}
    (hfrees : ∀ i ∈ is, ∀ a H₁, H.head i = some a → body H a = some H₁ → a ∈ H₁.freed)
    (hrun : forEachIn junk body fuel is H = some H') (hs : H'.stale = []) :
    H' = H ∧ ∀ i ∈ is, H.head i = none := by
  induction is with
  | nil =>
    cases hrun
    exact ⟨rfl, fun i hi => absurd hi List.not_mem_nil⟩
  | cons i is ih =>
    simp only [forEachIn] at hrun
    split at hrun
    · cases hrun
    · next H₁ hloop =>
      have hs₁ : H₁.stale = [] := by
        have hsuffix := forEachIn_stale hb hrun
        rw [hs] at hsuffix
        exact List.suffix_nil.mp hsuffix
      obtain ⟨hnone, rfl⟩ := forEach_quiet hb (hfrees i List.mem_cons_self) hloop hs₁
      obtain ⟨hend, hrest⟩ := ih (fun j hj => hfrees j (List.mem_cons_of_mem i hj)) hrun
      refine ⟨hend, fun j hj => ?_⟩
      rcases List.mem_cons.mp hj with rfl | hj
      · exact hnone
      · exact hrest j hj

end Chains
