import Fibers.Lib.Partial
import Fibers.Testbed.Cell

/-!
# The channels of a cell

`Channels` ties the bitmap of a cell to the list in the heap: one node for each set bit. `allocation`
finds a clear bit as long as there is one, and `deallocation` finds the node of a set one, at the
head of the list or behind another node; neither of them aborts, and both keep the list.

## Main results

- `Channels.clearBits_add_length` — the set bits are counted by the list
- `Channels.allocation`, `Channels.deallocation` — the two operations on a consistent list
-/

namespace Fibers.Testbed.Cell

open DoublyLinked (Heap Linked Node fst_ne_of_nodup)

variable {τ : Type}

/-! ## The list and the bitmap -/

def busy (s : LpState τ) (i : ℕ) : Bool := Bitmap.test s.channelState i

/-- The list has one node for each busy channel. -/
structure Channels (s : LpState τ) (H : Heap ℕ) (l : List (ℕ × ℕ)) : Prop where
  perCell : s.channelsPerCell = channelsPerCell
  linked : Linked H none s.channels l none
  nodup : (l.map Prod.fst).Nodup
  ids_nodup : (l.map Prod.snd).Nodup
  ids : ∀ i, i ∈ l.map Prod.snd ↔ i < channelsPerCell ∧ busy s i = true

theorem checkChannel_eq_zero_iff (s : LpState τ) (i : ℕ) :
    checkChannel s i = 0 ↔ busy s i = false :=
  Bitmap.check_eq_zero_iff (by decide) s.channelState i

theorem busy_setChannel (s : LpState τ) (i j : ℕ) :
    busy (setChannel s i) j = (decide (j = i) || busy s j) :=
  Bitmap.test_set (by decide) s.channelState i j

theorem busy_resetChannel (s : LpState τ) (i j : ℕ) :
    busy (resetChannel s i) j = (decide (j ≠ i) && busy s j) :=
  Bitmap.test_reset (by decide) s.channelState i j

/-- The clear bits of the channels. -/
def clearBits (s : LpState τ) : ℕ := Bitmap.clear s.channelState channelsPerCell

section Operations

variable {s : LpState τ} {H : Heap ℕ} {l : List (ℕ × ℕ)}

theorem Channels.clearBits_add_length (h : Channels s H l) :
    clearBits s + l.length = channelsPerCell := by
  have hcount := Bitmap.clear_add_length h.ids_nodup h.ids
  rwa [List.length_map] at hcount

theorem Channels.length_lt_loopBound (h : Channels s H l) : l.length < loopBound := by
  have hlen := h.clearBits_add_length
  have hbound : loopBound = channelsPerCell + 1 := rfl
  omega

theorem Channels.fadingRecheck (h : Channels s H l) : fadingRecheck H s = .ok () := by
  unfold Cell.fadingRecheck
  rw [h.linked.walk_eq h.length_lt_loopBound]
  rfl

/-- A cell with a clear bit finds a channel. -/
theorem Channels.exists_free (h : Channels s H l) (hfree : 0 < clearBits s) :
    ∃ index, (List.range s.channelsPerCell).find? (fun i => checkChannel s i = 0) = some index ∧
      index < channelsPerCell ∧ busy s index = false := by
  obtain ⟨i, hi, hclear⟩ := List.countP_pos_iff.mp hfree
  have hclear : busy s i = false := by simpa [busy] using hclear
  cases hfind : (List.range s.channelsPerCell).find? (fun i => checkChannel s i = 0) with
  | none =>
    have hmiss := List.find?_eq_none.mp hfind i (by rwa [h.perCell])
    exact absurd (decide_eq_true ((checkChannel_eq_zero_iff s i).mpr hclear)) hmiss
  | some index =>
    have hmem := List.mem_of_find?_eq_some hfind
    have hhit := List.find?_some hfind
    have hzero : checkChannel s index = 0 := of_decide_eq_true hhit
    rw [h.perCell, List.mem_range] at hmem
    exact ⟨index, rfl, hmem, (checkChannel_eq_zero_iff s index).mp hzero⟩

theorem Channels.allocation (h : Channels s H l) (hfree : 0 < clearBits s) {a : ℕ}
    (ha : H a = none) :
    ∃ H' index, allocation H s a =
        .ok (H', { setChannel s index with channels := some a }, index) ∧
      Channels { setChannel s index with channels := some a } H' ((a, index) :: l) := by
  obtain ⟨index, hfind, hindex, hclear⟩ := h.exists_free hfree
  obtain ⟨H', hset, hbehind, hlinked⟩ := h.linked.push h.nodup ha index
  have hnew : index ∉ l.map Prod.snd := fun hm => by
    rw [((h.ids index).mp hm).2] at hclear
    cases hclear
  have hfresh : a ∉ l.map Prod.fst := by
    intro hm
    obtain ⟨y, hy, he⟩ := List.mem_map.mp hm
    exact h.linked.not_mem ha y hy he
  have hchannels : Channels { setChannel s index with channels := some a } H'
      ((a, index) :: l) := by
    refine ⟨h.perCell, hlinked, List.nodup_cons.mpr ⟨hfresh, h.nodup⟩,
      List.nodup_cons.mpr ⟨hnew, h.ids_nodup⟩, fun i => ?_⟩
    show i ∈ index :: l.map Prod.snd ↔ _ ∧ busy (setChannel s index) i = true
    rw [busy_setChannel, List.mem_cons, h.ids]
    by_cases hi : i = index
    · simp [hi, hindex]
    · simp [hi]
  refine ⟨H', index, ?_, hchannels⟩
  unfold Cell.allocation
  rw [hfind]
  refine bind_of_ok (congrArg orFault hset) ?_
  refine bind_of_ok (congrArg orFault (hbehind.walk_eq h.length_lt_loopBound)) ?_
  exact bind_of_ok hchannels.fadingRecheck rfl

/-- The list without the node of a channel. -/
theorem Channels.remove {y : ℕ × ℕ} {before after : List (ℕ × ℕ)} {H' : Heap ℕ} {p : Option ℕ}
    (h : Channels s H (before ++ y :: after)) (hlinked : Linked H' none p (before ++ after) none) :
    Channels (resetChannel { s with channels := p } y.2) H' (before ++ after) := by
  have hsub : (before ++ after).Sublist (before ++ y :: after) :=
    (List.sublist_cons_self y after).append_left before
  have hperm : ((before ++ y :: after).map Prod.snd).Perm
      (y.2 :: (before ++ after).map Prod.snd) := List.perm_middle.map Prod.snd
  have hnot := (List.nodup_cons.mp (hperm.nodup_iff.mp h.ids_nodup)).1
  have hids : ∀ i, i ∈ (before ++ after).map Prod.snd ↔
      i ≠ y.2 ∧ i ∈ (before ++ y :: after).map Prod.snd := by
    intro i
    rw [hperm.mem_iff, List.mem_cons]
    constructor
    · intro hi
      exact ⟨fun he => hnot (he ▸ hi), .inr hi⟩
    · rintro ⟨hne, hi⟩
      exact hi.resolve_left hne
  refine ⟨h.perCell, hlinked, h.nodup.sublist (hsub.map _), h.ids_nodup.sublist (hsub.map _),
    fun i => ?_⟩
  rw [hids, h.ids, busy_resetChannel]
  show _ ↔ _ ∧ (decide (i ≠ y.2) && busy s i) = true
  by_cases hi : i = y.2 <;> simp [hi]

theorem Channels.deallocation (h : Channels s H l) {ch : ℕ} (hch : ch ∈ l.map Prod.snd) :
    ∃ H' p before y after, l = before ++ y :: after ∧ y.2 = ch ∧
      deallocation H s ch = .ok (H', resetChannel { s with channels := p } ch) ∧
      Channels (resetChannel { s with channels := p } ch) H' (before ++ after) := by
  obtain ⟨y, hy, rfl⟩ := List.mem_map.mp hch
  have hsearch := h.linked.search_eq (fun id => decide ((id : ℤ) = (y.2 : ℕ)))
    h.length_lt_loopBound
  cases hfind : l.find? (fun z => decide ((z.2 : ℤ) = (y.2 : ℕ))) with
  | none =>
    have hmiss := List.find?_eq_none.mp hfind y hy
    simp at hmiss
  | some z =>
    rw [hfind] at hsearch
    have hhit := List.find?_some hfind
    have hz : z.2 = y.2 := by simpa using hhit
    obtain ⟨-, before, after, hl, -⟩ := List.find?_eq_some_iff_append.mp hfind
    subst hl
    obtain ⟨a, id⟩ := z
    obtain rfl : id = y.2 := hz
    obtain rfl | ⟨front, ⟨b, w⟩, rfl⟩ := List.eq_nil_or_concat' before
    · -- the first node
      obtain ⟨r, H', ha, hset, hlinked⟩ := h.linked.unlink_head h.nodup
      have hhead : s.channels = some a := h.linked.1
      have hremoved : Channels (resetChannel { s with channels := r } y.2)
          (Function.update H' a none) ([] ++ after) :=
        h.remove hlinked
      refine ⟨_, r, [], _, after, rfl, rfl, ?_, hremoved⟩
      unfold Cell.deallocation
      refine bind_of_ok (congrArg orFault hsearch) ?_
      refine bind_of_ok (congrArg orFault ha) ?_
      have hbranch : unlinkChannel H s a ⟨y.2, none, r⟩ = .ok (H', { s with channels := r }) := by
        rw [unlinkChannel, if_pos hhead]
        exact bind_of_ok (congrArg orFault hset) rfl
      refine bind_of_ok hbranch ?_
      exact bind_of_ok hremoved.fadingRecheck rfl
    · -- a node behind `b`
      have happ : ∀ t : List (ℕ × ℕ), front ++ [(b, w)] ++ t = front ++ (b, w) :: t := by simp
      have hnodup := h.nodup
      have hlinked := h.linked
      rw [happ] at hnodup hlinked
      obtain ⟨r, H₁, H₂, ha, hprev, hset, hlinked'⟩ := hlinked.unlink hnodup
      have hhead : s.channels ≠ some a := by
        intro hs
        rw [hs] at hlinked
        cases front with
        | nil =>
          exact fst_ne_of_nodup hnodup _ List.mem_cons_self (Option.some.inj hlinked.1)
        | cons z front =>
          exact fst_ne_of_nodup hnodup (a, y.2) (by simp) (Option.some.inj hlinked.1)
      rw [← happ] at hlinked'
      have hremoved := h.remove hlinked'
      refine ⟨_, s.channels, _, _, after, rfl, rfl, ?_, hremoved⟩
      unfold Cell.deallocation
      refine bind_of_ok (congrArg orFault hsearch) ?_
      refine bind_of_ok (congrArg orFault ha) ?_
      have hbranch : unlinkChannel H s a ⟨y.2, some b, r⟩ = .ok (H₂, s) := by
        rw [unlinkChannel, if_neg hhead]
        exact bind_of_ok (congrArg orFault hprev) (bind_of_ok (congrArg orFault hset) rfl)
      refine bind_of_ok hbranch ?_
      exact bind_of_ok hremoved.fadingRecheck rfl

end Operations

end Fibers.Testbed.Cell
