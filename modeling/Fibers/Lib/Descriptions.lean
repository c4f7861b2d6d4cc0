import Mathlib.Data.List.Basic

/-!
# Open file descriptions

An open makes a description with one reference, a dup adds a reference, and a child that is
forked gets a reference for each of its parent's. A close drops one, and the description is
released by the close that drops the last: no step after it gives the description back.

## Main definitions

- `Files` — the references that the descriptors of all processes are
- `Files.close` — dropping a reference, and whether it was the last

## Main results

- `Files.close_cases` — what a close drops
- `Files.isOpen_close` — a close ends one description at most, with its last reference
-/

/-- The processes so far, the number of descriptions so far, and a reference for each descriptor. -/
structure Files (π : Type*) where
  procs : List π
  opened : ℕ
  refs : List (π × ℕ)
  lt_opened : ∀ r ∈ refs, r.2 < opened

namespace Files

variable {π : Type*} (fs : Files π)

/-- A descriptor of the process refers to the description. -/
def Holds (p : π) (d : ℕ) : Prop := (p, d) ∈ fs.refs

/-- Some descriptor refers to the description. -/
def IsOpen (d : ℕ) : Prop := ∃ r ∈ fs.refs, r.2 = d

/-- The description was opened and has been released. -/
def Released (d : ℕ) : Prop := d < fs.opened ∧ ¬ fs.IsOpen d

/-- No process has a descriptor. -/
def init (procs : List π) : Files π := ⟨procs, 0, [], by simp⟩

section References

variable {fs} {fs' : Files π} {p : π} {d : ℕ}

theorem IsOpen.of_holds (h : fs.Holds p d) : fs.IsOpen d := ⟨(p, d), h, rfl⟩

theorem IsOpen.mono (hsub : fs.refs ⊆ fs'.refs) (h : fs.IsOpen d) : fs'.IsOpen d := by
  obtain ⟨r, hr, rfl⟩ := h
  exact ⟨r, hsub hr, rfl⟩

end References

variable [DecidableEq π]

instance : DecidablePred fs.IsOpen :=
  fun d => inferInstanceAs (Decidable (∃ r ∈ fs.refs, r.2 = d))

instance (p : π) : DecidablePred (fs.Holds p) :=
  fun d => inferInstanceAs (Decidable ((p, d) ∈ fs.refs))

/-! ## The operations -/

/-- `open`, with a new description. -/
def openNew (p : π) : Option (Files π) :=
  if p ∈ fs.procs then
    some { fs with
      opened := fs.opened + 1
      refs := (p, fs.opened) :: fs.refs
      lt_opened := by
        intro r hr
        rcases List.mem_cons.mp hr with rfl | hr
        · exact Nat.lt_succ_self _
        · exact Nat.lt_succ_of_lt (fs.lt_opened r hr) }
  else none

/-- `dup`. -/
def dup (p : π) (d : ℕ) : Option (Files π) :=
  if h : (p, d) ∈ fs.refs then
    some { fs with
      refs := (p, d) :: fs.refs
      lt_opened := List.forall_mem_cons.mpr ⟨fs.lt_opened _ h, fs.lt_opened⟩ }
  else none

/-- The references that a child inherits. -/
def inherited (p child : π) : List (π × ℕ) :=
  (fs.refs.filter (fun r => r.1 = p)).map (fun r => (child, r.2))

/-- `fork`. The child is a new process, and no number is used for two processes. -/
def fork (p child : π) : Option (Files π) :=
  if p ∈ fs.procs ∧ child ∉ fs.procs then
    some { fs with
      procs := child :: fs.procs
      refs := fs.inherited p child ++ fs.refs
      lt_opened := by
        intro r hr
        rcases List.mem_append.mp hr with hr | hr
        · obtain ⟨r', hr', rfl⟩ := List.mem_map.mp hr
          exact fs.lt_opened r' (List.mem_of_mem_filter hr')
        · exact fs.lt_opened r hr }
  else none

/-- Whether closing a descriptor of the process drops the last reference to the description. -/
def lastRef (p : π) (d : ℕ) : Bool := (fs.refs.erase (p, d)).all (fun r => r.2 ≠ d)

/-- `close`. -/
def close (p : π) (d : ℕ) : Option (Files π) :=
  if (p, d) ∈ fs.refs then
    some { fs with
      refs := fs.refs.erase (p, d)
      lt_opened := fun r hr => fs.lt_opened r (List.mem_of_mem_erase hr) }
  else none

/-! ## What they do to the references -/

variable {fs} {fs' : Files π} {p child : π} {d e : ℕ}

theorem refs_openNew (h : fs.openNew p = some fs') : fs.refs ⊆ fs'.refs := by
  unfold openNew at h
  split at h
  · cases h
    exact List.subset_cons_self _ _
  · cases h

theorem refs_dup (h : fs.dup p d = some fs') : fs.refs ⊆ fs'.refs := by
  unfold dup at h
  split at h
  · cases h
    exact List.subset_cons_self _ _
  · cases h

theorem refs_fork (h : fs.fork p child = some fs') : fs.refs ⊆ fs'.refs := by
  unfold fork at h
  split at h
  · cases h
    exact List.subset_append_right _ _
  · cases h

/-- A close drops one reference of its process. -/
theorem close_cases (h : fs.close p d = some fs') :
    fs.Holds p d ∧ fs'.refs = fs.refs.erase (p, d) := by
  unfold close at h
  split at h
  · next hd =>
    cases h
    exact ⟨hd, rfl⟩
  · cases h

theorem holds_of_close (h : fs.close p d = some fs') {q : π} (hq : fs'.Holds q e) :
    fs.Holds q e := by
  obtain ⟨_, hrefs⟩ := close_cases h
  unfold Holds at hq
  rw [hrefs] at hq
  exact List.mem_of_mem_erase hq

/-- The references to other descriptions stay. -/
theorem holds_close_of_ne (h : fs.close p d = some fs') {q : π} (hne : e ≠ d) :
    fs'.Holds q e ↔ fs.Holds q e := by
  obtain ⟨_, hrefs⟩ := close_cases h
  unfold Holds
  rw [hrefs]
  exact List.mem_erase_of_ne (by simp [hne])

/-- A close ends the description whose last reference it drops, and no other. -/
theorem isOpen_close (h : fs.close p d = some fs') :
    fs'.IsOpen e ↔ fs.IsOpen e ∧ ¬ (fs.lastRef p d = true ∧ e = d) := by
  obtain ⟨hd, hrefs⟩ := close_cases h
  constructor
  · rintro ⟨r, hr, rfl⟩
    refine ⟨⟨r, holds_of_close h hr, rfl⟩, ?_⟩
    rintro ⟨hlast, heq⟩
    rw [hrefs] at hr
    have := List.all_eq_true.mp hlast r hr
    simp [heq] at this
  · rintro ⟨⟨r, hr, rfl⟩, hn⟩
    by_cases hne : r.2 = d
    · have hother : fs.lastRef p d = false := by simpa [hne] using hn
      obtain ⟨r', hr', hr'd⟩ : ∃ r' ∈ fs'.refs, r'.2 = d := by
        simpa [lastRef, hrefs] using hother
      exact ⟨r', hr', hr'd.trans hne.symm⟩
    · exact ⟨r, (holds_close_of_ne h hne).mpr hr, rfl⟩

/-- After the close that drops the last reference, the process holds its other descriptions. -/
theorem holds_close_of_lastRef (h : fs.close p d = some fs') (hlast : fs.lastRef p d = true) {q : π} :
    fs'.Holds q e ↔ fs.Holds q e ∧ e ≠ d := by
  constructor
  · intro hq
    have hopen := (isOpen_close h).mp (.of_holds hq)
    exact ⟨holds_of_close h hq, fun he => hopen.2 ⟨hlast, he⟩⟩
  · rintro ⟨hq, hne⟩
    exact (holds_close_of_ne h hne).mpr hq

/-! ## No description is released twice -/

theorem released_of_lastRef (h : fs.close p d = some fs') (hlast : fs.lastRef p d = true) :
    fs'.Released d := by
  refine ⟨?_, fun ho => ((isOpen_close h).mp ho).2 ⟨hlast, rfl⟩⟩
  have hlt := fs.lt_opened _ (close_cases h).1
  unfold close at h
  split at h
  · cases h
    exact hlt
  · cases h

theorem released_openNew (h : fs.openNew p = some fs') (hd : fs.Released d) : fs'.Released d := by
  obtain ⟨hlt, hn⟩ := hd
  unfold openNew at h
  split at h
  · cases h
    refine ⟨Nat.lt_succ_of_lt hlt, ?_⟩
    rintro ⟨r, hr, rfl⟩
    rcases List.mem_cons.mp hr with rfl | hr
    · exact Nat.lt_irrefl _ hlt
    · exact hn ⟨r, hr, rfl⟩
  · cases h

theorem released_dup (h : fs.dup p e = some fs') (hd : fs.Released d) : fs'.Released d := by
  obtain ⟨hlt, hn⟩ := hd
  unfold dup at h
  split at h
  · next he =>
    cases h
    refine ⟨hlt, ?_⟩
    rintro ⟨r, hr, rfl⟩
    rcases List.mem_cons.mp hr with rfl | hr
    · exact hn ⟨_, he, rfl⟩
    · exact hn ⟨r, hr, rfl⟩
  · cases h

theorem released_fork (h : fs.fork p child = some fs') (hd : fs.Released d) : fs'.Released d := by
  obtain ⟨hlt, hn⟩ := hd
  unfold fork at h
  split at h
  · cases h
    refine ⟨hlt, ?_⟩
    rintro ⟨r, hr, rfl⟩
    rcases List.mem_append.mp hr with hr | hr
    · obtain ⟨r', hr', rfl⟩ := List.mem_map.mp hr
      exact hn ⟨r', List.mem_of_mem_filter hr', rfl⟩
    · exact hn ⟨r, hr, rfl⟩
  · cases h

theorem released_close (h : fs.close p e = some fs') (hd : fs.Released d) : fs'.Released d := by
  obtain ⟨hlt, hn⟩ := hd
  refine ⟨?_, fun ho => hn ((isOpen_close h).mp ho).1⟩
  unfold close at h
  split at h
  · cases h
    exact hlt
  · cases h

end Files
