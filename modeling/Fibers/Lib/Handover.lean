import Mathlib.Logic.Function.Basic
import Mathlib.Data.Option.Basic

/-!
# Hand-over of try-locked resources

Any number of agents move among any number of resources, each agent standing on
at most one of them. To move, an agent takes the lock of the new resource by a
try-lock, writes its own tag on it, makes it its current resource, and only then
clears the tag of the old resource and releases its lock. In between it holds two
locks. An agent may also give up after the try-lock, which leaks the lock.

The steps of different agents interleave freely. `Inv` names what every phase of a
move holds, and `Step.inv` shows that each step keeps it.

## Main results

- `Inv.holds_unique` — a resource is held by at most one agent
- `Inv.tag_of_free` — a resource whose lock is free carries the free tag
- `Tight.step` — as long as nobody gives up, each taken lock has its holder
- `Inv.move`, `Inv.settle` — the same for several steps at once
-/

namespace Handover

/-- Where an agent is in its move. -/
inductive Phase (F : Type*)
  | resting
  | taken (new : F)
  | marked (new : F)
  | leaving (old : F)
  | cleared (old : F)

/-- The locks and tags of the resources and the position of every agent. -/
@[ext] structure State (T F : Type*) where
  locked : F → Bool
  tag : F → T
  current : T → Option F
  phase : T → Phase F

namespace State

variable {T F : Type*}

/-- Nobody stands anywhere and every lock is free. -/
def initial (free : T) : State T F where
  locked := fun _ => false
  tag := fun _ => free
  current := fun _ => none
  phase := fun _ => .resting

/-- The agent holds the lock of the resource: it stands on it, enters it or leaves it. -/
def Holds (s : State T F) (t : T) (f : F) : Prop :=
  s.current t = some f ∨ s.phase t = .taken f ∨ s.phase t = .marked f ∨
    s.phase t = .leaving f ∨ s.phase t = .cleared f

/-- The agent's tag is on the resource. -/
def Tags (s : State T F) (t : T) (f : F) : Prop :=
  s.current t = some f ∨ s.phase t = .marked f ∨ s.phase t = .leaving f

theorem Tags.holds {s : State T F} {t : T} {f : F} (h : s.Tags t f) : s.Holds t f := by
  rcases h with h | h | h
  · exact Or.inl h
  · exact Or.inr (Or.inr (Or.inl h))
  · exact Or.inr (Or.inr (Or.inr (Or.inl h)))

variable [DecidableEq T] [DecidableEq F]

/-- A successful try-lock. -/
def take (s : State T F) (t : T) (f : F) : State T F :=
  { s with locked := Function.update s.locked f true
           phase := Function.update s.phase t (.taken f) }

/-- Giving up after the try-lock: the lock stays taken. -/
def abandon (s : State T F) (t : T) : State T F :=
  { s with phase := Function.update s.phase t .resting }

/-- The tag is written on the new resource. -/
def mark (s : State T F) (t : T) (f : F) : State T F :=
  { s with tag := Function.update s.tag f t
           phase := Function.update s.phase t (.marked f) }

/-- The new resource becomes the current one; the old one, if any, is still to be left. -/
def enter (s : State T F) (t : T) (f : F) : State T F :=
  { s with current := Function.update s.current t (some f)
           phase := Function.update s.phase t
             (match s.current t with
              | none => .resting
              | some o => .leaving o) }

/-- The tag of the old resource is cleared. -/
def clear (free : T) (s : State T F) (t : T) (o : F) : State T F :=
  { s with tag := Function.update s.tag o free
           phase := Function.update s.phase t (.cleared o) }

/-- The lock of the old resource is released. -/
def release (s : State T F) (t : T) (o : F) : State T F :=
  { s with locked := Function.update s.locked o false
           phase := Function.update s.phase t .resting }

end State

variable {T F : Type*} {free : T}

/-- What holds between any two steps, whatever phase each agent is in. -/
structure Inv (free : T) (s : State T F) : Prop where
  locked_of_holds : ∀ t f, s.Holds t f → s.locked f = true
  holds_unique : ∀ t t' f, s.Holds t f → s.Holds t' f → t = t'
  apart : ∀ t f, s.current t = some f → s.phase t ≠ .taken f ∧ s.phase t ≠ .marked f ∧
    s.phase t ≠ .leaving f ∧ s.phase t ≠ .cleared f
  tag_of_tags : ∀ t f, s.Tags t f → s.tag f = t
  tag_free : ∀ f, (∀ t, ¬ s.Tags t f) → s.tag f = free

/-- Every taken lock has its holder: nobody gave up a lock without releasing it. -/
def Tight (s : State T F) : Prop := ∀ f, s.locked f = true → ∃ t, s.Holds t f

theorem Inv.initial : Inv free (State.initial free : State T F) where
  locked_of_holds := by simp [State.Holds, State.initial]
  holds_unique := by simp [State.Holds, State.initial]
  apart := by simp [State.initial]
  tag_of_tags := by simp [State.Tags, State.initial]
  tag_free := by simp [State.initial]

theorem Tight.initial : Tight (State.initial free : State T F) := by
  simp [Tight, State.initial]

/-- A free lock means a free tag. -/
theorem Inv.tag_of_free {s : State T F} (hi : Inv free s) {f : F} (h : s.locked f = false) :
    s.tag f = free := by
  refine hi.tag_free f (fun t ht => ?_)
  rw [hi.locked_of_holds t f ht.holds] at h
  cases h

/-- A resource just taken does not carry a tag yet. -/
theorem Inv.tag_of_taken {s : State T F} (hi : Inv free s) {t : T} {f : F}
    (h : s.phase t = .taken f) : s.tag f = free := by
  refine hi.tag_free f (fun t' ht => ?_)
  obtain rfl := hi.holds_unique t' t f ht.holds (Or.inr (Or.inl h))
  rcases ht with ht | ht | ht
  · exact (hi.apart _ _ ht).1 h
  · rw [h] at ht
    cases ht
  · rw [h] at ht
    cases ht

variable [DecidableEq T] [DecidableEq F]

/-- One step of one agent towards its new resource, or the return of the whole system to its
initial state. Giving up is not among them. -/
inductive Step (free : T) : State T F → State T F → Prop
  | take {s t f} : s.phase t = .resting → s.locked f = false → Step free s (s.take t f)
  | mark {s t f} : s.phase t = .taken f → Step free s (s.mark t f)
  | enter {s t f} : s.phase t = .marked f → Step free s (s.enter t f)
  | clear {s t o} : s.phase t = .leaving o → Step free s (s.clear free t o)
  | release {s t o} : s.phase t = .cleared o → Step free s (s.release t o)
  | reset {s} : Step free s (State.initial free)

section Steps

variable {s : State T F} {t : T} {f o : F}

/-! ## Who holds and who tags what after a step -/

theorem holds_take (hp : s.phase t = .resting) (t' : T) (f' : F) :
    (s.take t f).Holds t' f' ↔ s.Holds t' f' ∨ (t' = t ∧ f' = f) := by
  by_cases ht : t' = t
  · subst ht
    simp [State.Holds, State.take, hp, eq_comm]
  · simp [State.Holds, State.take, ht]

theorem tags_take (hp : s.phase t = .resting) (t' : T) (f' : F) :
    (s.take t f).Tags t' f' ↔ s.Tags t' f' := by
  by_cases ht : t' = t
  · subst ht
    simp [State.Tags, State.take, hp]
  · simp [State.Tags, State.take, ht]

omit [DecidableEq F] in
theorem holds_abandon {t' : T} {f' : F} (h : (s.abandon t).Holds t' f') : s.Holds t' f' := by
  by_cases ht : t' = t
  · subst ht
    simp only [State.Holds, State.abandon, Function.update_self, reduceCtorEq, or_false] at h
    exact Or.inl h
  · simpa [State.Holds, State.abandon, ht] using h

omit [DecidableEq F] in
theorem tags_abandon (hp : s.phase t = .taken f) (t' : T) (f' : F) :
    (s.abandon t).Tags t' f' ↔ s.Tags t' f' := by
  by_cases ht : t' = t
  · subst ht
    simp [State.Tags, State.abandon, hp]
  · simp [State.Tags, State.abandon, ht]

theorem holds_mark (hp : s.phase t = .taken f) (t' : T) (f' : F) :
    (s.mark t f).Holds t' f' ↔ s.Holds t' f' := by
  by_cases ht : t' = t
  · subst ht
    simp [State.Holds, State.mark, hp]
  · simp [State.Holds, State.mark, ht]

theorem tags_mark (hp : s.phase t = .taken f) (t' : T) (f' : F) :
    (s.mark t f).Tags t' f' ↔ s.Tags t' f' ∨ (t' = t ∧ f' = f) := by
  by_cases ht : t' = t
  · subst ht
    simp [State.Tags, State.mark, hp, eq_comm]
  · simp [State.Tags, State.mark, ht]

omit [DecidableEq F] in
theorem holds_enter (hp : s.phase t = .marked f) (t' : T) (f' : F) :
    (s.enter t f).Holds t' f' ↔ s.Holds t' f' := by
  by_cases ht : t' = t
  · subst ht
    cases hc : s.current t' <;> simp [State.Holds, State.enter, hp, hc, or_comm]
  · simp [State.Holds, State.enter, ht]

omit [DecidableEq F] in
theorem tags_enter (hp : s.phase t = .marked f) (t' : T) (f' : F) :
    (s.enter t f).Tags t' f' ↔ s.Tags t' f' := by
  by_cases ht : t' = t
  · subst ht
    cases hc : s.current t' <;> simp [State.Tags, State.enter, hp, hc, or_comm]
  · simp [State.Tags, State.enter, ht]

theorem holds_clear (hp : s.phase t = .leaving o) (t' : T) (f' : F) :
    (s.clear free t o).Holds t' f' ↔ s.Holds t' f' := by
  by_cases ht : t' = t
  · subst ht
    simp [State.Holds, State.clear, hp]
  · simp [State.Holds, State.clear, ht]

theorem tags_clear (hi : Inv free s) (hp : s.phase t = .leaving o) (t' : T) (f' : F) :
    (s.clear free t o).Tags t' f' ↔ s.Tags t' f' ∧ f' ≠ o := by
  by_cases ht : t' = t
  · subst ht
    have hc : ∀ x, s.current t' = some x → x ≠ o := by
      rintro x hx rfl
      exact (hi.apart _ _ hx).2.2.1 hp
    simp only [State.Tags, State.clear, Function.update_self, reduceCtorEq, or_false, hp,
      Phase.leaving.injEq, false_or]
    constructor
    · intro h
      exact ⟨Or.inl h, hc _ h⟩
    · rintro ⟨h | h, hne⟩
      · exact h
      · exact absurd h.symm hne
  · have hne : s.Tags t' f' → f' ≠ o := by
      rintro h rfl
      exact ht (hi.holds_unique t' t f' h.holds (by simp [State.Holds, hp]))
    have he : (s.clear free t o).Tags t' f' ↔ s.Tags t' f' := by
      simp [State.Tags, State.clear, ht]
    rw [he]
    exact ⟨fun h => ⟨h, hne h⟩, fun h => h.1⟩

theorem holds_release (hi : Inv free s) (hp : s.phase t = .cleared o) (t' : T) (f' : F) :
    (s.release t o).Holds t' f' ↔ s.Holds t' f' ∧ f' ≠ o := by
  by_cases ht : t' = t
  · subst ht
    have hc : ∀ x, s.current t' = some x → x ≠ o := by
      rintro x hx rfl
      exact (hi.apart _ _ hx).2.2.2 hp
    simp only [State.Holds, State.release, Function.update_self, reduceCtorEq, or_false, hp,
      Phase.cleared.injEq, false_or]
    constructor
    · intro h
      exact ⟨Or.inl h, hc _ h⟩
    · rintro ⟨h | h, hne⟩
      · exact h
      · exact absurd h.symm hne
  · have hne : s.Holds t' f' → f' ≠ o := by
      rintro h rfl
      exact ht (hi.holds_unique t' t f' h (by simp [State.Holds, hp]))
    have he : (s.release t o).Holds t' f' ↔ s.Holds t' f' := by
      simp [State.Holds, State.release, ht]
    rw [he]
    exact ⟨fun h => ⟨h, hne h⟩, fun h => h.1⟩

theorem tags_release (hp : s.phase t = .cleared o) (t' : T) (f' : F) :
    (s.release t o).Tags t' f' ↔ s.Tags t' f' := by
  by_cases ht : t' = t
  · subst ht
    simp [State.Tags, State.release, hp]
  · simp [State.Tags, State.release, ht]

/-! ## Every step keeps the invariant -/

theorem Inv.take (hi : Inv free s) (hp : s.phase t = .resting) (hf : s.locked f = false) :
    Inv free (s.take t f) := by
  have hn : ∀ t', ¬ s.Holds t' f := by
    intro t' h
    rw [hi.locked_of_holds t' f h] at hf
    cases hf
  constructor
  · intro t' f' h
    by_cases hf' : f' = f
    · simp [State.take, hf']
    · have h : s.Holds t' f' := ((holds_take hp t' f').mp h).resolve_right (fun h => hf' h.2)
      simpa [State.take, hf'] using hi.locked_of_holds t' f' h
  · intro t₁ t₂ f' h₁ h₂
    rcases (holds_take hp t₁ f').mp h₁ with ho₁ | ⟨ht₁, hf₁⟩
    · rcases (holds_take hp t₂ f').mp h₂ with ho₂ | ⟨_, hf₂⟩
      · exact hi.holds_unique _ _ _ ho₁ ho₂
      · exact absurd (hf₂ ▸ ho₁) (hn _)
    · rcases (holds_take hp t₂ f').mp h₂ with ho₂ | ⟨ht₂, _⟩
      · exact absurd (hf₁ ▸ ho₂) (hn _)
      · rw [ht₁, ht₂]
  · intro t' f' h
    by_cases ht : t' = t
    · subst ht
      have hne : f ≠ f' := by
        rintro rfl
        exact hn _ (Or.inl h)
      simp [State.take, hne]
    · simpa [State.take, ht] using hi.apart t' f' h
  · intro t' f' h
    exact hi.tag_of_tags t' f' ((tags_take hp t' f').mp h)
  · intro f' h
    exact hi.tag_free f' (fun t' ht => h t' ((tags_take hp t' f').mpr ht))

omit [DecidableEq F] in
theorem Inv.abandon (hi : Inv free s) (hp : s.phase t = .taken f) : Inv free (s.abandon t) := by
  constructor
  · intro t' f' h
    exact hi.locked_of_holds t' f' (holds_abandon h)
  · intro t₁ t₂ f' h₁ h₂
    exact hi.holds_unique t₁ t₂ f' (holds_abandon h₁) (holds_abandon h₂)
  · intro t' f' h
    by_cases ht : t' = t
    · subst ht
      simp [State.abandon]
    · simpa [State.abandon, ht] using hi.apart t' f' h
  · intro t' f' h
    exact hi.tag_of_tags t' f' ((tags_abandon hp t' f').mp h)
  · intro f' h
    exact hi.tag_free f' (fun t' ht => h t' ((tags_abandon hp t' f').mpr ht))

theorem Inv.mark (hi : Inv free s) (hp : s.phase t = .taken f) : Inv free (s.mark t f) := by
  constructor
  · intro t' f' h
    exact hi.locked_of_holds t' f' ((holds_mark hp t' f').mp h)
  · intro t₁ t₂ f' h₁ h₂
    exact hi.holds_unique t₁ t₂ f' ((holds_mark hp t₁ f').mp h₁) ((holds_mark hp t₂ f').mp h₂)
  · intro t' f' h
    by_cases ht : t' = t
    · subst ht
      have hne : f ≠ f' := by
        rintro rfl
        exact (hi.apart _ _ h).1 hp
      simp [State.mark, hne]
    · simpa [State.mark, ht] using hi.apart t' f' h
  · intro t' f' h
    by_cases hf : f' = f
    · subst hf
      have ht : t = t' := hi.holds_unique t t' f' (by simp [State.Holds, hp])
        ((holds_mark hp t' f').mp h.holds)
      simp [State.mark, ht]
    · have h : s.Tags t' f' := ((tags_mark hp t' f').mp h).resolve_right (fun h => hf h.2)
      simpa [State.mark, hf] using hi.tag_of_tags t' f' h
  · intro f' h
    have hf : f' ≠ f := by
      rintro rfl
      exact h t ((tags_mark hp t f').mpr (Or.inr ⟨rfl, rfl⟩))
    simpa [State.mark, hf] using
      hi.tag_free f' (fun t' ht => h t' ((tags_mark hp t' f').mpr (Or.inl ht)))

omit [DecidableEq F] in
theorem Inv.enter (hi : Inv free s) (hp : s.phase t = .marked f) : Inv free (s.enter t f) := by
  constructor
  · intro t' f' h
    exact hi.locked_of_holds t' f' ((holds_enter hp t' f').mp h)
  · intro t₁ t₂ f' h₁ h₂
    exact hi.holds_unique t₁ t₂ f' ((holds_enter hp t₁ f').mp h₁) ((holds_enter hp t₂ f').mp h₂)
  · intro t' f' h
    by_cases ht : t' = t
    · subst ht
      cases hc : s.current t' with
      | none => simp [State.enter, hc]
      | some o =>
        have hne : o ≠ f := by
          rintro rfl
          exact (hi.apart _ _ hc).2.1 hp
        obtain rfl : f = f' := by simpa [State.enter] using h
        simp [State.enter, hc, hne]
    · have h : s.current t' = some f' := by simpa [State.enter, ht] using h
      simpa [State.enter, ht] using hi.apart t' f' h
  · intro t' f' h
    exact hi.tag_of_tags t' f' ((tags_enter hp t' f').mp h)
  · intro f' h
    exact hi.tag_free f' (fun t' ht => h t' ((tags_enter hp t' f').mpr ht))

theorem Inv.clear (hi : Inv free s) (hp : s.phase t = .leaving o) :
    Inv free (s.clear free t o) := by
  constructor
  · intro t' f' h
    exact hi.locked_of_holds t' f' ((holds_clear hp t' f').mp h)
  · intro t₁ t₂ f' h₁ h₂
    exact hi.holds_unique t₁ t₂ f' ((holds_clear hp t₁ f').mp h₁) ((holds_clear hp t₂ f').mp h₂)
  · intro t' f' h
    by_cases ht : t' = t
    · subst ht
      have hne : o ≠ f' := by
        rintro rfl
        exact (hi.apart _ _ h).2.2.1 hp
      simp [State.clear, hne]
    · simpa [State.clear, ht] using hi.apart t' f' h
  · intro t' f' h
    obtain ⟨h, hne⟩ := (tags_clear hi hp t' f').mp h
    simpa [State.clear, hne] using hi.tag_of_tags t' f' h
  · intro f' h
    by_cases hf : f' = o
    · simp [State.clear, hf]
    · simpa [State.clear, hf] using
        hi.tag_free f' (fun t' ht => h t' ((tags_clear hi hp t' f').mpr ⟨ht, hf⟩))

theorem Inv.release (hi : Inv free s) (hp : s.phase t = .cleared o) : Inv free (s.release t o) := by
  constructor
  · intro t' f' h
    obtain ⟨h, hne⟩ := (holds_release hi hp t' f').mp h
    simpa [State.release, hne] using hi.locked_of_holds t' f' h
  · intro t₁ t₂ f' h₁ h₂
    exact hi.holds_unique t₁ t₂ f' ((holds_release hi hp t₁ f').mp h₁).1
      ((holds_release hi hp t₂ f').mp h₂).1
  · intro t' f' h
    by_cases ht : t' = t
    · subst ht
      simp [State.release]
    · simpa [State.release, ht] using hi.apart t' f' h
  · intro t' f' h
    exact hi.tag_of_tags t' f' ((tags_release hp t' f').mp h)
  · intro f' h
    exact hi.tag_free f' (fun t' ht => h t' ((tags_release hp t' f').mpr ht))

end Steps

/-- Each step of each agent keeps the invariant. -/
theorem Step.inv {s s' : State T F} (h : Step free s s') (hi : Inv free s) : Inv free s' := by
  cases h with
  | take hp hf => exact hi.take hp hf
  | mark hp => exact hi.mark hp
  | enter hp => exact hi.enter hp
  | clear hp => exact hi.clear hp
  | release hp => exact hi.release hp
  | reset => exact Inv.initial

/-- A step puts a tag on a resource only for an agent that marks it. -/
theorem Step.tags {s s' : State T F} (h : Step free s s') (hi : Inv free s) {t : T} {f : F}
    (ht : s'.Tags t f) : s.Tags t f ∨ s.phase t = .taken f ∧ s'.phase t = .marked f := by
  cases h with
  | take hp hf => exact Or.inl ((tags_take hp t f).mp ht)
  | @mark t' f' hp =>
    rcases (tags_mark hp t f).mp ht with ht | ⟨rfl, rfl⟩
    · exact Or.inl ht
    · exact Or.inr ⟨hp, by simp [State.mark]⟩
  | enter hp => exact Or.inl ((tags_enter hp t f).mp ht)
  | clear hp => exact Or.inl ((tags_clear hi hp t f).mp ht).1
  | release hp => exact Or.inl ((tags_release hp t f).mp ht)
  | reset => simp [State.Tags, State.initial] at ht

/-- A step locks a resource only for an agent that takes it. -/
theorem Step.locked {s s' : State T F} (h : Step free s s') {f : F} (hl : s.locked f = false) :
    s'.locked f = false ∨ ∃ t, s.phase t = .resting ∧ s'.phase t = .taken f := by
  cases h with
  | @take t f' hp _ =>
    by_cases hf : f = f'
    · exact Or.inr ⟨t, hp, by simp [State.take, hf]⟩
    · exact Or.inl (by simpa [State.take, hf] using hl)
  | mark _ => exact Or.inl hl
  | enter _ => exact Or.inl hl
  | clear _ => exact Or.inl hl
  | @release t o _ =>
    left
    by_cases hf : f = o
    · simp [State.release, hf]
    · simpa [State.release, hf] using hl
  | reset => exact Or.inl rfl

/-- As long as nobody gives up, each taken lock stays with its holder. -/
theorem Tight.step {s s' : State T F} (ht : Tight s) (hi : Inv free s) (h : Step free s s') :
    Tight s' := by
  intro f' hl
  cases h with
  | @take t f hp hf =>
    by_cases he : f' = f
    · exact ⟨t, (holds_take hp t f').mpr (Or.inr ⟨rfl, he⟩)⟩
    · obtain ⟨t', h⟩ := ht f' (by simpa [State.take, he] using hl)
      exact ⟨t', (holds_take hp t' f').mpr (Or.inl h)⟩
  | mark hp =>
    obtain ⟨t', h⟩ := ht f' hl
    exact ⟨t', (holds_mark hp t' f').mpr h⟩
  | enter hp =>
    obtain ⟨t', h⟩ := ht f' hl
    exact ⟨t', (holds_enter hp t' f').mpr h⟩
  | clear hp =>
    obtain ⟨t', h⟩ := ht f' hl
    exact ⟨t', (holds_clear hp t' f').mpr h⟩
  | @release t o hp =>
    have hne : f' ≠ o := by
      rintro rfl
      simp [State.release] at hl
    obtain ⟨t', h⟩ := ht f' (by simpa [State.release, hne] using hl)
    exact ⟨t', (holds_release hi hp t' f').mpr ⟨h, hne⟩⟩
  | reset => simp [State.initial] at hl

/-! ## Several steps at once -/

/-- An agent that stands on `o` and has taken `f` moves there. -/
def State.move (free : T) (s : State T F) (t : T) (o f : F) : State T F :=
  (((s.mark t f).enter t f).clear free t o).release t o

/-- An agent that stands nowhere takes `f` and moves there. -/
def State.settle (s : State T F) (t : T) (f : F) : State T F := ((s.take t f).mark t f).enter t f

section Moves

variable {s : State T F} {t : T} {o f : F}

@[simp] theorem locked_move : (s.move free t o f).locked = Function.update s.locked o false := rfl

@[simp] theorem current_move : (s.move free t o f).current = Function.update s.current t (some f) :=
  rfl

@[simp] theorem phase_move : (s.move free t o f).phase = Function.update s.phase t .resting := by
  simp [State.move, State.release, State.clear, State.enter, State.mark]

theorem Inv.move (hi : Inv free s) (ht : Tight s) (hp : s.phase t = .taken f)
    (hc : s.current t = some o) : Inv free (s.move free t o f) ∧ Tight (s.move free t o f) := by
  have hmark : Step free s (s.mark t f) := .mark hp
  have henter : Step free (s.mark t f) ((s.mark t f).enter t f) := .enter (by simp [State.mark])
  have hclear : Step free ((s.mark t f).enter t f) (((s.mark t f).enter t f).clear free t o) :=
    .clear (by simp [State.enter, State.mark, hc])
  have hrelease : Step free (((s.mark t f).enter t f).clear free t o) (s.move free t o f) :=
    .release (by simp [State.clear])
  have hi₁ := hmark.inv hi
  have hi₂ := henter.inv hi₁
  have hi₃ := hclear.inv hi₂
  exact ⟨hrelease.inv hi₃,
    (((ht.step hi hmark).step hi₁ henter).step hi₂ hclear).step hi₃ hrelease⟩

@[simp] theorem locked_settle : (s.settle t f).locked = Function.update s.locked f true := rfl

@[simp] theorem current_settle : (s.settle t f).current = Function.update s.current t (some f) := rfl

theorem phase_settle (hc : s.current t = none) :
    (s.settle t f).phase = Function.update s.phase t .resting := by
  simp [State.settle, State.enter, State.mark, State.take, hc]

theorem Inv.settle (hi : Inv free s) (ht : Tight s) (hp : s.phase t = .resting)
    (hf : s.locked f = false) : Inv free (s.settle t f) ∧ Tight (s.settle t f) := by
  have htake : Step free s (s.take t f) := .take hp hf
  have hmark : Step free (s.take t f) ((s.take t f).mark t f) := .mark (by simp [State.take])
  have henter : Step free ((s.take t f).mark t f) (s.settle t f) := .enter (by simp [State.mark])
  have hi₁ := htake.inv hi
  have hi₂ := hmark.inv hi₁
  exact ⟨henter.inv hi₂, ((ht.step hi htake).step hi₁ hmark).step hi₂ henter⟩

end Moves

end Handover
