import Mathlib.Data.Nat.Cast.Defs
import Mathlib.Logic.Function.Basic

/-!
# Counting moves without a lost update

Agents move among resources, and each resource counts the moves to it. An agent reads the
counter, writes it back incremented, makes the resource its current one and finishes its move,
in separate steps, while other agents do the same elsewhere. A lock that is not part of this
model lets one agent at a time use a resource.

The counter is then ahead of the finished moves by the one move that has been written and is
not finished, and the moves to a resource are ahead of the moves away from it by the agent that
stands on it.

## Main results

- `Step.inv` — every step keeps the two balances
- `Inv.count_eq`, `Inv.occupied_iff` — the balances when nobody moves
-/

namespace Tally

/-- How far an agent is with its move. -/
inductive Stage (F W : Type*)
  | resting
  | read (f : F) (n : W)
  | written (f : F)
  | entered (f : F)

/-- The counters, the position of every agent, and how many moves to and away from each resource
there were. -/
@[ext] structure State (T F W : Type*) where
  count : F → W
  current : T → Option F
  stage : T → Stage F W
  finished : F → ℕ
  left : F → ℕ

namespace State

variable {T F W : Type*}

/-- The agent stands on the resource or is about to. -/
def Uses (s : State T F W) (t : T) (f : F) : Prop :=
  s.current t = some f ∨ (∃ n, s.stage t = .read f n) ∨ s.stage t = .written f

/-- A move to the resource is in the counter and not finished. -/
def Counted (s : State T F W) (f : F) : Prop :=
  ∃ t, s.stage t = .written f ∨ s.stage t = .entered f

/-- A move to the resource has reached it and is not finished. -/
def Entered (s : State T F W) (f : F) : Prop := ∃ t, s.stage t = .entered f

/-- Somebody stands on the resource. -/
def Occupied (s : State T F W) (f : F) : Prop := ∃ t, s.current t = some f

variable [DecidableEq T] [DecidableEq F]

def readCount (s : State T F W) (t : T) (f : F) : State T F W :=
  { s with stage := Function.update s.stage t (.read f (s.count f)) }

def writeCount [AddMonoidWithOne W] (s : State T F W) (t : T) (f : F) (n : W) : State T F W :=
  { s with count := Function.update s.count f (n + 1)
           stage := Function.update s.stage t (.written f) }

/-- The agent leaves `o` for `f`. -/
def enter (s : State T F W) (t : T) (o f : F) : State T F W :=
  { s with current := Function.update s.current t (some f)
           stage := Function.update s.stage t (.entered f)
           left := Function.update s.left o (s.left o + 1) }

def finish (s : State T F W) (t : T) (f : F) : State T F W :=
  { s with stage := Function.update s.stage t .resting
           finished := Function.update s.finished f (s.finished f + 1) }

/-- A first move, from nowhere, in one step. -/
def appear [AddMonoidWithOne W] (s : State T F W) (t : T) (f : F) : State T F W :=
  { s with count := Function.update s.count f (s.count f + 1)
           current := Function.update s.current t (some f)
           finished := Function.update s.finished f (s.finished f + 1) }

end State

variable {T F W : Type*}

/-- One agent at a time uses a resource, and none moves to where it stands. -/
structure Exclusive (s : State T F W) : Prop where
  unique : ∀ t t' f, s.Uses t f → s.Uses t' f → t = t'
  apart : ∀ t f, s.current t = some f → (∀ n, s.stage t ≠ .read f n) ∧ s.stage t ≠ .written f

open Classical in
/-- The two balances, and what they rest on. -/
structure Inv [AddMonoidWithOne W] (s : State T F W) : Prop where
  read : ∀ t f n, s.stage t = .read f n → s.count f = n
  entered : ∀ t f, s.stage t = .entered f → s.current t = some f
  counted : ∀ f, s.count f = (s.finished f + (if s.Counted f then 1 else 0) : ℕ)
  balanced : ∀ f, s.finished f + (if s.Entered f then 1 else 0) =
    s.left f + if s.Occupied f then 1 else 0

section Steps

variable [DecidableEq T] [DecidableEq F] [AddMonoidWithOne W]

inductive Step : State T F W → State T F W → Prop
  | read {s t f} : s.stage t = .resting → Step s (s.readCount t f)
  | write {s t f n} : s.stage t = .read f n → Step s (s.writeCount t f n)
  | enter {s t o f} : s.stage t = .written f → s.current t = some o → Step s (s.enter t o f)
  | finish {s t f} : s.stage t = .entered f → Step s (s.finish t f)
  | appear {s t f} : s.stage t = .resting → s.current t = none → (∀ q, ¬ s.Uses q f) →
      Step s (s.appear t f)

omit [DecidableEq F] [AddMonoidWithOne W] in
/-- An agent with a property is a given one or another. -/
theorem exists_iff_self_or {β : Type*} {P : β → Prop} (g : T → β) (t : T) :
    (∃ q, P (g q)) ↔ P (g t) ∨ ∃ q, q ≠ t ∧ P (g q) := by
  constructor
  · rintro ⟨q, hq⟩
    by_cases hqt : q = t
    · exact .inl (hqt ▸ hq)
    · exact .inr ⟨q, hqt, hq⟩
  · rintro (hp | ⟨q, -, hq⟩)
    · exact ⟨t, hp⟩
    · exact ⟨q, hq⟩

omit [DecidableEq F] [AddMonoidWithOne W] in
/-- Whether an agent has a property, after one of them has changed. -/
theorem exists_update_iff {β : Type*} {P : β → Prop} (g : T → β) (t : T) (x : β) :
    (∃ q, P (Function.update g t x q)) ↔ P x ∨ ∃ q, q ≠ t ∧ P (g q) := by
  rw [exists_iff_self_or (Function.update g t x) t, Function.update_self]
  refine or_congr_right (exists_congr fun q => and_congr_right fun hq => ?_)
  rw [Function.update_of_ne hq]

omit [DecidableEq F] [AddMonoidWithOne W] in
/-- A change that makes no difference to the property. -/
theorem exists_update_iff_of_iff {β : Type*} {P : β → Prop} (g : T → β) (t : T) (x : β)
    (hx : P x ↔ P (g t)) : (∃ q, P (Function.update g t x q)) ↔ ∃ q, P (g q) := by
  rw [exists_update_iff, exists_iff_self_or g t, hx]

variable {s : State T F W} {t : T} {f o : F} {n : W}

/-! ## Who has written, entered and stands where after a step -/

section Stages

variable {x : Stage F W} {f' : F}

omit [DecidableEq F] [AddMonoidWithOne W] in
/-- The stage of one agent changes, which matters to the resources of the two stages only. -/
theorem counted_iff_of_stage {s' : State T F W} (hs : s'.stage = Function.update s.stage t x)
    (hx : (x = .written f' ∨ x = .entered f') ↔ (s.stage t = .written f' ∨ s.stage t = .entered f')) :
    s'.Counted f' ↔ s.Counted f' := by
  unfold State.Counted
  rw [hs]
  exact exists_update_iff_of_iff (P := fun st : Stage F W => st = .written f' ∨ st = .entered f') _ _ _ hx

omit [DecidableEq F] [AddMonoidWithOne W] in
theorem entered_iff_of_stage {s' : State T F W} (hs : s'.stage = Function.update s.stage t x)
    (hx : x = .entered f' ↔ s.stage t = .entered f') : s'.Entered f' ↔ s.Entered f' := by
  unfold State.Entered
  rw [hs]
  exact exists_update_iff_of_iff (P := fun st : Stage F W => st = .entered f') _ _ _ hx

omit [DecidableEq F] [AddMonoidWithOne W] in
theorem occupied_iff_of_current {s' : State T F W} {c : Option F}
    (hs : s'.current = Function.update s.current t c) (hc : c = some f' ↔ s.current t = some f') :
    s'.Occupied f' ↔ s.Occupied f' := by
  unfold State.Occupied
  rw [hs]
  exact exists_update_iff_of_iff (P := fun c => c = some f') _ _ _ hc

end Stages

omit [DecidableEq T] [DecidableEq F] [AddMonoidWithOne W] in
theorem Exclusive.not_occupied_of_written (he : Exclusive s) (hs : s.stage t = .written f) :
    ¬ s.Occupied f := by
  rintro ⟨q, hq⟩
  obtain rfl := he.unique q t f (.inl hq) (.inr (.inr hs))
  exact (he.apart q f hq).2 hs

namespace Inv

section Exclusion

omit [DecidableEq T] [DecidableEq F]

/-- Whoever has a move to the resource in the counter uses it. -/
theorem uses_of_counted (h : Inv s) (hs : s.stage t = .written f ∨ s.stage t = .entered f) :
    s.Uses t f := by
  rcases hs with hs | hs
  · exact .inr (.inr hs)
  · exact .inl (h.entered t f hs)

/-- Before the counter is written no other move to the resource is in it. -/
theorem not_counted_of_read (h : Inv s) (he : Exclusive s) (hs : s.stage t = .read f n) :
    ¬ s.Counted f := by
  rintro ⟨q, hq⟩
  obtain rfl := he.unique q t f (h.uses_of_counted hq) (.inr (.inl ⟨n, hs⟩))
  rw [hs] at hq
  rcases hq with hq | hq <;> cases hq

theorem not_entered_of_not_occupied (h : Inv s) (hf : ¬ s.Occupied f) : ¬ s.Entered f := by
  rintro ⟨q, hq⟩
  exact hf ⟨q, h.entered q f hq⟩

end Exclusion

/-! ## Every step keeps the balances -/

open scoped Classical

omit [DecidableEq F] [AddMonoidWithOne W] in
/-- A stage other than the new one of an agent is that of another agent. -/
theorem other_of_stage {q : T} {x y : Stage F W} (hq : Function.update s.stage t y q = x)
    (hne : y ≠ x) : q ≠ t ∧ s.stage q = x := by
  have hqt : q ≠ t := by
    rintro rfl
    rw [Function.update_self] at hq
    exact hne hq
  rw [Function.update_of_ne hqt] at hq
  exact ⟨hqt, hq⟩

omit [DecidableEq F] in
theorem readCount (h : Inv s) (hs : s.stage t = .resting) : Inv (s.readCount t f) := by
  constructor
  · intro q f' m hq
    by_cases hqt : q = t
    · subst hqt
      simp only [State.readCount, Function.update_self, Stage.read.injEq] at hq
      obtain ⟨rfl, rfl⟩ := hq
      rfl
    · simp only [State.readCount, Function.update_of_ne hqt] at hq
      exact h.read q f' m hq
  · intro q f' hq
    exact h.entered q f' (other_of_stage hq (by simp)).2
  · intro f'
    have hc : (s.readCount t f).Counted f' ↔ s.Counted f' :=
      counted_iff_of_stage rfl (by simp [hs])
    simp only [hc]
    exact h.counted f'
  · intro f'
    have hc : (s.readCount t f).Entered f' ↔ s.Entered f' :=
      entered_iff_of_stage rfl (by simp [hs])
    simp only [hc]
    exact h.balanced f'

theorem writeCount (h : Inv s) (he : Exclusive s) (hs : s.stage t = .read f n) :
    Inv (s.writeCount t f n) := by
  have hstage : (s.writeCount t f n).stage = Function.update s.stage t (.written f) := rfl
  constructor
  · intro q f' m hq
    obtain ⟨hqt, hold⟩ := other_of_stage hq (by simp)
    -- nobody else has read the counter that is written
    have hne : f' ≠ f := by
      rintro rfl
      exact hqt (he.unique q t f' (.inr (.inl ⟨m, hold⟩)) (.inr (.inl ⟨n, hs⟩)))
    show Function.update s.count f (n + 1) f' = m
    rw [Function.update_of_ne hne]
    exact h.read q f' m hold
  · intro q f' hq
    exact h.entered q f' (other_of_stage hq (by simp)).2
  · intro f'
    by_cases hf : f' = f
    · subst hf
      have hbefore := h.counted f'
      rw [if_neg (h.not_counted_of_read he hs), h.read t f' n hs] at hbefore
      have hafter : (s.writeCount t f' n).Counted f' := ⟨t, .inl (by simp [hstage])⟩
      show Function.update s.count f' (n + 1) f' = _
      rw [Function.update_self, if_pos hafter, hbefore]
      exact (Nat.cast_succ _).symm
    · have hc : (s.writeCount t f n).Counted f' ↔ s.Counted f' :=
        counted_iff_of_stage rfl (by simp [hs, Ne.symm hf])
      show Function.update s.count f (n + 1) f' = _
      rw [Function.update_of_ne hf]
      simp only [hc]
      exact h.counted f'
  · intro f'
    have hc : (s.writeCount t f n).Entered f' ↔ s.Entered f' :=
      entered_iff_of_stage rfl (by simp [hs])
    simp only [hc]
    exact h.balanced f'

theorem enter (h : Inv s) (he : Exclusive s) (hs : s.stage t = .written f)
    (ho : s.current t = some o) : Inv (s.enter t o f) := by
  have hstage : (s.enter t o f).stage = Function.update s.stage t (.entered f) := rfl
  have hcurrent : (s.enter t o f).current = Function.update s.current t (some f) := rfl
  have hleft : (s.enter t o f).left = Function.update s.left o (s.left o + 1) := rfl
  have hof : o ≠ f := by
    rintro rfl
    exact (he.apart t o ho).2 hs
  constructor
  · intro q f' m hq
    exact h.read q f' m (other_of_stage hq (by simp)).2
  · intro q f' hq
    by_cases hqt : q = t
    · subst hqt
      rw [hstage, Function.update_self] at hq
      cases hq
      simp [hcurrent]
    · rw [hstage, Function.update_of_ne hqt] at hq
      rw [hcurrent, Function.update_of_ne hqt]
      exact h.entered q f' hq
  · intro f'
    have hc : (s.enter t o f).Counted f' ↔ s.Counted f' :=
      counted_iff_of_stage rfl (by simp [hs])
    simp only [hc]
    exact h.counted f'
  · intro f'
    have hbefore := h.balanced f'
    show s.finished f' + _ = _
    by_cases hf : f' = f
    · -- the resource was free and is now entered and occupied
      subst hf
      have hfree := he.not_occupied_of_written hs
      rw [if_neg (h.not_entered_of_not_occupied hfree), if_neg hfree] at hbefore
      have hentered : (s.enter t o f').Entered f' := ⟨t, by simp [hstage]⟩
      have hocc : (s.enter t o f').Occupied f' := ⟨t, by simp [hcurrent]⟩
      rw [if_pos hentered, if_pos hocc, hleft, Function.update_of_ne (Ne.symm hof)]
      omega
    · have hentered : (s.enter t o f).Entered f' ↔ s.Entered f' :=
        entered_iff_of_stage rfl (by simp [hs, Ne.symm hf])
      simp only [hentered]
      by_cases hfo : f' = o
      · -- the resource was occupied by this agent and no other
        subst hfo
        have hfree : ¬ (s.enter t f' f).Occupied f' := by
          rintro ⟨q, hq⟩
          by_cases hqt : q = t
          · subst hqt
            rw [hcurrent, Function.update_self] at hq
            exact hof (Option.some.inj hq).symm
          · rw [hcurrent, Function.update_of_ne hqt] at hq
            exact hqt (he.unique q t f' (.inl hq) (.inl ho))
        have hocc : s.Occupied f' := ⟨t, ho⟩
        rw [if_pos hocc] at hbefore
        rw [if_neg hfree, hleft, Function.update_self]
        omega
      · have hocc : (s.enter t o f).Occupied f' ↔ s.Occupied f' :=
          occupied_iff_of_current rfl (by simp [ho, Ne.symm hf, Ne.symm hfo])
        rw [hleft, Function.update_of_ne hfo]
        simp only [hocc]
        exact hbefore

theorem finish (h : Inv s) (he : Exclusive s) (hs : s.stage t = .entered f) :
    Inv (s.finish t f) := by
  have hstage : (s.finish t f).stage = Function.update s.stage t .resting := rfl
  have hfinished : (s.finish t f).finished = Function.update s.finished f (s.finished f + 1) := rfl
  have hother : ∀ q x, (s.finish t f).stage q = x → x ≠ .resting → q ≠ t ∧ s.stage q = x :=
    fun q x hq hx => other_of_stage hq (Ne.symm hx)
  -- the agent was the only one with a move to its resource in the counter
  have hcounted : ¬ (s.finish t f).Counted f := by
    rintro ⟨q, hq⟩
    have hq : q ≠ t ∧ (s.stage q = .written f ∨ s.stage q = .entered f) := by
      rcases hq with hq | hq
      · exact ⟨(hother q _ hq (by simp)).1, .inl (hother q _ hq (by simp)).2⟩
      · exact ⟨(hother q _ hq (by simp)).1, .inr (hother q _ hq (by simp)).2⟩
    exact hq.1 (he.unique q t f (h.uses_of_counted hq.2) (h.uses_of_counted (.inr hs)))
  have hentered : ¬ (s.finish t f).Entered f := by
    rintro ⟨q, hq⟩
    exact hcounted ⟨q, .inr hq⟩
  constructor
  · intro q f' m hq
    exact h.read q f' m (hother q _ hq (by simp)).2
  · intro q f' hq
    exact h.entered q f' (hother q _ hq (by simp)).2
  · intro f'
    have hbefore := h.counted f'
    show s.count f' = _
    by_cases hf : f' = f
    · subst hf
      have hin : s.Counted f' := ⟨t, .inr hs⟩
      rw [if_pos hin] at hbefore
      rw [if_neg hcounted, hfinished, Function.update_self]
      exact hbefore
    · have hc : (s.finish t f).Counted f' ↔ s.Counted f' :=
        counted_iff_of_stage rfl (by simp [hs, Ne.symm hf])
      rw [hfinished, Function.update_of_ne hf]
      simp only [hc]
      exact hbefore
  · intro f'
    have hbefore := h.balanced f'
    have hocc : (s.finish t f).Occupied f' ↔ s.Occupied f' := Iff.rfl
    simp only [hocc]
    show _ = s.left f' + _
    by_cases hf : f' = f
    · subst hf
      have hin : s.Entered f' := ⟨t, hs⟩
      rw [if_pos hin] at hbefore
      rw [if_neg hentered, hfinished, Function.update_self]
      exact hbefore
    · have hc : (s.finish t f).Entered f' ↔ s.Entered f' :=
        entered_iff_of_stage rfl (by simp [hs, Ne.symm hf])
      rw [hfinished, Function.update_of_ne hf]
      simp only [hc]
      exact hbefore

theorem appear (h : Inv s) (hc : s.current t = none) (hfree : ∀ q, ¬ s.Uses q f) :
    Inv (s.appear t f) := by
  have hcount : (s.appear t f).count = Function.update s.count f (s.count f + 1) := rfl
  have hcurrent : (s.appear t f).current = Function.update s.current t (some f) := rfl
  have hfinished : (s.appear t f).finished = Function.update s.finished f (s.finished f + 1) := rfl
  have hcounted : ¬ s.Counted f := by
    rintro ⟨q, hq⟩
    exact hfree q (h.uses_of_counted hq)
  have hocc : ¬ s.Occupied f := by
    rintro ⟨q, hq⟩
    exact hfree q (.inl hq)
  have hcounted' : ∀ f', (s.appear t f).Counted f' ↔ s.Counted f' := fun _ => Iff.rfl
  have hentered' : ∀ f', (s.appear t f).Entered f' ↔ s.Entered f' := fun _ => Iff.rfl
  constructor
  · intro q f' m hq
    have hne : f' ≠ f := by
      rintro rfl
      exact hfree q (.inr (.inl ⟨m, hq⟩))
    rw [hcount, Function.update_of_ne hne]
    exact h.read q f' m hq
  · intro q f' hq
    have hold : s.current q = some f' := h.entered q f' hq
    have hqt : q ≠ t := by
      rintro rfl
      rw [hc] at hold
      cases hold
    rw [hcurrent, Function.update_of_ne hqt]
    exact hold
  · intro f'
    have hbefore := h.counted f'
    simp only [hcounted']
    by_cases hf : f' = f
    · subst hf
      rw [if_neg hcounted] at hbefore ⊢
      rw [hcount, hfinished, Function.update_self, Function.update_self, hbefore]
      exact (Nat.cast_succ _).symm
    · rw [hcount, hfinished, Function.update_of_ne hf, Function.update_of_ne hf]
      exact hbefore
  · intro f'
    have hbefore := h.balanced f'
    simp only [hentered']
    show _ = s.left f' + _
    by_cases hf : f' = f
    · subst hf
      have hin : (s.appear t f').Occupied f' := ⟨t, by simp [hcurrent]⟩
      rw [if_neg (h.not_entered_of_not_occupied hocc), if_neg hocc] at hbefore
      rw [if_neg (h.not_entered_of_not_occupied hocc), if_pos hin, hfinished, Function.update_self]
      omega
    · have ho : (s.appear t f).Occupied f' ↔ s.Occupied f' :=
        occupied_iff_of_current rfl (by simp [hc, Ne.symm hf])
      rw [hfinished, Function.update_of_ne hf]
      simp only [ho]
      exact hbefore

end Inv

theorem Step.inv {s' : State T F W} (hs : Step s s') (he : Exclusive s) (h : Inv s) : Inv s' := by
  cases hs with
  | read hs => exact h.readCount hs
  | write hs => exact h.writeCount he hs
  | enter hs ho => exact h.enter he hs ho
  | finish hs => exact h.finish he hs
  | appear _ hc hfree => exact h.appear hc hfree

end Steps

/-! ## Numbers of moves -/

/-- One more for the resources with the property. -/
def bump (n : F → ℕ) (P : F → Prop) [DecidablePred P] (f : F) : ℕ := n f + if P f then 1 else 0

theorem bump_of_none (n : F → ℕ) {P : F → Prop} [DecidablePred P] (h : ∀ f, ¬ P f) :
    bump n P = n := by
  funext f
  rw [bump, if_neg (h f)]
  rfl

theorem bump_of_iff [DecidableEq F] (n : F → ℕ) {P : F → Prop} [DecidablePred P] {f : F}
    (h : ∀ f', P f' ↔ f' = f) : bump n P = Function.update n f (n f + 1) := by
  funext f'
  by_cases hf : f' = f
  · subst hf
    rw [bump, if_pos ((h f').mpr rfl), Function.update_self]
  · rw [bump, if_neg (fun hp => hf ((h f').mp hp)), Function.update_of_ne hf]
    rfl

/-! ## The balances when nobody moves -/

namespace Inv

variable {s : State T F W}

theorem not_entered_of_resting (hs : ∀ t, s.stage t = .resting) (f : F) : ¬ s.Entered f := by
  rintro ⟨t, ht⟩
  rw [hs t] at ht
  cases ht

variable [AddMonoidWithOne W]

/-- Nobody has moved yet. -/
theorem initial (hc : ∀ f, s.count f = 0) (ho : ∀ t, s.current t = none)
    (hs : ∀ t, s.stage t = .resting) (hf : ∀ f, s.finished f = 0) (hl : ∀ f, s.left f = 0) :
    Inv s := by
  have hcounted : ∀ f, ¬ s.Counted f := by
    rintro f ⟨t, ht⟩
    rw [hs t] at ht
    rcases ht with ht | ht <;> cases ht
  have hocc : ∀ f, ¬ s.Occupied f := by
    rintro f ⟨t, ht⟩
    rw [ho t] at ht
    cases ht
  constructor
  · intro t f n ht
    rw [hs t] at ht
    cases ht
  · intro t f ht
    rw [hs t] at ht
    cases ht
  · intro f
    rw [if_neg (hcounted f), hc f, hf f]
    exact Nat.cast_zero.symm
  · intro f
    rw [if_neg (not_entered_of_resting hs f), if_neg (hocc f), hf f, hl f]

/-- Every finished move is in the counter, and no other. -/
theorem count_eq (h : Inv s) (hs : ∀ t, s.stage t = .resting) (f : F) :
    s.count f = (s.finished f : ℕ) := by
  have hno : ¬ s.Counted f := by
    rintro ⟨t, ht⟩
    rw [hs t] at ht
    rcases ht with ht | ht <;> cases ht
  rw [h.counted f, if_neg hno]
  rfl

/-- Somebody stands on a resource exactly when there was one move more to it than away from it. -/
theorem occupied_iff (h : Inv s) (hs : ∀ t, s.stage t = .resting) (f : F) :
    s.Occupied f ↔ s.finished f = s.left f + 1 := by
  have hb := h.balanced f
  rw [if_neg (not_entered_of_resting hs f)] at hb
  by_cases ho : s.Occupied f
  · rw [if_pos ho] at hb
    exact iff_of_true ho (by omega)
  · rw [if_neg ho] at hb
    exact iff_of_false ho (by omega)

theorem not_occupied_iff (h : Inv s) (hs : ∀ t, s.stage t = .resting) (f : F) :
    ¬ s.Occupied f ↔ s.finished f = s.left f := by
  have hb := h.balanced f
  rw [if_neg (not_entered_of_resting hs f)] at hb
  by_cases ho : s.Occupied f
  · rw [if_pos ho] at hb
    exact iff_of_false (fun hn => hn ho) (by omega)
  · rw [if_neg ho] at hb
    exact iff_of_true ho (by omega)

end Inv

end Tally
