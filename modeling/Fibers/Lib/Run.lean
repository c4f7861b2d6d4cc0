import Mathlib.Algebra.Ring.Nat
import Mathlib.Data.Nat.Notation
import Mathlib.Logic.Basic

/-!
# Runs with their history

A run of a step relation together with everything that happened in it: each step
is entered in the history with the state before, the action and the state after,
the latest step first. Notions about the past of a state ("the last write", "the
first activation", "the steps of the call that ends here") are functions of the
history, so the system itself needs no history variables.

## Main results

- `Run.induct` — an invariant between a history and the state it leads to
- `Run.invariant` — the same for a property of states alone
- `Run.split` — every entry of a history is a step taken from a reachable state
- `Run.everyEntry_iff` — two properties of all steps, equivalent step by step
- `Run.of_execute` — a list of actions that a step function executes is a run
- `Run.refined` — the image of a run under an abstraction
- `Run.simulated` — a run of another system that takes the steps of some entries only
- `Run.seen` — what a party sees of a run is a run of the party's own
-/

/-- One step of a run. -/
structure Entry (σ α : Type*) where
  pre : σ
  act : α
  post : σ

/-- The same step between the images of its states. -/
def Entry.map {σ τ α : Type*} (f : σ → τ) (e : Entry σ α) : Entry τ α := ⟨f e.pre, e.act, f e.post⟩

/-- `Run step s₀ h s`: the history `h` leads from `s₀` to `s`. -/
inductive Run {σ α : Type*} (step : σ → α → σ → Prop) (s₀ : σ) : List (Entry σ α) → σ → Prop
  | start : Run step s₀ [] s₀
  | next {h : List (Entry σ α)} {s s' : σ} {a : α} :
      Run step s₀ h s → step s a s' → Run step s₀ (⟨s, a, s'⟩ :: h) s'

/-- Every entry of the history has the property, given the entries before it. -/
def EveryEntry {σ α : Type*} (P : List (Entry σ α) → Entry σ α → Prop) : List (Entry σ α) → Prop
  | [] => True
  | e :: past => P past e ∧ EveryEntry P past

namespace EveryEntry

variable {σ α : Type*} {P Q : List (Entry σ α) → Entry σ α → Prop}

instance decidable [∀ past e, Decidable (P past e)] : ∀ h, Decidable (EveryEntry P h)
  | [] => isTrue trivial
  | e :: past =>
    have : Decidable (EveryEntry P past) := decidable past
    inferInstanceAs (Decidable (P past e ∧ EveryEntry P past))

theorem mono (hpq : ∀ past e, P past e → Q past e) {h : List (Entry σ α)} (hp : EveryEntry P h) :
    EveryEntry Q h := by
  induction h with
  | nil => trivial
  | cons e past ih => exact ⟨hpq past e hp.1, ih hp.2⟩

/-- The property holds in what came before a point of the history. -/
theorem drop {h : List (Entry σ α)} (later : List (Entry σ α)) (hp : EveryEntry P (later ++ h)) :
    EveryEntry P h := by
  induction later with
  | nil => exact hp
  | cons e later ih => exact ih hp.2

end EveryEntry

/-- How many entries of the history have the property, each given the entries before it. -/
def countEntries {σ α : Type*} (P : List (Entry σ α) → Entry σ α → Prop)
    [∀ past e, Decidable (P past e)] : List (Entry σ α) → ℕ
  | [] => 0
  | e :: past => countEntries P past + if P past e then 1 else 0

namespace Run

variable {σ α : Type*} {step step' : σ → α → σ → Prop} {s₀ s : σ} {h h' : List (Entry σ α)}

/-- An invariant of histories and states: it holds at the start and every step keeps it. -/
theorem induct {I : List (Entry σ α) → σ → Prop} (hr : Run step s₀ h s) (init : I [] s₀)
    (keep : ∀ h s a s', Run step s₀ h s → I h s → step s a s' → I (⟨s, a, s'⟩ :: h) s') :
    I h s := by
  induction hr with
  | start => exact init
  | next hr hs ih => exact keep _ _ _ _ hr ih hs

/-- An invariant of states. -/
theorem invariant {I : σ → Prop} (hr : Run step s₀ h s) (init : I s₀)
    (keep : ∀ s a s', I s → step s a s' → I s') : I s :=
  hr.induct (I := fun _ s => I s) init (fun _ _ _ _ _ hi hs => keep _ _ _ hi hs)

/-- Steps that are paid from a potential with an allowance of `c` each. -/
theorem sum_cost_le {I : σ → Prop} {cost : Entry σ α → ℕ} {potential : σ → ℕ} {c : ℕ}
    (hr : Run step s₀ h s) (init : I s₀) (keep : ∀ s a s', I s → step s a s' → I s')
    (pay : ∀ s a s', I s → step s a s' → cost ⟨s, a, s'⟩ + potential s' ≤ potential s + c) :
    (h.map cost).sum + potential s ≤ c * h.length + potential s₀ := by
  suffices hi : I s ∧ (h.map cost).sum + potential s ≤ c * h.length + potential s₀ from hi.2
  induction hr with
  | start => exact ⟨init, by simp⟩
  | next hr hs ih =>
    obtain ⟨hi, hsum⟩ := ih
    refine ⟨keep _ _ _ hi hs, ?_⟩
    have hpay := pay _ _ _ hi hs
    rw [List.map_cons, List.sum_cons, List.length_cons, Nat.mul_succ]
    omega

/-- A weaker step relation has more runs. -/
theorem mono (hr : Run step s₀ h s) (hs : ∀ s a s', step s a s' → step' s a s') :
    Run step' s₀ h s := by
  induction hr with
  | start => exact start
  | next _ hstep ih => exact ih.next (hs _ _ _ hstep)

/-- The past of an entry is itself a run, and the entry a step from where it led. -/
theorem split {e : Entry σ α} (hr : Run step s₀ (h' ++ e :: h) s) :
    Run step s₀ h e.pre ∧ step e.pre e.act e.post := by
  induction h' generalizing s with
  | nil =>
    cases hr with
    | next hr hs => exact ⟨hr, hs⟩
  | cons e' h' ih =>
    cases hr with
    | next hr _ => exact ih hr

/-- Two properties hold of every entry of the same histories, if on a step they are equivalent as
long as the first one held before. -/
theorem everyEntry_iff {P Q : List (Entry σ α) → Entry σ α → Prop} {I : List (Entry σ α) → σ → Prop}
    (hr : Run step s₀ h s) (init : I [] s₀)
    (equiv : ∀ h s a s', Run step s₀ h s → I h s → step s a s' →
      (P h ⟨s, a, s'⟩ ↔ Q h ⟨s, a, s'⟩))
    (keep : ∀ h s a s', I h s → step s a s' → P h ⟨s, a, s'⟩ → I (⟨s, a, s'⟩ :: h) s') :
    EveryEntry P h ↔ EveryEntry Q h := by
  suffices hi : (EveryEntry P h ↔ EveryEntry Q h) ∧ (EveryEntry P h → I h s) from hi.1
  induction hr with
  | start => exact ⟨Iff.rfl, fun _ => init⟩
  | next hr hs ih =>
    refine ⟨⟨?_, ?_⟩, fun hp => keep _ _ _ _ (ih.2 hp.2) hs hp.1⟩
    · rintro ⟨hp, hpast⟩
      exact ⟨(equiv _ _ _ _ hr (ih.2 hpast) hs).mp hp, ih.1.mp hpast⟩
    · rintro ⟨hq, hpast⟩
      have hpast := ih.1.mpr hpast
      exact ⟨(equiv _ _ _ _ hr (ih.2 hpast) hs).mpr hq, hpast⟩

/-! ## Executing a list of actions -/

/-- The actions one after the other, from a state with its history. -/
def execute (f : σ → α → Option σ) :
    List (Entry σ α) → σ → List α → Option (List (Entry σ α) × σ)
  | h, s, [] => some (h, s)
  | h, s, a :: as =>
    match f s a with
    | none => none
    | some s' => execute f (⟨s, a, s'⟩ :: h) s' as

/-- What a check of the outcome says about the history and the last state. -/
theorem exists_execute (f : σ → α → Option σ) (s₀ : σ) (as : List α) (P : List (Entry σ α) → σ → Bool)
    (hc : (execute f [] s₀ as).any (fun x => P x.1 x.2) = true) :
    ∃ h s, execute f [] s₀ as = some (h, s) ∧ P h s = true := by
  obtain ⟨⟨h, s⟩, he, hp⟩ := (Option.any_eq_true _ _).mp hc
  exact ⟨h, s, he, hp⟩

/-- A check of the last step and its past. -/
def lastStep (P : Entry σ α → List (Entry σ α) → Bool) : List (Entry σ α) → Bool
  | [] => false
  | e :: past => P e past

theorem exists_execute_cons (f : σ → α → Option σ) (s₀ : σ) (as : List α)
    (P : Entry σ α → List (Entry σ α) → σ → Bool)
    (hc : (execute f [] s₀ as).any (fun x => lastStep (fun e past => P e past x.2) x.1) = true) :
    ∃ e past s, execute f [] s₀ as = some (e :: past, s) ∧ P e past s = true := by
  obtain ⟨_ | ⟨e, past⟩, s, he, hp⟩ := exists_execute f s₀ as
    (fun h s => lastStep (fun e past => P e past s) h) hc
  · cases hp
  · exact ⟨e, past, s, he, hp⟩

theorem of_execute {f : σ → α → Option σ} (as : List α)
    (hr : Run (fun s a s' => f s a = some s') s₀ h s) {s' : σ}
    (he : execute f h s as = some (h', s')) : Run (fun s a s' => f s a = some s') s₀ h' s' := by
  induction as generalizing h s with
  | nil =>
    cases he
    exact hr
  | cons a as ih =>
    simp only [execute] at he
    split at he
    · cases he
    · next hs => exact ih (hr.next hs) he

/-- An execution goes on from the history before it. -/
theorem append_of_execute {f : σ → α → Option σ} (as : List α) {s' : σ}
    (he : execute f h s as = some (h', s')) : ∃ later, h' = later ++ h := by
  induction as generalizing h s with
  | nil =>
    cases he
    exact ⟨[], rfl⟩
  | cons a as ih =>
    simp only [execute] at he
    split at he
    · cases he
    · next s'' hs =>
      obtain ⟨later, rfl⟩ := ih he
      exact ⟨later ++ [⟨s, a, s''⟩], by simp⟩

/-- What happened in an execution is in the list of actions. -/
theorem mem_of_execute {f : σ → α → Option σ} (as : List α) {s' : σ}
    (he : execute f h s as = some (h', s')) {e : Entry σ α} (hm : e ∈ h') :
    e ∈ h ∨ e.act ∈ as := by
  induction as generalizing h s with
  | nil =>
    cases he
    exact .inl hm
  | cons a as ih =>
    simp only [execute] at he
    split at he
    · cases he
    · rcases ih he with hold | hnew
      · rcases List.mem_cons.mp hold with rfl | hold
        · exact .inr List.mem_cons_self
        · exact .inl hold
      · exact .inr (List.mem_cons_of_mem a hnew)

variable {τ β : Type*}

/-! ## Abstractions of a run -/

/-- When every step is one of another system between the images of its states, a run is a run of that
system. -/
theorem refined {f : σ → τ} {I : σ → Prop} {step' : τ → α → τ → Prop} (hr : Run step s₀ h s)
    (init : I s₀) (keep : ∀ s a s', I s → step s a s' → I s')
    (refines : ∀ s a s', I s → step s a s' → step' (f s) a (f s')) :
    Run step' (f s₀) (h.map (Entry.map f)) (f s) := by
  induction hr with
  | start => exact .start
  | next hr hs ih => exact ih.next (refines _ _ _ (hr.invariant init keep) hs)

/-- A step of the system is matched by one of another system, or by none. -/
inductive Matches (R : σ → τ → Prop) (label : Entry σ α → Option β) (step' : τ → β → τ → Prop)
    (e : Entry σ α) (w : τ) : Prop
  | stutter (hlabel : label e = none) (hr : R e.post w)
  | move {b : β} {w' : τ} (hlabel : label e = some b) (hs : step' w b w') (hr : R e.post w')

/-- A run that is matched step by step has a run of the other system beside it, with the labels of
its entries. -/
theorem simulated {R : σ → τ → Prop} {label : Entry σ α → Option β} {step' : τ → β → τ → Prop}
    {w₀ : τ} (hr : Run step s₀ h s) (init : R s₀ w₀)
    (sim : ∀ h s a s' w, Run step s₀ h s → step s a s' → R s w →
      Matches R label step' ⟨s, a, s'⟩ w) :
    ∃ (H : List (Entry τ β)) (w : τ),
      Run step' w₀ H w ∧ H.map Entry.act = h.filterMap label ∧ R s w := by
  induction hr with
  | start => exact ⟨[], w₀, .start, rfl, init⟩
  | next hr hs ih =>
    obtain ⟨H, w, hrun, hlabels, hrel⟩ := ih
    cases sim _ _ _ _ w hr hs hrel with
    | stutter hlabel hrel' =>
      rw [List.filterMap_cons_none hlabel]
      exact ⟨H, w, hrun, hlabels, hrel'⟩
    | @move b w' hlabel hstep hrel' =>
      refine ⟨⟨w, b, w'⟩ :: H, w', hrun.next hstep, ?_, hrel'⟩
      rw [List.filterMap_cons_some hlabel, List.map_cons, hlabels]

/-! ## What a party sees of a run -/

/-- A step of the system as seen by a party, whose view begins at some point and then changes by steps
of the party alone. -/
inductive Sees (view : σ → Option τ) (own : Entry σ α → Option (Entry τ β)) (Begins : τ → Prop)
    (ownStep : τ → β → τ → Prop) (e : Entry σ α) : Prop
  | quiet (hown : own e = none) (hsame : view e.post = view e.pre)
  | begins {w : τ} (hown : own e = none) (hpre : view e.pre = none) (hpost : view e.post = some w)
      (hw : Begins w)
  | moves {w w' : τ} {b : β} (hown : own e = some ⟨w, b, w'⟩) (hpre : view e.pre = some w)
      (hpost : view e.post = some w') (hs : ownStep w b w')

theorem seen (view : σ → Option τ) {own : Entry σ α → Option (Entry τ β)} {Begins : τ → Prop}
    {ownStep : τ → β → τ → Prop} (hr : Run step s₀ h s) (init : view s₀ = none)
    (sees : ∀ h s a s', Run step s₀ h s → step s a s' → Sees view own Begins ownStep ⟨s, a, s'⟩)
    {w : τ} (hw : view s = some w) : ∃ w₀, Begins w₀ ∧ Run ownStep w₀ (h.filterMap own) w := by
  suffices hi : (view s = none → h.filterMap own = []) ∧
      ∀ w, view s = some w → ∃ w₀, Begins w₀ ∧ Run ownStep w₀ (h.filterMap own) w from hi.2 w hw
  clear hw
  induction hr with
  | start => exact ⟨fun _ => rfl, fun w hw => by cases init.symm.trans hw⟩
  | next hr hs ih =>
    cases sees _ _ _ _ hr hs with
    | quiet hown hsame =>
      rw [List.filterMap_cons_none hown]
      exact ⟨fun h => ih.1 (hsame.symm.trans h), fun w hw => ih.2 w (hsame.symm.trans hw)⟩
    | begins hown hpre hpost hbegins =>
      rw [List.filterMap_cons_none hown, ih.1 hpre]
      refine ⟨fun _ => rfl, fun w hw => ?_⟩
      obtain rfl := Option.some.inj (hpost.symm.trans hw)
      exact ⟨_, hbegins, .start⟩
    | moves hown hpre hpost hstep =>
      rw [List.filterMap_cons_some hown]
      refine ⟨fun hnone => ?_, fun w hw => ?_⟩
      · cases hpost.symm.trans hnone
      · obtain rfl := Option.some.inj (hpost.symm.trans hw)
        obtain ⟨w₀, hw₀, hrun⟩ := ih.2 _ hpre
        exact ⟨w₀, hw₀, hrun.next hstep⟩

end Run
