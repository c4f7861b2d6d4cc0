import Mathlib.Logic.Basic

/-!
# Computations that may fault

Pre- and postconditions for computations in `Except`. `Yields allowed x P` says that `x`
returns a value with the property `P` or ends with an allowed fault; a fault that is not
allowed is thereby excluded.

## Main results

- `Yields.bind` — the rule of sequences
-/

universe u v

/-- A sequence whose first part is known to return. -/
theorem bind_of_ok {ε : Type v} {α β : Type u} {x : Except ε α} {a : α} {f : α → Except ε β}
    {y : Except ε β} (hx : x = .ok a) (hf : f a = y) : (x >>= f) = y := by
  rw [hx]
  exact hf

/-- The computation returns a value with the property, or faults in an allowed way. -/
def Yields {ε : Type v} {α : Type u} (allowed : ε → Prop) (x : Except ε α) (P : α → Prop) : Prop :=
  match x with
  | .ok a => P a
  | .error e => allowed e

namespace Yields

variable {ε : Type v} {α β : Type u} {allowed : ε → Prop} {x : Except ε α} {P Q : α → Prop}

theorem of_ok (h : Yields allowed x P) {a : α} (hx : x = .ok a) : P a := by
  subst hx
  exact h

theorem of_error (h : Yields allowed x P) {e : ε} (hx : x = .error e) : allowed e := by
  subst hx
  exact h

theorem pure {a : α} (h : P a) : Yields allowed (.ok a) P := h

theorem fault {e : ε} (h : allowed e) : Yields allowed (.error e) P := h

/-- The same faults under other names. -/
theorem mapError {ε' : Type v} (h : Yields allowed x P) (g : ε → ε') :
    Yields (fun e' => ∃ e, e' = g e ∧ allowed e) (x.mapError g) P := by
  cases x with
  | ok a => exact h
  | error e => exact ⟨e, rfl, h⟩

theorem mono (h : Yields allowed x P) (hpq : ∀ a, P a → Q a) : Yields allowed x Q := by
  cases x with
  | ok a => exact hpq a h
  | error e => exact h

/-- The second computation starts from whatever the first one returns. -/
theorem bind {f : α → Except ε β} {R : β → Prop} (h : Yields allowed x P)
    (hf : ∀ a, P a → Yields allowed (f a) R) : Yields allowed (x >>= f) R := by
  cases x with
  | ok a => exact hf a h
  | error e => exact h

end Yields
