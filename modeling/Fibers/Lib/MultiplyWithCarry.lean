import Mathlib.Data.ZMod.Basic
import Mathlib.GroupTheory.OrderOfElement
import Mathlib.Logic.Function.Iterate
import Mathlib.Tactic.Ring

/-!
# Multiply-with-carry generators

A multiply-with-carry generator with the multiplier `a` and the base `b` keeps its last digit and its
carry in one number. A step takes `z` to `a * (z % b) + z / b`; modulo `a * b - 1` this is the
division by `b`. The period of a seed that is prime to the modulus is the order of `b`.

## Main results

- `base_mul_step` — a step divides by the base
- `iterate_eq_iff` — which steps lead to the same number
-/

namespace MultiplyWithCarry

variable {a b z : ℕ}

def modulus (a b : ℕ) : ℕ := a * b - 1

def carryStep (a b z : ℕ) : ℕ := a * (z % b) + z / b

theorem base_mul_step (h : 0 < a * b) : b * carryStep a b z = z + modulus a b * (z % b) := by
  have hz := Nat.mod_add_div z b
  have hm : modulus a b + 1 = a * b := Nat.sub_add_cancel h
  calc b * carryStep a b z = a * b * (z % b) + b * (z / b) := by
        rw [carryStep]
        ring
    _ = modulus a b * (z % b) + (z % b + b * (z / b)) := by
        rw [← hm]
        ring
    _ = z + modulus a b * (z % b) := by
        rw [hz]
        ring

/-- The numbers below the modulus stay there. -/
theorem step_lt (hb : 0 < b) (hz : z < modulus a b) : carryStep a b z < modulus a b := by
  have hm : modulus a b + 1 = a * b := by
    unfold modulus at *
    omega
  have hmod : z % b + 1 ≤ b := Nat.mod_lt z hb
  have hstep := base_mul_step (z := z) (show 0 < a * b by omega)
  have hle : modulus a b * (z % b + 1) ≤ modulus a b * b := Nat.mul_le_mul_left _ hmod
  refine Nat.lt_of_mul_lt_mul_left (a := b) ?_
  rw [hstep, Nat.mul_comm b]
  rw [Nat.mul_add, Nat.mul_one] at hle
  omega

theorem iterate_lt (hb : 0 < b) (hz : z < modulus a b) (n : ℕ) :
    (carryStep a b)^[n] z < modulus a b := by
  induction n with
  | zero => exact hz
  | succ n ih =>
    rw [Function.iterate_succ_apply']
    exact step_lt hb ih

/-- The steps divide by the powers of the base. -/
theorem pow_mul_iterate (h : 0 < a * b) (n : ℕ) :
    (b : ZMod (modulus a b)) ^ n * ((carryStep a b)^[n] z : ℕ) = z := by
  induction n with
  | zero => simp
  | succ n ih =>
    have hstep := congrArg (Nat.cast (R := ZMod (modulus a b)))
      (base_mul_step (z := (carryStep a b)^[n] z) h)
    push_cast at hstep
    rw [Function.iterate_succ_apply', pow_succ, mul_assoc, hstep, ZMod.natCast_self, zero_mul,
      add_zero, ih]

/-- A seed that is no multiple of the modulus never leads to 0. -/
theorem iterate_ne_zero (h : 0 < a * b) (hz : (z : ZMod (modulus a b)) ≠ 0) (n : ℕ) :
    (carryStep a b)^[n] z ≠ 0 := by
  intro hzero
  have hn := pow_mul_iterate (z := z) h n
  rw [hzero, Nat.cast_zero, mul_zero] at hn
  exact hz hn.symm

theorem isUnit_base (h : 0 < a * b) : IsUnit (b : ZMod (modulus a b)) := by
  refine IsUnit.of_mul_eq_one (a : ZMod (modulus a b)) ?_
  have hm : modulus a b + 1 = a * b := Nat.sub_add_cancel h
  have hcast := congrArg (Nat.cast (R := ZMod (modulus a b))) hm
  push_cast at hcast
  rw [mul_comm, ← hcast, ZMod.natCast_self, zero_add]

/-- Two numbers of steps lead to the same number exactly if they differ by a multiple of the order of
the base. -/
theorem iterate_eq_iff (h : 0 < a * b) (hb : 0 < b) (hz : z < modulus a b)
    (hunit : IsUnit (z : ZMod (modulus a b))) {i j : ℕ} :
    (carryStep a b)^[i] z = (carryStep a b)^[j] z ↔ i ≡ j [MOD orderOf (b : ZMod (modulus a b))] := by
  have hi := pow_mul_iterate (z := z) h i
  have hj := pow_mul_iterate (z := z) h j
  obtain ⟨u, hu⟩ := isUnit_base h
  have horder : orderOf u = orderOf (b : ZMod (modulus a b)) := by rw [← hu, orderOf_units]
  rw [← horder, ← pow_eq_pow_iff_modEq]
  constructor
  · intro heq
    rw [heq] at hi
    have hcancel : (b : ZMod (modulus a b)) ^ i = (b : ZMod (modulus a b)) ^ j := by
      have hend : IsUnit (((carryStep a b)^[j] z : ℕ) : ZMod (modulus a b)) := by
        rw [← hj] at hunit
        exact isUnit_of_mul_isUnit_right hunit
      exact hend.mul_right_cancel (hi.trans hj.symm)
    apply Units.ext
    rw [Units.val_pow_eq_pow_val, Units.val_pow_eq_pow_val, hu, hcancel]
  · intro hpow
    have hpow' : (b : ZMod (modulus a b)) ^ i = (b : ZMod (modulus a b)) ^ j := by
      rw [← hu, ← Units.val_pow_eq_pow_val, hpow, Units.val_pow_eq_pow_val]
    rw [hpow'] at hi
    have hcast : (((carryStep a b)^[i] z : ℕ) : ZMod (modulus a b)) = ((carryStep a b)^[j] z : ℕ) :=
      ((isUnit_base h).pow j).mul_left_cancel (hi.trans hj.symm)
    rw [ZMod.natCast_eq_natCast_iff'] at hcast
    rwa [Nat.mod_eq_of_lt (iterate_lt hb hz i), Nat.mod_eq_of_lt (iterate_lt hb hz j)] at hcast

end MultiplyWithCarry
