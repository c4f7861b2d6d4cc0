import Fibers.Lib.MultiplyWithCarry
import Mathlib.Data.BitVec
import Mathlib.Data.Rat.Defs
import Mathlib.NumberTheory.LucasPrimality
import Mathlib.Tactic.Linarith
import Mathlib.Tactic.NormNum.Prime
import Mathlib.Tactic.Positivity
import Mathlib.Tactic.ReduceModChar

/-!
# The random numbers of the testbed

`Random` of `numerical.c` combines two multiply-with-carry generators, one in each half of
`master_seed`. The seed is filled by `random()` of the C library, whose values fit into the lower
half: the upper half is 0 then, and stays so. The lower half has the multiplier 36969, whose modulus
is a safe prime.

The product that `Random` returns is taken as an exact number.

## Main results

- `random_lt_one` — the result is strictly between 0 and 1
- `random_period` — the numbers of a thread repeat after 1211400191 calls and not before
-/

namespace Fibers.Testbed.Numerical

/-- 2.328306435454494e-10. -/
def scale : ℚ := 2328306435454494 / 10 ^ 25

/-- One step of a generator in a half of the seed. -/
def carry (multiplier seed : BitVec 32) : BitVec 32 :=
  multiplier * (seed &&& 0xFFFF#32) + (seed >>> 16)

/-- `Random`, with the value that `random()` returns if it is called. The seed is in the order of a
little-endian machine. -/
def random (masterSeed drawn : BitVec 64) : ℚ × BitVec 64 :=
  let masterSeed := if masterSeed = 0 then drawn else masterSeed
  let seed1 := carry 36969 (masterSeed.setWidth 32)
  let seed2 := carry 18000 ((masterSeed >>> 32).setWidth 32)
  ((((seed1 <<< 16) + (seed1 >>> 16) + seed2).toNat + 1) * scale, seed2 ++ seed1)

/-- `Expent`, with the logarithm of the C library. -/
def expent (log : ℚ → ℚ) (mean : ℚ) (number : ℚ) : Option ℚ :=
  if mean < 0 then none else some (-mean * log (1 - number))

/-! ## The range -/

theorem random_pos (masterSeed drawn : BitVec 64) : 0 < (random masterSeed drawn).1 := by
  have hscale : 0 < scale := by norm_num [scale]
  unfold random
  positivity

theorem random_lt_one (masterSeed drawn : BitVec 64) : (random masterSeed drawn).1 < 1 := by
  have hscale : 0 < scale := by norm_num [scale]
  have hbound : ∀ x : BitVec 32, ((x.toNat : ℚ) + 1) * scale < 1 := by
    intro x
    have hx : (x.toNat : ℚ) + 1 ≤ 2 ^ 32 := by
      exact_mod_cast x.isLt
    calc ((x.toNat : ℚ) + 1) * scale ≤ 2 ^ 32 * scale := by gcongr
      _ < 1 := by norm_num [scale]
  exact hbound _

/-- The delays that the model draws are not negative. -/
theorem expent_nonneg {log : ℚ → ℚ} (hlog : ∀ x, 0 < x → x < 1 → log x < 0) {mean : ℚ}
    (hmean : 0 ≤ mean) (masterSeed drawn : BitVec 64) :
    ∃ delay, expent log mean (random masterSeed drawn).1 = some delay ∧ 0 ≤ delay := by
  have hpos := random_pos masterSeed drawn
  have hlt := random_lt_one masterSeed drawn
  refine ⟨_, if_neg (not_lt.mpr hmean), ?_⟩
  have hneg := hlog (1 - (random masterSeed drawn).1) (by linarith) (by linarith)
  nlinarith

/-! ## The moduli -/

/-- A number is prime if some residue has the order of the group for each prime in a factorization of
the order. -/
theorem prime_of_factors {n : ℕ} (a : ZMod n) (factors : List ℕ) (hprime : ∀ r ∈ factors, r.Prime)
    (hprod : n - 1 = factors.prod) (hone : a ^ (n - 1) = 1)
    (hne : ∀ r ∈ factors, a ^ ((n - 1) / r) ≠ 1) : n.Prime := by
  refine lucas_primality n a hone fun r hr hd => ?_
  rw [hprod, hr.prime.dvd_prod_iff] at hd
  obtain ⟨s, hs, hrs⟩ := hd
  obtain rfl := (Nat.prime_dvd_prime_iff_eq hr (hprime s hs)).mp hrs
  exact hne r hs

/-- `36969 * 2 ^ 15 - 1` -/
theorem prime_1211400191 : Nat.Prime 1211400191 := by
  apply prime_of_factors 7 [2, 5, 7, 11, 13, 121019]
  · simp only [List.forall_mem_cons]
    norm_num
  · norm_num
  · reduce_mod_char
  · simp only [List.forall_mem_cons]
    norm_num only
    refine ⟨?_, ?_, ?_, ?_, ?_, ?_, by simp⟩ <;> reduce_mod_char <;> decide

/-- `36969 * 2 ^ 16 - 1`, the modulus -/
theorem prime_2422800383 : Nat.Prime 2422800383 := by
  apply prime_of_factors 5 [2, 1211400191]
  · simp only [List.forall_mem_cons]
    exact ⟨Nat.prime_two, prime_1211400191, by simp⟩
  · norm_num
  · reduce_mod_char
  · simp only [List.forall_mem_cons]
    norm_num only
    refine ⟨?_, ?_, by simp⟩ <;> reduce_mod_char <;> decide

theorem orderOf_base : orderOf (65536 : ZMod 2422800383) = 1211400191 := by
  have : Fact (Nat.Prime 1211400191) := ⟨prime_1211400191⟩
  apply orderOf_eq_prime
  · reduce_mod_char
  · decide

/-! ## The seed -/

/-- The seed of a thread after some calls, with the values that `random()` would return. -/
def seed (drawn : ℕ → BitVec 64) : ℕ → BitVec 64
  | 0 => 0
  | n + 1 => (random (seed drawn n) (drawn n)).2

/-- The numbers that a thread gets. -/
def number (drawn : ℕ → BitVec 64) (n : ℕ) : ℚ := (random (seed drawn n) (drawn n)).1

open MultiplyWithCarry (carryStep modulus)

theorem toNat_carry (x : BitVec 32) : (carry 36969 x).toNat = carryStep 36969 65536 x.toNat := by
  have hx := x.isLt
  have hmask : (0xFFFF#32).toNat = 65535 := rfl
  have hmultiplier : (36969 : BitVec 32).toNat = 36969 := rfl
  have hand : x.toNat &&& 65535 = x.toNat % 65536 := Nat.and_two_pow_sub_one_eq_mod x.toNat 16
  have hshift : x.toNat >>> 16 = x.toNat / 65536 := Nat.shiftRight_eq_div_pow x.toNat 16
  simp only [carry, carryStep, BitVec.toNat_add, BitVec.toNat_mul, BitVec.toNat_and,
    BitVec.toNat_ushiftRight]
  rw [hmask, hmultiplier, hand, hshift]
  omega

/-- A seed with nothing in its upper half. -/
def lower (z : ℕ) : BitVec 64 := BitVec.ofNat 64 z

theorem lower_shift {z : ℕ} (hz : z < modulus 36969 65536) : lower z >>> 32 = 0 := by
  have hm : modulus 36969 65536 = 2422800383 := rfl
  apply BitVec.eq_of_toNat_eq
  rw [BitVec.toNat_ushiftRight, lower, BitVec.toNat_ofNat, Nat.shiftRight_eq_div_pow]
  change _ = 0
  omega

/-- The two digits of a number change places. -/
def swapped (z : ℕ) : ℕ := z % 65536 * 65536 + z / 65536

theorem swapped_injective {y z : ℕ} (hy : y < 2 ^ 32) (hz : z < 2 ^ 32)
    (h : swapped y = swapped z) : y = z := by
  unfold swapped at h
  omega

theorem toNat_rotate (x : BitVec 32) : ((x <<< 16) + (x >>> 16)).toNat = swapped x.toNat := by
  have hx := x.isLt
  have hleft : x.toNat <<< 16 = x.toNat * 65536 := Nat.shiftLeft_eq x.toNat 16
  have hright : x.toNat >>> 16 = x.toNat / 65536 := Nat.shiftRight_eq_div_pow x.toNat 16
  rw [BitVec.toNat_add, BitVec.toNat_shiftLeft, BitVec.toNat_ushiftRight, hleft, hright, swapped]
  omega

/-- A call with a seed in the lower half. -/
theorem random_lower {z : ℕ} (hz : z < modulus 36969 65536) (hpos : z ≠ 0) (drawn : BitVec 64) :
    random (lower z) drawn =
      ((swapped (carryStep 36969 65536 z) + 1) * scale, lower (carryStep 36969 65536 z)) := by
  have hm : modulus 36969 65536 = 2422800383 := rfl
  have hne : lower z ≠ 0 := by
    intro h
    have hval := congrArg BitVec.toNat h
    rw [lower, BitVec.toNat_ofNat] at hval
    change _ = 0 at hval
    omega
  have hlow : ((lower z).setWidth 32).toNat = z := by
    rw [BitVec.toNat_setWidth, lower, BitVec.toNat_ofNat]
    omega
  have hhigh : (lower z >>> 32).setWidth 32 = (0 : BitVec 32) := by
    rw [lower_shift hz]
    rfl
  have hcarry : (carry 36969 ((lower z).setWidth 32)).toNat = carryStep 36969 65536 z := by
    rw [toNat_carry, hlow]
  have hzero : carry 18000 0 = 0 := by decide
  simp only [random, if_neg hne, hhigh, hzero, add_zero, toNat_rotate, hcarry]
  have hstep : carryStep 36969 65536 z < modulus 36969 65536 := MultiplyWithCarry.step_lt (by decide) hz
  have happend : (0#32 ++ carry 36969 ((lower z).setWidth 32)).toNat = carryStep 36969 65536 z := by
    rw [BitVec.toNat_append, hcarry]
    simp
  have hresult : 0#32 ++ carry 36969 ((lower z).setWidth 32) = lower (carryStep 36969 65536 z) := by
    apply BitVec.eq_of_toNat_eq
    rw [happend, lower, BitVec.toNat_ofNat]
    omega
  exact Prod.ext rfl hresult

/-! ## The period -/

section Period

variable {drawn : ℕ → BitVec 64} {k : ℕ}

theorem seed_eq_zero (hfirst : ∀ i < k, drawn i = 0) : seed drawn k = 0 := by
  induction k with
  | zero => rfl
  | succ k ih =>
    rw [seed, ih fun i hi => hfirst i (by omega), hfirst k (by omega)]
    rfl

variable (hrange : ∀ n, (drawn n).toNat < 2 ^ 31) (hk : drawn k ≠ 0)
  (hfirst : ∀ i < k, drawn i = 0)

include hrange

theorem drawn_lt_modulus : (drawn k).toNat < modulus 36969 65536 := by
  have hm : modulus 36969 65536 = 2422800383 := rfl
  have hlt := hrange k
  omega

include hk

theorem isUnit_drawn : IsUnit ((drawn k).toNat : ZMod (modulus 36969 65536)) := by
  have : Fact (Nat.Prime (modulus 36969 65536)) := ⟨prime_2422800383⟩
  rw [isUnit_iff_ne_zero, Ne, ZMod.natCast_eq_zero_iff]
  intro hdvd
  have hzero := Nat.eq_zero_of_dvd_of_lt hdvd (drawn_lt_modulus hrange)
  exact hk (BitVec.eq_of_toNat_eq hzero)

include hfirst

/-- The calls from the first value of `random()` on that is not 0. -/
theorem call_eq (j : ℕ) : random (seed drawn (k + j)) (drawn (k + j)) =
    ((swapped ((carryStep 36969 65536)^[j + 1] (drawn k).toNat) + 1) * scale,
      lower ((carryStep 36969 65536)^[j + 1] (drawn k).toNat)) := by
  have hlt := drawn_lt_modulus hrange (k := k)
  induction j with
  | zero =>
    have hne : (drawn k).toNat ≠ 0 := fun h => hk (BitVec.eq_of_toNat_eq h)
    have hlower : lower (drawn k).toNat = drawn k := BitVec.ofNat_toNat 64 (drawn k)
    have hsame : random 0 (drawn k) = random (drawn k) (drawn k) := by
      simp [random]
    rw [Nat.add_zero, seed_eq_zero hfirst, hsame]
    have hcall := random_lower hlt hne (drawn k)
    rwa [hlower] at hcall
  | succ j ih =>
    have : Fact (Nat.Prime (modulus 36969 65536)) := ⟨prime_2422800383⟩
    have hunit := (isUnit_drawn hrange hk).ne_zero
    have hne := MultiplyWithCarry.iterate_ne_zero (by decide) hunit (j + 1)
    have hin := MultiplyWithCarry.iterate_lt (by decide) hlt (j + 1)
    rw [← Nat.add_assoc, seed, ih, Function.iterate_succ_apply' _ (j + 1)]
    exact random_lower hin hne _

end Period

/-- Whatever `random()` returns, a thread gets numbers strictly between 0 and 1, with the second
generator at rest; from the first seed on that is not 0 they repeat after exactly 1211400191 calls. -/
theorem random_period {drawn : ℕ → BitVec 64} (hrange : ∀ n, (drawn n).toNat < 2 ^ 31) {k : ℕ}
    (hk : drawn k ≠ 0) (hfirst : ∀ i < k, drawn i = 0) :
    (∀ n, 0 < number drawn n ∧ number drawn n < 1) ∧ (∀ n, seed drawn n >>> 32 = 0) ∧
      ∀ m n, k ≤ m → k ≤ n → (number drawn m = number drawn n ↔ m ≡ n [MOD 1211400191]) := by
  have hlt := drawn_lt_modulus hrange (k := k)
  have hcall := call_eq hrange hk hfirst
  have hin := MultiplyWithCarry.iterate_lt (by decide) hlt
  refine ⟨fun n => ⟨random_pos _ _, random_lt_one _ _⟩, fun n => ?_, fun m n hm hn => ?_⟩
  · by_cases hn : n ≤ k
    · rw [seed_eq_zero fun i hi => hfirst i (by omega)]
      rfl
    · obtain ⟨j, rfl⟩ : ∃ j, n = k + j + 1 := ⟨n - k - 1, by omega⟩
      rw [seed, hcall]
      exact lower_shift (hin (j + 1))
  · obtain ⟨i, rfl⟩ := Nat.exists_eq_add_of_le hm
    obtain ⟨j, rfl⟩ := Nat.exists_eq_add_of_le hn
    have horder := MultiplyWithCarry.iterate_eq_iff (by decide) (by decide) hlt
      (isUnit_drawn hrange hk) (i := i + 1) (j := j + 1)
    have hbase : orderOf ((65536 : ℕ) : ZMod (modulus 36969 65536)) = 1211400191 := orderOf_base
    rw [hbase] at horder
    have hscale : scale ≠ 0 := by norm_num [scale]
    have hswap : number drawn (k + i) = number drawn (k + j) ↔
        (carryStep 36969 65536)^[i + 1] (drawn k).toNat =
          (carryStep 36969 65536)^[j + 1] (drawn k).toNat := by
      rw [number, number, hcall, hcall, mul_left_inj' hscale, add_left_inj, Nat.cast_inj]
      constructor
      · apply swapped_injective
        · exact (hin _).trans (by decide)
        · exact (hin _).trans (by decide)
      · exact congrArg swapped
    rw [hswap, horder]
    constructor
    · intro h
      exact (Nat.ModEq.add_right_cancel' 1 h).add_left k
    · intro h
      exact (Nat.ModEq.add_left_cancel' k h).add_right 1

theorem random_period_one :
    (∀ n, 0 < number (fun _ => 1) n ∧ number (fun _ => 1) n < 1) ∧
      (∀ n, seed (fun _ => 1) n >>> 32 = 0) ∧
      ∀ m n, 0 ≤ m → 0 ≤ n →
        (number (fun _ => 1) m = number (fun _ => 1) n ↔ m ≡ n [MOD 1211400191]) :=
  random_period (fun _ => by decide) (by decide) fun _ hi => absurd hi (Nat.not_lt_zero _)

end Fibers.Testbed.Numerical
