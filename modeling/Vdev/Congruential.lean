import Mathlib.NumberTheory.Multiplicity
import Mathlib.Tactic

/-!
Linear congruential generators modulo a power of two. When the multiplier is 1 modulo 4
and the increment is odd, two states of one sequence agree in their lowest bits exactly
when the number of steps between them is a multiple of that power of two.
-/
namespace Vdev.Congruential

/-- One step, without the reduction. -/
def affine (a c x : ℤ) : ℤ := a * x + c

/-- One step modulo `m`. -/
def lcg (a c m x : ℕ) : ℕ := (a * x + c) % m

variable {a c : ℤ}

theorem iterate_affine_sub (a c x : ℤ) (n : ℕ) :
    (a - 1) * ((affine a c)^[n] x - x) = (a ^ n - 1) * ((a - 1) * x + c) := by
  induction n with
  | zero => simp
  | succ n ih =>
    rw [Function.iterate_succ_apply']
    have hstep : (a - 1) * (affine a c ((affine a c)^[n] x) - x) =
        a * ((a - 1) * ((affine a c)^[n] x - x)) + (a - 1) * ((a - 1) * x + c) := by
      unfold affine
      ring
    rw [hstep, ih]
    ring

/-- `n` steps change a state by a number that has as many factors two as `n`. -/
theorem two_pow_dvd_iterate_sub_iff (hone : a ≠ 1) (ha : 4 ∣ a - 1) (hc : ¬2 ∣ c) (x : ℤ)
    (k n : ℕ) :
    (2 : ℤ) ^ k ∣ (affine a c)^[n] x - x ↔ (2 : ℤ) ^ k ∣ n := by
  -- lifting the exponent: the factors two of `a ^ n - 1` are those of `a - 1` and of `n`
  have hodd : ¬2 ∣ a := by omega
  have hrest : ¬2 ∣ (a - 1) * x + c := by
    intro h
    have htwo : (2 : ℤ) ∣ (a - 1) * x := Dvd.dvd.mul_right (by omega) x
    exact hc ((Int.dvd_add_right htwo).mp h)
  have hpow : emultiplicity 2 (a ^ n - 1) = emultiplicity 2 (a - 1) + emultiplicity (2 : ℤ) n := by
    have h := Int.two_pow_sub_pow' (x := a) (y := 1) n ha hodd
    rwa [one_pow] at h
  have hmul : emultiplicity 2 (a - 1) + emultiplicity 2 ((affine a c)^[n] x - x) =
      emultiplicity 2 (a - 1) + emultiplicity (2 : ℤ) n := by
    rw [← emultiplicity_mul Int.prime_two, iterate_affine_sub, emultiplicity_mul Int.prime_two,
      hpow, emultiplicity_eq_zero.mpr hrest, add_zero]
  have hfin : emultiplicity 2 (a - 1) ≠ ⊤ := by
    rw [← finiteMultiplicity_iff_emultiplicity_ne_top, Int.finiteMultiplicity_iff]
    exact ⟨by decide, sub_ne_zero.mpr hone⟩
  have heq : emultiplicity 2 ((affine a c)^[n] x - x) = emultiplicity (2 : ℤ) n :=
    ENat.add_right_injective_of_ne_top hfin hmul
  rw [pow_dvd_iff_le_emultiplicity, heq, ← pow_dvd_iff_le_emultiplicity]

/-- The reduction can be left until the end. -/
theorem iterate_lcg_modEq (a c m x n : ℕ) :
    ((lcg a c m)^[n] x : ℤ) ≡ (affine a c)^[n] x [ZMOD m] := by
  induction n with
  | zero => rfl
  | succ n ih =>
    rw [Function.iterate_succ_apply', Function.iterate_succ_apply']
    have hstep : (lcg a c m ((lcg a c m)^[n] x) : ℤ) ≡
        affine a c ((lcg a c m)^[n] x) [ZMOD m] := by
      unfold lcg affine
      push_cast
      exact Int.mod_modEq _ _
    exact hstep.trans ((ih.mul_left a).add_right c)

/-- Some steps leave the lowest `k` bits of a state as they are exactly when `2 ^ k`
divides their number. -/
theorem iterate_lcg_modEq_self_iff {a c m : ℕ} (hone : a ≠ 1) (ha : 4 ∣ (a : ℤ) - 1)
    (hc : ¬2 ∣ (c : ℤ)) (x k n : ℕ) (hm : 2 ^ k ∣ m) :
    (lcg a c m)^[n] x ≡ x [MOD 2 ^ k] ↔ 2 ^ k ∣ n := by
  have hlow : ((lcg a c m)^[n] x : ℤ) ≡ (affine a c)^[n] x [ZMOD (2 ^ k : ℕ)] :=
    (iterate_lcg_modEq a c m x n).of_dvd (Int.natCast_dvd_natCast.mpr hm)
  have hdvd := two_pow_dvd_iterate_sub_iff (by exact_mod_cast hone) ha hc x k n
  rw [← Int.natCast_modEq_iff, Int.modEq_comm]
  constructor
  · intro h
    have hx : (x : ℤ) ≡ (affine a c)^[n] x [ZMOD (2 ^ k : ℕ)] := h.trans hlow
    have htwo : (2 : ℤ) ^ k ∣ (affine a c)^[n] x - x := by
      simpa using hx.dvd
    exact_mod_cast hdvd.mp htwo
  · intro h
    have htwo : (2 : ℤ) ^ k ∣ (affine a c)^[n] x - x := hdvd.mpr (by exact_mod_cast h)
    have hx : (x : ℤ) ≡ (affine a c)^[n] x [ZMOD (2 ^ k : ℕ)] :=
      Int.modEq_iff_dvd.mpr (by simpa using htwo)
    exact hx.trans hlow.symm

end Vdev.Congruential
