import Mathlib.Algebra.Order.Field.Power
import Mathlib.Algebra.Order.Ring.Rat
import Mathlib.Order.Interval.Set.OrdConnected
import Mathlib.Tactic.Positivity
import Mathlib.Tactic.Ring

namespace MuduoServer

/-! Decimals `m * 10^k` in an interval. -/

variable {I : Set ℚ} {m n digits : Nat} {k kappa : Int}

/-- A decimal is a multiple of each smaller power of ten. -/
theorem decimal_coarser (h : kappa ≤ k) : ∃ j : Nat, (m : ℚ) * 10^k = j * 10^kappa := by
  obtain ⟨i, hi⟩ := Int.eq_ofNat_of_zero_le (sub_nonneg.mpr h)
  refine ⟨m * 10^i, ?_⟩
  have hexp : k = i + kappa := by omega
  rw [hexp, zpow_add₀ (by norm_num), zpow_natCast]
  push_cast
  ring

/-- When an interval has no decimal with a larger exponent, each decimal in it has at least as many
digits as those with this exponent. -/
theorem digits_le_of_no_coarser (hI : I.OrdConnected)
    (hnone : ∀ j : Nat, (j : ℚ) * 10^(kappa + 1) ∉ I) (hn : (n : ℚ) * 10^kappa ∈ I)
    (hdigits : 10^digits ≤ n) (hm : (m : ℚ) * 10^k ∈ I) : 10^digits ≤ m := by
  by_contra hlt
  rcases lt_or_ge kappa k with hcoarse | hfine
  · obtain ⟨j, hj⟩ := decimal_coarser (m := m) (Int.add_one_le_of_lt hcoarse)
    rw [hj] at hm
    exact hnone j hm
  · -- a power of ten lies between the two decimals
    have hpow : (0 : ℚ) < 10^kappa := by positivity
    have hmle : (m : ℚ) * 10^k ≤ 10^digits * 10^kappa := by
      have hcast : (m : ℚ) ≤ 10^digits := by exact_mod_cast (Nat.not_le.mp hlt).le
      exact mul_le_mul hcast (zpow_le_zpow_right₀ (by norm_num) hfine) (by positivity)
        (by positivity)
    have hnle : (10 : ℚ)^digits * 10^kappa ≤ n * 10^kappa := by
      have hcast : (10 : ℚ)^digits ≤ n := by exact_mod_cast hdigits
      exact mul_le_mul_of_nonneg_right hcast hpow.le
    have hmem : (10 : ℚ)^digits * 10^kappa ∈ I := hI.out hm hn ⟨hmle, hnle⟩
    rcases digits with _ | digits
    · have hzero : m = 0 := Nat.lt_one_iff.mp (Nat.not_le.mp hlt)
      rw [hzero, Nat.cast_zero, zero_mul] at hm
      exact hnone 0 (by rwa [Nat.cast_zero, zero_mul])
    · refine hnone (10^digits) ?_
      rw [pow_succ, mul_assoc] at hmem
      rwa [zpow_add_one₀ (by norm_num), Nat.cast_pow, mul_comm ((10 : ℚ)^kappa)]

end MuduoServer
