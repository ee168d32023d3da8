import Mathlib.Algebra.Order.Field.Power
import Mathlib.Algebra.Order.Ring.Rat
import Mathlib.Tactic.Linarith
import Mathlib.Tactic.LinearCombination
import Mathlib.Tactic.Positivity
import Mathlib.Tactic.Ring

namespace MuduoServer

/-! Binary floating-point numbers with a bounded significand, and the numbers that are nearest to
one of them. -/

/-- The bits of a significand, and the least exponent. Exponents are not bounded above. -/
structure BinaryFormat where
  precision : Nat
  minExp : Int
  precision_pos : 0 < precision

namespace BinaryFormat

variable {F : BinaryFormat}

/-- The number `f * 2^e`. Only with the least exponent the first bit of `f` may be missing. -/
structure Number (F : BinaryFormat) where
  f : Nat
  e : Int
  lt : f < 2^F.precision
  ge : F.minExp ≤ e
  normal : F.minExp < e → 2^(F.precision - 1) ≤ f

namespace Number

def value (n : F.Number) : ℚ := n.f * 2^n.e

/-- The distance to the next smaller number, which is closer at a power of two. -/
def gapBelow (n : F.Number) : ℚ :=
  if n.f = 2^(F.precision - 1) ∧ F.minExp < n.e then 2^n.e / 2 else 2^n.e

/-- The end of the rounding interval below the number. -/
def lower (n : F.Number) : ℚ := n.value - n.gapBelow / 2

/-- The end of the rounding interval above it. -/
def upper (n : F.Number) : ℚ := n.value + 2^n.e / 2

variable {n u : F.Number} {x : ℚ}

theorem zpow_pos (n : F.Number) : (0 : ℚ) < 2^n.e := by positivity

theorem gapBelow_le (n : F.Number) : n.gapBelow ≤ 2^n.e := by
  have hpos := n.zpow_pos
  rw [gapBelow]
  split_ifs <;> linarith

theorem gapBelow_pos (n : F.Number) : 0 < n.gapBelow := by
  have hpos := n.zpow_pos
  rw [gapBelow]
  split_ifs <;> linarith

/-- A number with an exponent that is not smaller is a multiple of the same unit. -/
theorem value_of_le (h : n.e ≤ u.e) : ∃ m : Nat, u.value = m * 2^n.e := by
  obtain ⟨k, hk⟩ := Int.eq_ofNat_of_zero_le (sub_nonneg.mpr h)
  refine ⟨u.f * 2^k, ?_⟩
  have hexp : u.e = k + n.e := by omega
  rw [value, hexp, zpow_add₀ (by norm_num), zpow_natCast]
  push_cast
  ring

/-- A number with a smaller exponent lies below all numbers with a first bit. -/
theorem value_of_lt (h : u.e < n.e) : u.value ≤ 2^(F.precision - 1) * 2^n.e - 2^n.e / 2 := by
  have hexp : (2 : ℚ)^u.e ≤ 2^(n.e - 1) := zpow_le_zpow_right₀ (by norm_num) (by omega)
  have hhalf : (2 : ℚ)^(n.e - 1) = 2^n.e / 2 := by
    rw [zpow_sub_one₀ (by norm_num)]
    ring
  have hpow : (2 : ℚ)^F.precision = 2 * 2^(F.precision - 1) := by
    rw [← pow_succ', Nat.sub_add_cancel F.precision_pos]
  have hf : (u.f : ℚ) ≤ 2^F.precision - 1 := by
    have hle : u.f + 1 ≤ 2^F.precision := u.lt
    have hcast : ((u.f + 1 : Nat) : ℚ) ≤ ((2^F.precision : Nat) : ℚ) := by exact_mod_cast hle
    push_cast at hcast
    linarith
  have hpos := n.zpow_pos
  rw [value]
  calc (u.f : ℚ) * 2^u.e ≤ (2^F.precision - 1) * (2^n.e / 2) := by
        rw [← hhalf]
        exact mul_le_mul hf hexp (by positivity) (by
          have hone : (1 : ℚ) ≤ 2^F.precision := one_le_pow₀ (by norm_num)
          linarith)
    _ = 2^(F.precision - 1) * 2^n.e - 2^n.e / 2 := by
        rw [hpow]
        ring

/-- Between a number and its neighbours there is no other number. -/
theorem gap (hne : u.value ≠ n.value) :
    u.value ≤ n.value - n.gapBelow ∨ n.value + 2^n.e ≤ u.value := by
  have hpos := n.zpow_pos
  rcases le_or_gt n.e u.e with hle | hlt
  · obtain ⟨m, hm⟩ := value_of_le hle
    rw [hm] at hne ⊢
    have hgap := n.gapBelow_le
    rcases Nat.lt_trichotomy m n.f with hcmp | hcmp | hcmp
    · have hcast : (m : ℚ) + 1 ≤ n.f := by exact_mod_cast hcmp
      have hmul := mul_le_mul_of_nonneg_right hcast hpos.le
      left
      rw [value]
      linarith
    · rw [hcmp] at hne
      exact absurd rfl hne
    · have hcast : (n.f : ℚ) + 1 ≤ m := by exact_mod_cast hcmp
      have hmul := mul_le_mul_of_nonneg_right hcast hpos.le
      right
      rw [value]
      linarith
  · -- the number has its first bit, since its exponent is not the least
    have hnormal := n.normal (lt_of_le_of_lt u.ge hlt)
    have hvalue := value_of_lt hlt
    left
    rw [gapBelow]
    split_ifs with hfirst
    · have hn : n.value = (2^(F.precision - 1) : Nat) * 2^n.e := by rw [value, hfirst.1]
      rw [hn]
      push_cast
      exact hvalue
    · have hmore : 2^(F.precision - 1) + 1 ≤ n.f := by
        rcases Nat.lt_or_eq_of_le hnormal with h | h
        · exact h
        · exact absurd ⟨h.symm, lt_of_le_of_lt u.ge hlt⟩ hfirst
      have hcast : ((2^(F.precision - 1) + 1 : Nat) : ℚ) ≤ n.f := by exact_mod_cast hmore
      push_cast at hcast
      have hmul := mul_le_mul_of_nonneg_right hcast hpos.le
      have hn : n.value = n.f * 2^n.e := rfl
      linarith

/-- Each other number is farther away: whoever rounds to nearest, reads `n`. -/
def Reads (x : ℚ) (n : F.Number) : Prop := ∀ u : F.Number, u.value ≠ n.value →
  |x - n.value| < |x - u.value|

/-- What lies in the rounding interval reads as the number. -/
theorem reads_of_between (hlo : n.lower < x) (hhi : x < n.upper) : Reads x n := by
  intro u hne
  rw [lower] at hlo
  rw [upper] at hhi
  have hpos := n.gapBelow_pos
  have hgap := n.gapBelow_le
  rcases gap hne with hbelow | habove
  · have hfar : x - u.value ≤ |x - u.value| := le_abs_self _
    refine lt_of_lt_of_le (abs_lt.mpr ⟨?_, ?_⟩) hfar <;> linarith
  · have hfar : -(x - u.value) ≤ |x - u.value| := neg_le_abs _
    refine lt_of_lt_of_le (abs_lt.mpr ⟨?_, ?_⟩) hfar <;> linarith

/-- The next larger number. -/
def succ (n : F.Number) : F.Number :=
  if h : n.f + 1 < 2^F.precision then
    ⟨n.f + 1, n.e, h, n.ge, fun hlt => (n.normal hlt).trans (Nat.le_succ _)⟩
  else
    ⟨2^(F.precision - 1), n.e + 1,
      Nat.pow_lt_pow_right (by decide) (Nat.sub_lt F.precision_pos Nat.one_pos),
      n.ge.trans (Int.le_add_one le_rfl), fun _ => le_rfl⟩

theorem succ_value (n : F.Number) : n.succ.value = n.value + 2^n.e := by
  rw [succ]
  split_ifs with h
  · rw [value, value]
    push_cast
    ring
  · have hlt := n.lt
    have hf : n.f + 1 = 2 * 2^(F.precision - 1) := by
      rw [← pow_succ', Nat.sub_add_cancel F.precision_pos]
      omega
    have hcast : (n.f : ℚ) + 1 = 2 * 2^(F.precision - 1) := by exact_mod_cast hf
    rw [value, value, zpow_add_one₀ two_ne_zero]
    push_cast
    linear_combination -(2 : ℚ)^n.e * hcast

/-- The next smaller number, of one that is not zero. -/
def pred (n : F.Number) : F.Number :=
  if h : n.f = 2^(F.precision - 1) ∧ F.minExp < n.e then
    ⟨2^F.precision - 1, n.e - 1, Nat.sub_lt (Nat.two_pow_pos _) Nat.one_pos,
      Int.le_sub_one_of_lt h.2, fun _ => Nat.le_sub_one_of_lt
        (Nat.pow_lt_pow_right (by decide) (Nat.sub_lt F.precision_pos Nat.one_pos))⟩
  else
    ⟨n.f - 1, n.e, (Nat.sub_le _ _).trans_lt n.lt, n.ge, fun hlt => Nat.le_sub_one_of_lt
      (lt_of_le_of_ne (n.normal hlt) fun heq => h ⟨heq.symm, hlt⟩)⟩

theorem pred_value (hpos : 0 < n.f) : n.pred.value = n.value - n.gapBelow := by
  rw [pred, gapBelow]
  split_ifs with h
  · have hpow : (2 : ℚ)^F.precision = 2 * 2^(F.precision - 1) := by
      rw [← pow_succ', Nat.sub_add_cancel F.precision_pos]
    rw [value, value, h.1, zpow_sub_one₀ two_ne_zero, Nat.cast_pred (Nat.two_pow_pos _)]
    push_cast
    rw [hpow]
    ring
  · rw [value, value, Nat.cast_pred hpos]
    ring

/-- Only what lies in the rounding interval reads as the number. -/
theorem between_of_reads (hpos : 0 < n.f) (h : Reads x n) : n.lower < x ∧ x < n.upper := by
  have hgap := n.gapBelow_pos
  have hulp := n.zpow_pos
  have hpred := h n.pred (by
    rw [pred_value hpos]
    linarith)
  have hsucc := h n.succ (by
    rw [succ_value]
    linarith)
  rw [pred_value hpos] at hpred
  rw [succ_value] at hsucc
  rw [lower, upper]
  constructor
  · by_contra hle
    rw [abs_of_nonpos (by linarith)] at hpred
    exact not_le.mpr hpred (abs_le.mpr ⟨by linarith, by linarith⟩)
  · by_contra hle
    rw [abs_of_nonneg (by linarith)] at hsucc
    exact not_le.mpr hsucc (abs_le.mpr ⟨by linarith, by linarith⟩)

/-- What is closer to the number than half of the gap below it reads as the number. -/
theorem reads_of_near (h : 2 * |x - n.value| < n.gapBelow) : Reads x n := by
  have hgap := n.gapBelow_le
  obtain ⟨hlo, hhi⟩ := abs_lt.mp (show |x - n.value| < n.gapBelow / 2 by linarith)
  refine reads_of_between ?_ ?_
  · rw [lower]
    linarith
  · rw [upper]
    linarith

end Number

/-- The format of `double`, but for the largest exponent. -/
def binary64 : BinaryFormat := ⟨53, -1074, by decide⟩

/-- The bits of a `double` that is positive and finite. -/
structure PositiveDouble where
  bits : UInt64
  pos : 0 < bits.toNat
  finite : bits.toNat < 2047 * 2^52

namespace PositiveDouble

def fraction (d : PositiveDouble) : Nat := d.bits.toNat % 2^52

def biased (d : PositiveDouble) : Nat := d.bits.toNat / 2^52

/-- The number that the bits stand for. -/
def number (d : PositiveDouble) : binary64.Number where
  f := if d.biased = 0 then d.fraction else 2^52 + d.fraction
  e := (max d.biased 1 : Nat) - 1075
  lt := by
    have hlt := Nat.mod_lt d.bits.toNat (Nat.two_pow_pos 52)
    have hp : binary64.precision = 53 := rfl
    rw [hp, fraction]
    split_ifs <;> omega
  ge := by
    have he : binary64.minExp = -1074 := rfl
    omega
  normal := by
    have he : binary64.minExp = -1074 := rfl
    have hp : binary64.precision - 1 = 52 := rfl
    intro hlt
    rw [hp, if_neg (by omega)]
    omega

theorem number_f_pos (d : PositiveDouble) : 0 < d.number.f := by
  have hpos := d.pos
  rw [number]
  dsimp only
  rw [biased, fraction]
  split_ifs <;> omega

theorem number_f_lt (d : PositiveDouble) : d.number.f < 2^53 := d.number.lt

theorem number_e_le (d : PositiveDouble) : -1074 ≤ d.number.e ∧ d.number.e ≤ 971 := by
  have hfinite := d.finite
  rw [number]
  dsimp only
  rw [biased]
  omega

/-- Sixteen digits behind the first one are finer than the gaps. -/
theorem lt_gapBelow (d : PositiveDouble) : d.number.value < 10^16 * d.number.gapBelow := by
  have hpos := d.number.zpow_pos
  rw [Number.value, Number.gapBelow]
  split_ifs with hfirst
  · have hp : binary64.precision - 1 = 52 := rfl
    rw [hfirst.1, hp]
    push_cast
    linarith
  · have hf : (d.number.f : ℚ) < 2^53 := by exact_mod_cast d.number_f_lt
    have hmul := mul_lt_mul_of_pos_right hf hpos
    linarith

/-- The exponents of ten between which the numbers lie. -/
theorem number_bounds (d : PositiveDouble) :
    (10 : ℚ)^(-325 : Int) < d.number.lower ∧ d.number.upper < 10^(309 : Int) := by
  obtain ⟨hge, hle⟩ := d.number_e_le
  have hf : (1 : ℚ) ≤ d.number.f := by exact_mod_cast d.number_f_pos
  have hf' : (d.number.f : ℚ) + 1 ≤ 2^53 := by exact_mod_cast d.number_f_lt
  have hpos := d.number.zpow_pos
  have hgap := d.number.gapBelow_le
  have hsmall : (2 : ℚ)^(-1074 : Int) ≤ 2^d.number.e := zpow_le_zpow_right₀ (by norm_num) hge
  have hlarge : (2 : ℚ)^d.number.e ≤ 2^(971 : Int) := zpow_le_zpow_right₀ (by norm_num) hle
  have hten : 2 * 2^1074 < 10^325 := by decide +kernel
  have hten' : 2^53 * 2^971 < 10^309 := by decide +kernel
  have hlo : (10 : ℚ)^(-325 : Int) < 2^(-1074 : Int) / 2 := by
    rw [show (-325 : Int) = -(325 : Nat) from rfl, show (-1074 : Int) = -(1074 : Nat) from rfl,
      zpow_neg, zpow_neg, zpow_natCast, zpow_natCast, inv_eq_one_div, inv_eq_one_div, div_div,
      div_lt_div_iff₀ (by positivity) (by positivity), one_mul, one_mul, mul_comm]
    exact_mod_cast hten
  have hhi : (2 : ℚ)^53 * 2^(971 : Int) < 10^(309 : Int) := by exact_mod_cast hten'
  have hmul := mul_le_mul_of_nonneg_right hf hpos.le
  have hmul' := mul_le_mul_of_nonneg_right hf' hpos.le
  constructor
  · rw [Number.lower, Number.value]
    linarith
  · have htop := mul_le_mul_of_nonneg_left hlarge (show (0 : ℚ) ≤ 2^53 by positivity)
    rw [Number.upper, Number.value]
    generalize (2 : ℚ)^(971 : Int) = largest at *
    generalize (10 : ℚ)^(309 : Int) = bound at *
    linarith

end PositiveDouble

end BinaryFormat

end MuduoServer
