import Mathlib.Tactic.FieldSimp
import MuduoServer.Framework.Decimal
import MuduoServer.Log.Grisu3Loops

namespace MuduoServer.Grisu3

open BinaryFormat (PositiveDouble)
open BinaryFormat.Number (Reads between_of_reads reads_of_between)

/-- The decimal that the digits stand for. -/
def Digits.value (r : Digits) : ℚ := digitsValue 0 r.buffer * 10^r.kappa

/-- Digits from which the number is read back, with none too many, and the closest of these. -/
structure Shortest (d : PositiveDouble) (r : Digits) : Prop where
  reads : Reads r.value d.number
  no_coarser : ∀ m : Nat, ¬Reads (m * 10^(r.kappa + 1)) d.number
  closest : ∀ m : Nat, Reads (m * 10^r.kappa) d.number →
    |r.value - d.number.value| ≤ |m * 10^r.kappa - d.number.value|

section Unscaled

variable {d : PositiveDouble} {low w high : DiyFp} {mk : Int} {n : Nat}

theorem scale_pos : (0 : ℚ) < 10^mk * 2^n := by positivity

theorem scaled_decimal (m : Nat) (kappa : Int) :
    (m * 10^(kappa - mk) : ℚ) * (10^mk * 2^n) = decimalAt n m kappa := by
  rw [decimalAt, zpow_sub₀ (by norm_num)]
  field_simp

/-- In units of `2^-n` an error is less than one. -/
theorem near_scaled {x f : ℚ} (hn : w.e = -n) (h : |x * 10^mk - f * 2^w.e| < 2^w.e) :
    |x * (10^mk * 2^n) - f| < 1 := by
  have hpos : (0 : ℚ) < 2^n := by positivity
  rw [hn, zpow_neg, zpow_natCast] at h
  have hmul := mul_lt_mul_of_pos_right h hpos
  rw [inv_mul_cancel₀ hpos.ne', ← abs_of_pos hpos, ← abs_mul, abs_of_pos hpos] at hmul
  rw [sub_mul, mul_assoc f, inv_mul_cancel₀ hpos.ne', mul_one, mul_assoc] at hmul
  exact hmul

/-- The distance of a decimal from the number, in units of `2^-n`. -/
theorem scaled_distance (x : ℚ) (v : ℚ) :
    |x - v| * (10^mk * 2^n) = |x * (10^mk * 2^n) - v * (10^mk * 2^n)| := by
  rw [← sub_mul, abs_mul, abs_of_pos scale_pos]

/-- What `digit_gen` promises, for the number itself. -/
theorem Generated.unscale {r : Digits} (h : Scaled d low w high mk) (hn : w.e = -n)
    (hr : Generated (high.f.toNat + 1) (high.f.toNat + 2 - low.f.toNat)
      (high.f.toNat + 1 - w.f.toNat) n r) :
    (∀ m : Nat, ¬((m : ℚ) * 10^(r.kappa - mk + 1) ∈ Set.Ioo (boundaryBelow d) d.number.upper)) ∧
      (r.success = true →
        (digitsValue 0 r.buffer * 10^(r.kappa - mk) : ℚ) ∈
          Set.Ioo (boundaryBelow d) d.number.upper ∧
        ∀ m : Nat, (m * 10^(r.kappa - mk) : ℚ) ∈ Set.Ioo (boundaryBelow d) d.number.upper →
          |digitsValue 0 r.buffer * 10^(r.kappa - mk) - d.number.value| ≤
            |(m * 10^(r.kappa - mk) : ℚ) - d.number.value|) := by
  have hscale : (0 : ℚ) < 10^mk * 2^n := scale_pos
  have hlow := abs_lt.mp (near_scaled hn h.low_near)
  have hhigh := abs_lt.mp (near_scaled hn h.high_near)
  have hw := near_scaled hn h.w_near
  have hlo := h.low_lt
  have hhi := h.lt_high
  have hbottom : ((high.f.toNat + 1 : Nat) : ℚ) - (high.f.toNat + 2 - low.f.toNat : Nat) =
      low.f.toNat - 1 := by
    rw [Nat.cast_sub (by omega)]
    push_cast
    ring
  have hcentre : ((high.f.toNat + 1 : Nat) : ℚ) - (high.f.toNat + 1 - w.f.toNat : Nat) =
      w.f.toNat := by
    rw [Nat.cast_sub (by omega)]
    push_cast
    ring
  have htop : ((high.f.toNat + 1 : Nat) : ℚ) = high.f.toNat + 1 := by push_cast; rfl
  have hscaled : ∀ (m : Nat) (kappa : Int), (m * 10^(kappa - mk) : ℚ) ∈
      Set.Ioo (boundaryBelow d) d.number.upper → (low.f.toNat : ℚ) - 1 < decimalAt n m kappa ∧
        decimalAt n m kappa < high.f.toNat + 1 := by
    intro m kappa hmem
    have hmul := mul_lt_mul_of_pos_right hmem.1 hscale
    have hmul' := mul_lt_mul_of_pos_right hmem.2 hscale
    rw [scaled_decimal] at hmul hmul'
    constructor <;> linarith
  refine ⟨?_, ?_⟩
  · intro m hmem
    rw [sub_add_eq_add_sub] at hmem
    obtain ⟨hm, hm'⟩ := hscaled m (r.kappa + 1) hmem
    have hle := hr.shortest m (by
      rw [htop]
      exact hm'.le)
    rw [hbottom] at hle
    linarith
  · intro hsuccess
    obtain ⟨hinside, hinside'⟩ := hr.inside hsuccess
    rw [hbottom] at hinside
    rw [htop] at hinside'
    refine ⟨⟨?_, ?_⟩, ?_⟩
    · refine lt_of_mul_lt_mul_right ?_ hscale.le
      rw [scaled_decimal]
      linarith
    · refine lt_of_mul_lt_mul_right ?_ hscale.le
      rw [scaled_decimal]
      linarith
    · intro m hmem
      obtain ⟨hm, hm'⟩ := hscaled m r.kappa hmem
      have hclosest := hr.closest hsuccess (d.number.value * (10^mk * 2^n))
        (by rwa [hcentre]) m (by rw [hbottom]; exact hm.le) (by rw [htop]; exact hm'.le)
      refine le_of_mul_le_mul_right ?_ hscale
      rwa [scaled_distance, scaled_distance, scaled_decimal, scaled_decimal]

end Unscaled

/-- Except at the smallest number with an implicit bit, the boundary is that of the number. -/
theorem boundaryBelow_eq {d : PositiveDouble} (h : d.bits.toNat ≠ 2^52) :
    boundaryBelow d = d.number.lower := by
  have hfirst : (d.fraction = 0 ∧ d.biased ≠ 0) ↔
      (d.number.f = 2^52 ∧ BinaryFormat.binary64.minExp < d.number.e) := by
    have he : BinaryFormat.binary64.minExp = -1074 := rfl
    rw [PositiveDouble.number, he]
    dsimp only
    rw [PositiveDouble.fraction, PositiveDouble.biased]
    split_ifs with hb <;> omega
  rw [boundaryBelow, BinaryFormat.Number.lower, BinaryFormat.Number.gapBelow,
    show BinaryFormat.binary64.precision - 1 = 52 from rfl]
  by_cases hclose : d.fraction = 0 ∧ d.biased ≠ 0
  · rw [if_pos hclose, if_pos (hfirst.mp hclose)]
    ring
  · rw [if_neg hclose, if_neg (mt hfirst.mpr hclose)]

theorem reads_iff {d : PositiveDouble} {x : ℚ} :
    Reads x d.number ↔ x ∈ Set.Ioo d.number.lower d.number.upper :=
  ⟨between_of_reads d.number_f_pos, fun h => reads_of_between h.1 h.2⟩

/-- Both units at the smallest number with an implicit bit. -/
theorem smallest_ratio : (494065645841246544176 : ℚ) * 10^(-324 : Int) ≤ 10^20 * 2^(-1074 : Int) ∧
    (10 : ℚ)^20 * 2^(-1074 : Int) ≤ 494065645841246544177 * 10^(-324 : Int) := by
  have hlo : 494065645841246544176 * 2^1074 ≤ 10^20 * 10^324 := by decide +kernel
  have hhi : 10^20 * 10^324 ≤ 494065645841246544177 * 2^1074 := by decide +kernel
  rw [show (-324 : Int) = -(324 : Nat) from rfl, show (-1074 : Int) = -(1074 : Nat) from rfl,
    zpow_neg, zpow_neg, zpow_natCast, zpow_natCast]
  constructor
  · rw [← div_eq_mul_inv, ← div_eq_mul_inv, div_le_div_iff₀ (by positivity) (by positivity)]
    exact_mod_cast hlo
  · rw [← div_eq_mul_inv, ← div_eq_mul_inv, div_le_div_iff₀ (by positivity) (by positivity)]
    exact_mod_cast hhi

/-- The digits of the smallest number with an implicit bit. -/
theorem shortest_of_smallest {d : PositiveDouble} (h : d.bits.toNat = 2^52) {r : Digits}
    (hr : grisu3 d.bits = some r) : Shortest d r := by
  have hbits : d.bits = 0x0010000000000000 := UInt64.toNat_inj.mp h
  have hgrisu : grisu3 0x0010000000000000 = some ⟨true,
      [50, 50, 50, 53, 48, 55, 51, 56, 53, 56, 53, 48, 55, 50, 48, 49, 52], -324⟩ := by
    decide +kernel
  rw [hbits, hgrisu, Option.some.injEq] at hr
  have hkappa : r.kappa = -324 := by rw [← hr]
  have hdigits : digitsValue 0 r.buffer = 22250738585072014 := by
    rw [← hr]
    decide
  have hbiased : d.biased = 1 := by
    rw [PositiveDouble.biased, h]
    rfl
  have hf : d.number.f = 2^52 := by
    rw [PositiveDouble.number]
    dsimp only
    rw [if_neg (by omega), PositiveDouble.fraction, h]
    rfl
  have he : d.number.e = -1074 := by
    rw [PositiveDouble.number]
    dsimp only
    rw [hbiased]
    rfl
  have hvalue : d.number.value = 2^52 * 2^d.number.e := by
    rw [BinaryFormat.Number.value, hf]
    push_cast
    rfl
  have hlower : d.number.lower = d.number.value - 2^d.number.e / 2 := by
    rw [BinaryFormat.Number.lower, BinaryFormat.Number.gapBelow, if_neg]
    rw [he]
    exact fun hmin => absurd hmin.2 (by decide)
  have hupper : d.number.upper = d.number.value + 2^d.number.e / 2 := rfl
  have hpos : (0 : ℚ) < 10^(-324 : Int) := by positivity
  obtain ⟨hratio, hratio'⟩ := smallest_ratio
  rw [← he] at hratio hratio'
  have hten : (10 : ℚ)^(-324 + 1 : Int) = 10 * 10^(-324 : Int) := by
    rw [zpow_add_one₀ (by norm_num), mul_comm]
  refine ⟨?_, ?_, ?_⟩
  · rw [Digits.value, hdigits, hkappa, reads_iff, hlower, hupper, hvalue]
    constructor <;> linarith
  · intro m
    rw [hkappa, hten, reads_iff, hlower, hupper, hvalue]
    rintro ⟨hlo, hhi⟩
    rcases le_or_gt m 2225073858507201 with hm | hm
    · have hcast : (m : ℚ) ≤ 2225073858507201 := by exact_mod_cast hm
      have hmul := mul_le_mul_of_nonneg_right hcast hpos.le
      linarith
    · have hcast : (2225073858507202 : ℚ) ≤ m := by exact_mod_cast hm
      have hmul := mul_le_mul_of_nonneg_right hcast hpos.le
      linarith
  · rintro m -
    rw [Digits.value, hdigits, hkappa, hvalue]
    generalize (2 : ℚ)^d.number.e = b at *
    generalize (10 : ℚ)^(-324 : Int) = a at *
    rcases Nat.lt_trichotomy m 22250738585072014 with hm | rfl | hm
    · have hcast : (m : ℚ) ≤ 22250738585072013 := by exact_mod_cast Nat.le_sub_one_of_lt hm
      have hmul := mul_le_mul_of_nonneg_right hcast hpos.le
      refine le_trans (abs_le.mpr ⟨?_, ?_⟩) (neg_le_abs _) <;> push_cast <;> linarith
    · rfl
    · have hcast : (22250738585072015 : ℚ) ≤ m := by exact_mod_cast hm
      have hmul := mul_le_mul_of_nonneg_right hcast hpos.le
      refine le_trans (abs_le.mpr ⟨?_, ?_⟩) (le_abs_self _) <;> push_cast <;> linarith

/-- `grisu3` returns digits without a leading zero, seventeen at most. -/
theorem grisu3_returns (d : PositiveDouble) : ∃ r, grisu3 d.bits = some r ∧
    Leading r.buffer ∧ r.buffer ≠ [] ∧ r.buffer.length ≤ 17 ∧
      (r.success = true → Shortest d r) := by
  obtain ⟨low, w, high, mk, hscaled, hgrisu⟩ := grisu3_scaled d
  obtain ⟨r, hgen, hr⟩ := digitGen_generated hscaled
  rw [hgen, Option.map_some] at hgrisu
  have he : w.e = -(-w.e).toNat := by
    have hle := hscaled.e_le
    omega
  obtain ⟨hcoarse, hsuccess⟩ := hr.unscale hscaled he
  refine ⟨_, hgrisu, hr.leading, hr.nonempty, hr.length_le, fun hs => ?_⟩
  obtain ⟨hinside, hclosest⟩ := hsuccess hs
  by_cases hsmallest : d.bits.toNat = 2^52
  · exact shortest_of_smallest hsmallest hgrisu
  · rw [boundaryBelow_eq hsmallest] at hcoarse hinside hclosest
    exact ⟨reads_iff.mpr hinside, fun m h => hcoarse m (reads_iff.mp h),
      fun m h => hclosest m (reads_iff.mp h)⟩

/-- When `grisu3` reports success, its digits are read back as the number; no decimal that is read
back as the number has fewer digits, and none with the same exponent is closer to it. -/
theorem grisu3_shortest (d : PositiveDouble) : ∃ r, grisu3 d.bits = some r ∧
    r.buffer.length ≤ 17 ∧ (r.success = true → Reads r.value d.number ∧
      (∀ (m : Nat) (k : Int), Reads (m * 10^k) d.number → 10^(r.buffer.length - 1) ≤ m) ∧
      ∀ m : Nat, Reads (m * 10^r.kappa) d.number →
        |r.value - d.number.value| ≤ |m * 10^r.kappa - d.number.value|) := by
  obtain ⟨r, hr, hleading, hne, hlen, hshortest⟩ := grisu3_returns d
  refine ⟨r, hr, hlen, fun hs => ?_⟩
  have hshort := hshortest hs
  refine ⟨hshort.reads, fun m k hm => ?_, hshort.closest⟩
  exact digits_le_of_no_coarser Set.ordConnected_Ioo
    (fun j hj => hshort.no_coarser j (reads_iff.mpr hj)) (reads_iff.mp hshort.reads)
    (hleading.pow_le hne) (reads_iff.mp hm)

end MuduoServer.Grisu3
