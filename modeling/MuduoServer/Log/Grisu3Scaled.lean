import Mathlib.Tactic.LinearCombination
import MuduoServer.Framework.BinaryFormat
import MuduoServer.Log.Grisu3Powers

namespace MuduoServer.Grisu3

open BinaryFormat (PositiveDouble)

/-- `multiply` by a power that is off by half a unit at most is off by less than a unit. -/
theorem multiply_near (x : DiyFp) {c : DiyFp} {power : ℚ}
    (hc : |power - c.f.toNat * 2^c.e| ≤ 2^c.e / 2) :
    |x.f.toNat * 2^x.e * power - (multiply x c).f.toNat * 2^(multiply x c).e| <
      2^(multiply x c).e := by
  have hx : (x.f.toNat : ℚ) < 2^64 := by exact_mod_cast x.f.toNat_lt
  have hround : 2 * (x.f.toNat * c.f.toNat) ≤ 2 * (2^64 * (multiply x c).f.toNat) + 2^64 ∧
      2 * (2^64 * (multiply x c).f.toNat) ≤ 2 * (x.f.toNat * c.f.toNat) + 2^64 := by
    rw [multiply_f]
    omega
  have hlo : (2 * (x.f.toNat * c.f.toNat) : ℚ) ≤ 2 * (2^64 * (multiply x c).f.toNat) + 2^64 := by
    exact_mod_cast hround.1
  have hhi : (2 * (2^64 * (multiply x c).f.toNat) : ℚ) ≤ 2 * (x.f.toNat * c.f.toNat) + 2^64 := by
    exact_mod_cast hround.2
  have he : (2 : ℚ)^(multiply x c).e = 2^x.e * 2^c.e * 2^64 := by
    rw [show (multiply x c).e = x.e + c.e + (64 : Nat) from rfl, zpow_add₀ two_ne_zero,
      zpow_add₀ two_ne_zero, zpow_natCast]
  have hxe : (0 : ℚ) < 2^x.e := by positivity
  have hce : (0 : ℚ) < 2^c.e := by positivity
  rw [he]
  generalize (multiply x c).f.toNat = r at hlo hhi ⊢
  generalize (2 : ℚ)^x.e = p at hxe ⊢
  generalize (2 : ℚ)^c.e = q at hc hce ⊢
  rw [abs_le] at hc
  have hpq := mul_pos hxe hce
  have hxp : 0 ≤ (x.f.toNat : ℚ) * p := mul_nonneg (Nat.cast_nonneg _) hxe.le
  have hlower := mul_le_mul_of_nonneg_left hc.1 hxp
  have hupper := mul_le_mul_of_nonneg_left hc.2 hxp
  have hloRound := mul_le_mul_of_nonneg_right hlo hpq.le
  have hhiRound := mul_le_mul_of_nonneg_right hhi hpq.le
  have hxpq := mul_lt_mul_of_pos_right hx hpq
  rw [abs_lt]
  constructor <;> linarith

theorem double2diyFp_eq (d : PositiveDouble) :
    (double2diyFp d.bits).f.toNat = d.number.f ∧ (double2diyFp d.bits).e = d.number.e := by
  have hfinite := d.finite
  have hexp : (d.bits &&& D64_EXP_MASK).toNat = d.biased * 2^52 := by
    rw [toNat_land_mask (j := 11) (k := 52) (by decide), PositiveDouble.biased]
    omega
  have hfract : (d.bits &&& D64_FRACT_MASK).toNat = d.fraction := by
    rw [toNat_land_mask (j := 52) (k := 0) (by decide), PositiveDouble.fraction]
    omega
  have hzero : d.bits &&& D64_EXP_MASK = 0 ↔ d.biased = 0 := by
    rw [← UInt64.toNat_inj, hexp, UInt64.toNat_zero]
    omega
  have hlt : d.fraction < 2^52 := Nat.mod_lt _ (Nat.two_pow_pos 52)
  rw [double2diyFp, PositiveDouble.number]
  dsimp only
  by_cases hb : d.biased = 0
  · rw [if_pos (hzero.mpr hb), if_pos hb, hb]
    exact ⟨hfract, rfl⟩
  · have hshift : ((d.bits &&& D64_EXP_MASK) >>> D64_EXP_POS).toNat = d.biased := by
      rw [UInt64.toNat_shiftRight, hexp, show D64_EXP_POS.toNat % 64 = 52 from rfl,
        Nat.shiftRight_eq_div_pow, Nat.mul_div_cancel _ (Nat.two_pow_pos 52)]
    rw [if_neg (mt hzero.mp hb), if_neg hb]
    dsimp only
    rw [hshift, UInt64.toNat_add, hfract, show D64_IMPLICIT_ONE.toNat = 2^52 from rfl,
      show D64_EXP_BIAS = 1075 from rfl]
    omega

/-- The lower boundary that `grisu3` uses. At the least exponent it takes the numbers below a power
of two for closer than they are. -/
def boundaryBelow (d : PositiveDouble) : ℚ :=
  if d.fraction = 0 ∧ d.biased ≠ 0 then d.number.value - 2^d.number.e / 4
  else d.number.value - 2^d.number.e / 2

/-- The number and its boundaries, times a power of ten, as `digit_gen` is given them. -/
structure Scaled (d : PositiveDouble) (low w high : DiyFp) (mk : Int) : Prop where
  low_e : low.e = w.e
  high_e : high.e = w.e
  e_ge : -60 ≤ w.e
  e_le : w.e ≤ -32
  low_near : |boundaryBelow d * 10^mk - low.f.toNat * 2^w.e| < 2^w.e
  w_near : |d.number.value * 10^mk - w.f.toNat * 2^w.e| < 2^w.e
  high_near : |d.number.upper * 10^mk - high.f.toNat * 2^w.e| < 2^w.e
  low_pos : 2^61 ≤ low.f.toNat
  w_pos : 2^62 ≤ w.f.toNat
  low_lt : low.f.toNat + 255 ≤ w.f.toNat
  lt_high : w.f.toNat + 511 ≤ high.f.toNat
  high_lt : high.f.toNat + 511 < 2^64
  /-- Seventeen digits tell the number from its neighbours. -/
  room : high.f.toNat + 1 < 10^16 * (high.f.toNat + 2 - low.f.toNat)

/-- The significands, when `r` and two more is the shift that normalizes `f`. -/
theorem significands_of_normalized {f r : Nat} (hlo : 2^63 ≤ f * 2^(r + 2))
    (hhi : f * 2^(r + 2) < 2^64) (hf : f < 2^53) :
    2^9 ≤ 2^r ∧ r + 2 ≤ 63 ∧ 4 * (f * 2^r) + 4 * 2^r ≤ 2^64 := by
  have hpow : 2^(r + 2) = 4 * 2^r := by
    rw [pow_add]
    omega
  have hr : 9 ≤ r := by
    by_contra hlt
    have hle : 2^(r + 2) ≤ 2^10 := Nat.pow_le_pow_right (by decide) (by omega)
    have hmul : f * 2^(r + 2) < 2^53 * 2^10 := Nat.mul_lt_mul_of_lt_of_le hf hle (by decide)
    exact absurd hlo (Nat.not_le.mpr hmul)
  have hr' : r + 2 ≤ 63 := by
    by_contra hgt
    have hle : 2^64 ≤ 2^(r + 2) := Nat.pow_le_pow_right (by decide) (by omega)
    have hf0 : f ≠ 0 := by
      rintro rfl
      simp at hlo
    have hmul : 1 * 2^64 ≤ f * 2^(r + 2) := Nat.mul_le_mul (Nat.one_le_iff_ne_zero.mpr hf0) hle
    exact absurd hhi (Nat.not_lt.mpr hmul)
  refine ⟨Nat.pow_le_pow_right (by decide) hr, hr', ?_⟩
  -- both sides are multiples of the same power of two
  have htop : 2^64 = 2^(62 - r) * 2^(r + 2) := by
    rw [← pow_add]
    congr 1
    omega
  rw [htop] at hhi ⊢
  have hlt : f + 1 ≤ 2^(62 - r) := Nat.lt_of_mul_lt_mul_right hhi
  have hmul := Nat.mul_le_mul_right (2^(r + 2)) hlt
  rw [Nat.add_mul, hpow] at hmul
  rw [hpow]
  have hassoc : f * (4 * 2^r) = 4 * (f * 2^r) := by ring
  omega

/-- The boundary above is shifted by one bit less than the number. -/
theorem shift_of_boundary {f r t : Nat} (hlo : 2^63 ≤ f * 2^(r + 2))
    (hhi : f * 2^(r + 2) < 2^64) (hlo' : 2^63 ≤ (2 * f + 1) * 2^t) (hhi' : (2 * f + 1) * 2^t < 2^64)
    (hf : f < 2^53) : t = r + 1 := by
  obtain ⟨-, -, hsum⟩ := significands_of_normalized hlo hhi hf
  have hpow : 2^(r + 2) = 4 * 2^r := by
    rw [pow_add]
    omega
  have hassoc : f * (4 * 2^r) = 4 * (f * 2^r) := by ring
  rw [hpow, hassoc] at hlo hhi
  rcases Nat.lt_trichotomy t (r + 1) with hlt | heq | hgt
  · have hle : 2^t ≤ 2^r := Nat.pow_le_pow_right (by decide) (by omega)
    have hmul := Nat.mul_le_mul_left (2 * f + 1) hle
    have hexpand : (2 * f + 1) * 2^r = 2 * (f * 2^r) + 2^r := by ring
    omega
  · exact heq
  · have hle : 2^(r + 2) ≤ 2^t := Nat.pow_le_pow_right (by decide) (by omega)
    have hmul := Nat.mul_le_mul_left (2 * f + 1) hle
    have hexpand : (2 * f + 1) * (4 * 2^r) = 8 * (f * 2^r) + 4 * 2^r := by ring
    rw [hpow, hexpand] at hmul
    omega

/-- What is subtracted for the lower boundary, in quarters of the unit. -/
def quartersBelow (d : PositiveDouble) : Nat := if d.fraction = 0 ∧ d.biased ≠ 0 then 1 else 2

/-- The number and the boundaries above and below it, normalized to one exponent. -/
structure Normalized (d : PositiveDouble) (bMinus w bPlus : DiyFp) (r : Nat) : Prop where
  w_f : w.f.toNat = 4 * (d.number.f * 2^r)
  w_e : w.e = d.number.e - (r + 2)
  plus_f : bPlus.f.toNat = 4 * (d.number.f * 2^r) + 2 * 2^r
  plus_e : bPlus.e = w.e
  minus_f : bMinus.f.toNat + quartersBelow d * 2^r = 4 * (d.number.f * 2^r)
  minus_e : bMinus.e = w.e
  first : 2^63 ≤ w.f.toNat
  shift_ge : 2^9 ≤ 2^r
  shift_le : r + 2 ≤ 63
  room : 4 * (d.number.f * 2^r) + 4 * 2^r ≤ 2^64

theorem normalize_w (d : PositiveDouble) :
    ∃ w, ∃ r : Nat, normalizeDiyFp (double2diyFp d.bits) = some w ∧
      w.f.toNat = d.number.f * 2^(r + 2) ∧ w.e = d.number.e - (r + 2) ∧ 2^63 ≤ w.f.toNat := by
  obtain ⟨hf, he⟩ := double2diyFp_eq d
  have hpos := d.number_f_pos
  obtain ⟨w, s, hw, hwf, hwe, hfirst⟩ := normalizeDiyFp_returns (double2diyFp d.bits) (by omega)
  rw [hf] at hwf
  rw [he] at hwe
  obtain ⟨r, rfl⟩ : ∃ r, s = r + 2 := by
    refine ⟨s - 2, ?_⟩
    by_contra hne
    have hle : 2^s ≤ 2 := by
      have hs : s ≤ 1 := by omega
      exact Nat.pow_le_pow_right (by decide) hs
    have hlt := d.number_f_lt
    have hmul := Nat.mul_le_mul_left d.number.f hle
    omega
  refine ⟨w, r, hw, hwf, ?_, hfirst⟩
  rw [hwe]
  push_cast
  rfl

theorem lowerBoundary_eq (d : PositiveDouble) :
    ∃ q : Nat, (lowerBoundary d.bits (double2diyFp d.bits)).e = d.number.e - (q + 1) ∧
      (lowerBoundary d.bits (double2diyFp d.bits)).f.toNat + 1 = d.number.f * 2^(q + 1) ∧
      q ≤ 1 ∧ quartersBelow d * 2^q = 2 := by
  obtain ⟨hf, he⟩ := double2diyFp_eq d
  have hpos := d.number_f_pos
  have hlt := d.number_f_lt
  have hfract : d.bits &&& D64_FRACT_MASK = 0 ↔ d.fraction = 0 := by
    rw [land_mask_eq_zero (j := 52) (k := 0) (by decide), PositiveDouble.fraction]
    omega
  have hexp : d.bits &&& D64_EXP_MASK = 0 ↔ d.biased = 0 := by
    have hfinite := d.finite
    rw [land_mask_eq_zero (j := 11) (k := 52) (by decide), PositiveDouble.biased]
    omega
  have hcond : (d.bits &&& D64_FRACT_MASK = 0 ∧ d.bits &&& D64_EXP_MASK ≠ 0) ↔
      (d.fraction = 0 ∧ d.biased ≠ 0) := and_congr hfract (not_congr hexp)
  rw [lowerBoundary, quartersBelow]
  by_cases hclose : d.fraction = 0 ∧ d.biased ≠ 0
  · have hshift := toNat_shiftLeft (x := (double2diyFp d.bits).f) (a := 2) (k := 2) rfl
      (by decide) (by omega)
    refine ⟨1, ?_⟩
    rw [if_pos (hcond.mpr hclose), if_pos hclose]
    dsimp only
    rw [he, UInt64.toNat_sub, hshift, hf, show UInt64.toNat 1 = 1 from rfl]
    omega
  · have hshift := toNat_shiftLeft (x := (double2diyFp d.bits).f) (a := 1) (k := 1) rfl
      (by decide) (by omega)
    refine ⟨0, ?_⟩
    rw [if_neg (mt hcond.mp hclose), if_neg hclose]
    dsimp only
    rw [he, UInt64.toNat_sub, hshift, hf, show UInt64.toNat 1 = 1 from rfl]
    omega

theorem grisu3_normalizes (d : PositiveDouble) :
    ∃ bMinus w bPlus r, Normalized d bMinus w bPlus r ∧
      normalizeDiyFp (double2diyFp d.bits) = some w ∧
      normalizeDiyFp ⟨((double2diyFp d.bits).f <<< 1) + 1, (double2diyFp d.bits).e - 1⟩ =
        some bPlus ∧
      (⟨(lowerBoundary d.bits (double2diyFp d.bits)).f <<<
        UInt64.ofNat ((lowerBoundary d.bits (double2diyFp d.bits)).e - bPlus.e).toNat,
          bPlus.e⟩ : DiyFp) = bMinus := by
  obtain ⟨hf, he⟩ := double2diyFp_eq d
  have hpos := d.number_f_pos
  have hlt := d.number_f_lt
  obtain ⟨w, r, hw, hwf, hwe, hfirst⟩ := normalize_w d
  have hwlt := w.f.toNat_lt
  have hplus : (((double2diyFp d.bits).f <<< 1) + 1).toNat = 2 * d.number.f + 1 := by
    have hshift := toNat_shiftLeft (x := (double2diyFp d.bits).f) (a := 1) (k := 1) rfl
      (by decide) (by omega)
    rw [UInt64.toNat_add, hshift, hf, show UInt64.toNat 1 = 1 from rfl]
    omega
  obtain ⟨bPlus, t, hb, hbf, hbe, hbfirst⟩ := normalizeDiyFp_returns
    ⟨((double2diyFp d.bits).f <<< 1) + 1, (double2diyFp d.bits).e - 1⟩ (by
      dsimp only
      omega)
  have hblt := bPlus.f.toNat_lt
  dsimp only at hbf hbe
  rw [hplus] at hbf
  rw [he] at hbe
  rw [hwf] at hfirst hwlt
  rw [hbf] at hbfirst hblt
  have ht := shift_of_boundary hfirst hwlt hbfirst hblt hlt
  obtain ⟨hge, hle, hroom⟩ := significands_of_normalized hfirst hwlt hlt
  subst ht
  obtain ⟨q, hqe, hqf, hq, hquarters⟩ := lowerBoundary_eq d
  have hamount : (UInt64.ofNat ((lowerBoundary d.bits (double2diyFp d.bits)).e -
      bPlus.e).toNat).toNat = r + 1 - q := by
    rw [hqe, hbe, UInt64.toNat_ofNat']
    omega
  have hassoc : d.number.f * (4 * 2^r) = 4 * (d.number.f * 2^r) := by ring
  have hpow : 2^(r + 2) = 4 * 2^r := by
    rw [pow_add]
    omega
  rw [hpow, hassoc] at hwf
  have hminus : (lowerBoundary d.bits (double2diyFp d.bits)).f.toNat * 2^(r + 1 - q) +
      quartersBelow d * 2^r = 4 * (d.number.f * 2^r) := by
    have hsplit : 2^(q + 1) * 2^(r + 1 - q) = 4 * 2^r := by
      rw [← pow_add, ← hpow]
      congr 1
      omega
    have hone : quartersBelow d * 2^r = 2^(r + 1 - q) := by
      have hq2 : 2^q * 2^(r + 1 - q) = 2 * 2^r := by
        rw [← pow_add, ← pow_succ']
        congr 1
        omega
      have hpos2 := Nat.two_pow_pos q
      apply Nat.eq_of_mul_eq_mul_left hpos2
      rw [hq2, ← Nat.mul_assoc, Nat.mul_comm (2^q), hquarters]
    calc _ = ((lowerBoundary d.bits (double2diyFp d.bits)).f.toNat + 1) * 2^(r + 1 - q) := by
          rw [hone]
          ring
      _ = 4 * (d.number.f * 2^r) := by
          rw [hqf, Nat.mul_assoc, hsplit, hassoc]
  refine ⟨_, w, bPlus, r, ⟨hwf, hwe, ?_, ?_, ?_, ?_, ?_, hge, hle, hroom⟩, hw, hb, rfl⟩
  · rw [hbf, pow_add]
    ring
  · rw [hbe, hwe]
    push_cast
    omega
  · dsimp only
    rw [toNat_shiftLeft hamount (by omega) (by omega)]
    exact hminus
  · dsimp only
    rw [hbe, hwe]
    push_cast
    omega
  · rw [hwf, ← hassoc, ← hpow]
    exact hfirst

namespace Normalized

variable {d : PositiveDouble} {bMinus w bPlus : DiyFp} {r : Nat}

/-- A quarter of the unit in the last place, in the normalized exponent. -/
theorem quarter (h : Normalized d bMinus w bPlus r) :
    (2 : ℚ)^r * 2^w.e = 2^d.number.e / 4 := by
  have hsplit : d.number.e = (r : Int) + w.e + (2 : Nat) := by
    have he := h.w_e
    omega
  rw [hsplit, zpow_add₀ two_ne_zero, zpow_add₀ two_ne_zero, zpow_natCast, zpow_natCast]
  ring

theorem w_value (h : Normalized d bMinus w bPlus r) :
    w.f.toNat * 2^w.e = d.number.value := by
  have hquarter := h.quarter
  rw [h.w_f, BinaryFormat.Number.value]
  push_cast
  linear_combination 4 * (d.number.f : ℚ) * hquarter

theorem plus_value (h : Normalized d bMinus w bPlus r) :
    bPlus.f.toNat * 2^w.e = d.number.upper := by
  have hquarter := h.quarter
  rw [h.plus_f, BinaryFormat.Number.upper, BinaryFormat.Number.value]
  push_cast
  linear_combination (4 * (d.number.f : ℚ) + 2) * hquarter

theorem minus_value (h : Normalized d bMinus w bPlus r) :
    bMinus.f.toNat * 2^w.e = boundaryBelow d := by
  have hquarter := h.quarter
  have hw := h.w_value
  have hsub : (bMinus.f.toNat : ℚ) = w.f.toNat - quartersBelow d * 2^r := by
    have hminus := h.minus_f
    rw [← h.w_f] at hminus
    have hcast : ((bMinus.f.toNat + quartersBelow d * 2^r : Nat) : ℚ) = w.f.toNat := by
      rw [hminus]
    push_cast at hcast
    linarith
  rw [hsub, boundaryBelow, quartersBelow]
  split_ifs with hclose
  · push_cast
    linear_combination hw - hquarter
  · push_cast
    linear_combination hw - 2 * hquarter

/-- The boundaries are not closer than one of `10^16` parts. -/
theorem width (h : Normalized d bMinus w bPlus r) :
    bPlus.f.toNat ≤ (10^16 - 1) * (bPlus.f.toNat - bMinus.f.toNat) := by
  have hf := d.number_f_lt
  have hplus := h.plus_f
  have hminus := h.minus_f
  have hsub : bPlus.f.toNat - bMinus.f.toNat = (2 + quartersBelow d) * 2^r := by
    rw [Nat.add_mul]
    omega
  have hfactor : 4 * d.number.f + 2 ≤ (10^16 - 1) * (2 + quartersBelow d) := by
    rw [quartersBelow]
    split_ifs with hclose
    · have hfirst : d.number.f = 2^52 := by
        rw [PositiveDouble.number]
        dsimp only
        rw [if_neg hclose.2, hclose.1, Nat.add_zero]
      omega
    · omega
  have hmul := Nat.mul_le_mul_right (2^r) hfactor
  rw [hsub, ← Nat.mul_assoc, hplus]
  calc _ = (4 * d.number.f + 2) * 2^r := by ring
    _ ≤ _ := hmul

/-- The distances are kept when all three are multiplied by one power. -/
theorem multiplied (h : Normalized d bMinus w bPlus r) {c : DiyFp} (hc : 2^63 ≤ c.f.toNat) :
    (multiply bPlus c).f.toNat + 1 <
        10^16 * ((multiply bPlus c).f.toNat + 2 - (multiply bMinus c).f.toNat) ∧
      2^61 ≤ (multiply bMinus c).f.toNat ∧ 2^62 ≤ (multiply w c).f.toNat ∧
      (multiply bMinus c).f.toNat + 255 ≤ (multiply w c).f.toNat ∧
      (multiply w c).f.toNat + 511 ≤ (multiply bPlus c).f.toNat ∧
      (multiply bPlus c).f.toNat + 511 < 2^64 := by
  have hclt := c.f.toNat_lt
  have hquarters : 1 ≤ quartersBelow d ∧ quartersBelow d ≤ 2 := by
    rw [quartersBelow]
    split_ifs <;> decide
  have hminus := h.minus_f
  have hfirst := h.first
  have hplus := h.plus_f
  have hw := h.w_f
  have hge := h.shift_ge
  have hroom := h.room
  have hlower : bMinus.f.toNat + 2^r ≤ w.f.toNat := by
    have hmul := Nat.mul_le_mul_right (2^r) hquarters.1
    omega
  have hlower' : w.f.toNat ≤ bMinus.f.toNat + 2 * 2^r := by
    have hmul := Nat.mul_le_mul_right (2^r) hquarters.2
    omega
  have hupper : bPlus.f.toNat = w.f.toNat + 2 * 2^r := by omega
  have htop : w.f.toNat + 4 * 2^r ≤ 2^64 := by omega
  have hsmall : 4 * 2^r ≤ 2^63 := by
    have hle := h.shift_le
    have hpow : 2^(r + 2) ≤ 2^63 := Nat.pow_le_pow_right (by decide) hle
    rw [pow_add] at hpow
    omega
  have hwidth : bPlus.f.toNat * c.f.toNat ≤
      (10^16 - 1) * (bPlus.f.toNat * c.f.toNat - bMinus.f.toNat * c.f.toNat) := by
    rw [← Nat.sub_mul bPlus.f.toNat, ← Nat.mul_assoc]
    exact Nat.mul_le_mul_right c.f.toNat h.width
  have hmul : 2^9 * 2^63 ≤ 2^r * c.f.toNat := Nat.mul_le_mul hge hc
  have hm : 2^62 * 2^63 ≤ bMinus.f.toNat * c.f.toNat := Nat.mul_le_mul (by omega) hc
  have hwc : 2^63 * 2^63 ≤ w.f.toNat * c.f.toNat := Nat.mul_le_mul hfirst hc
  have hmw := Nat.mul_le_mul_right c.f.toNat hlower
  have hwb : bPlus.f.toNat * c.f.toNat = w.f.toNat * c.f.toNat + 2 * (2^r * c.f.toNat) := by
    rw [hupper]
    ring
  have hwt := Nat.mul_le_mul_right c.f.toNat htop
  rw [Nat.add_mul] at hmw hwt
  rw [Nat.mul_assoc] at hwt
  simp only [multiply_f]
  generalize bMinus.f.toNat * c.f.toNat = mc at *
  generalize w.f.toNat * c.f.toNat = wc at *
  generalize bPlus.f.toNat * c.f.toNat = bc at *
  generalize 2^r * c.f.toNat = rc at *
  omega

end Normalized

theorem multiply_e (x y : DiyFp) : (multiply x y).e = x.e + y.e + 64 := rfl

/-- What `grisu3` generates digits from. -/
theorem grisu3_scaled (d : PositiveDouble) : ∃ low w high mk, Scaled d low w high mk ∧
    grisu3 d.bits = (digitGen low w high).map fun r => { r with kappa := r.kappa - mk } := by
  obtain ⟨bMinus, w, bPlus, r, h, hw, hplus, hminus⟩ := grisu3_normalizes d
  have he := d.number_e_le
  have hwe := h.w_e
  have hshift := h.shift_le
  have hshift' : 9 ≤ r := (Nat.pow_le_pow_iff_right (by decide)).mp h.shift_ge
  obtain ⟨c, mk, hcached, hc, hnear, hge, hle⟩ :=
    cachedPow_spec (e := w.e) (by omega) (by omega)
  obtain ⟨hroom, hpos, hwpos, hlow, hhigh, htop⟩ := h.multiplied hc
  have hw_e := multiply_e w c
  have hminus_e : (multiply bMinus c).e = (multiply w c).e := by
    rw [multiply_e, multiply_e, h.minus_e]
  have hplus_e : (multiply bPlus c).e = (multiply w c).e := by
    rw [multiply_e, multiply_e, h.plus_e]
  refine ⟨multiply bMinus c, multiply w c, multiply bPlus c, mk,
    ⟨hminus_e, hplus_e, by omega, by omega, ?_, ?_, ?_, hpos, hwpos, hlow, hhigh, htop, hroom⟩, ?_⟩
  · rw [← h.minus_value, ← h.minus_e, ← hminus_e]
    exact multiply_near bMinus hnear
  · rw [← h.w_value]
    exact multiply_near w hnear
  · rw [← h.plus_value, ← h.plus_e, ← hplus_e]
    exact multiply_near bPlus hnear
  · rw [grisu3, hw, Option.bind_eq_bind, Option.bind_some, hplus, Option.bind_eq_bind,
      Option.bind_some]
    dsimp only
    rw [hminus, hcached, Option.map_eq_bind]
    rfl

end MuduoServer.Grisu3
