import MuduoServer.Log.Grisu3DiyFp

namespace MuduoServer.Grisu3

/-- The significand is the integer nearest to `10^d_exp / 2^b_exp`. -/
def Power.Nearest (p : Power) : Prop :=
  2 * (p.fract.toNat * 2^p.bExp.toNat * 10^(-p.dExp).toNat) ≤
      2 * (10^p.dExp.toNat * 2^(-p.bExp).toNat) + 2^p.bExp.toNat * 10^(-p.dExp).toNat ∧
    2 * (10^p.dExp.toNat * 2^(-p.bExp).toNat) ≤
      2 * (p.fract.toNat * 2^p.bExp.toNat * 10^(-p.dExp).toNat) +
        2^p.bExp.toNat * 10^(-p.dExp).toNat

/-- The binary exponent goes with the decimal one, by the logarithm that `cached_pow` uses. -/
def Power.Scaled (p : Power) : Prop :=
  D_1_LOG2_10 * (p.bExp + 63) ≤ 2^53 * p.dExp ∧ 2^53 * p.dExp < D_1_LOG2_10 * (p.bExp + 64)

instance (p : Power) : Decidable p.Nearest := inferInstanceAs (Decidable (_ ∧ _))
instance (p : Power) : Decidable p.Scaled := inferInstanceAs (Decidable (_ ∧ _))

theorem powCache_checked :
    ∀ p ∈ powCache, p.Nearest ∧ p.Scaled ∧ 2^63 ≤ p.fract.toNat := by decide +kernel

theorem powCache_dExp : ∀ i : Nat, i < 87 →
    (powCache.getD i ⟨0, 0, 0⟩).dExp = MIN_CACHED_EXP + CACHED_EXP_STEP * i := by decide +kernel

/-- The multiples of the logarithm that occur are not near to an integer. -/
theorem log_multiple_far : ∀ n : Nat, n < 1100 → n ≠ 0 →
    256 < n * D_1_LOG2_10 % 2^53 ∧ n * D_1_LOG2_10 % 2^53 + 256 < 2^53 := by decide +kernel

theorem zpow_mul_toNat {a : ℚ} (ha : a ≠ 0) (e : Int) : a^e * a^(-e).toNat = a^e.toNat := by
  rw [← zpow_natCast, ← zpow_natCast, ← zpow_add₀ ha]
  congr 1
  omega

/-- A significand that is nearest is off by half a unit at most. -/
theorem Power.Nearest.close {p : Power} (h : p.Nearest) :
    |(10 : ℚ)^p.dExp - p.fract.toNat * 2^p.bExp| ≤ 2^p.bExp / 2 := by
  obtain ⟨hlo, hhi⟩ := h
  have hlo : (2 * (p.fract.toNat * 2^p.bExp.toNat * 10^(-p.dExp).toNat) : ℚ) ≤
      2 * (10^p.dExp.toNat * 2^(-p.bExp).toNat) + 2^p.bExp.toNat * 10^(-p.dExp).toNat := by
    exact_mod_cast hlo
  have hhi : (2 * (10^p.dExp.toNat * 2^(-p.bExp).toNat) : ℚ) ≤
      2 * (p.fract.toNat * 2^p.bExp.toNat * 10^(-p.dExp).toNat) +
        2^p.bExp.toNat * 10^(-p.dExp).toNat := by
    exact_mod_cast hhi
  rw [← zpow_mul_toNat (two_ne_zero) p.bExp, ← zpow_mul_toNat (by norm_num) p.dExp] at hlo hhi
  have hpos : (0 : ℚ) < 2^(-p.bExp).toNat * 10^(-p.dExp).toNat := by positivity
  generalize (2 : ℚ)^(-p.bExp).toNat = b at hlo hhi hpos
  generalize (10 : ℚ)^(-p.dExp).toNat = t at hlo hhi hpos
  have hlo : (2 * (p.fract.toNat * 2^p.bExp) : ℚ) ≤ 2 * 10^p.dExp + 2^p.bExp := by
    refine le_of_mul_le_mul_right ?_ hpos
    linarith
  have hhi : (2 * 10^p.dExp : ℚ) ≤ 2 * (p.fract.toNat * 2^p.bExp) + 2^p.bExp := by
    refine le_of_mul_le_mul_right ?_ hpos
    linarith
  rw [abs_le]
  constructor <;> linarith

theorem roundDouble_near {m : Nat} (hm : m < 2^62) :
    m ≤ roundDouble m + 256 ∧ roundDouble m ≤ m + 256 := by
  have hs : 2^(m.log2 - 52) ≤ 512 := by
    have hlog : m.log2 - 52 ≤ 9 := by
      rcases Nat.eq_zero_or_pos m with rfl | hpos
      · decide
      · have hlt := (Nat.log2_lt hpos.ne').mpr hm
        omega
    exact Nat.pow_le_pow_right (by decide) hlog
  have hsplit := Nat.div_add_mod m (2^(m.log2 - 52))
  have hmod := Nat.mod_lt m (Nat.two_pow_pos (m.log2 - 52))
  rw [roundDouble]
  generalize 2^(m.log2 - 52) = u at hs hsplit hmod ⊢
  rw [Nat.mul_comm] at hsplit
  split_ifs with hup
  · rw [Nat.add_mul, Nat.one_mul]
    omega
  · omega

theorem ceilLog_bounds {n : Int} (hlo : -1100 < n) (hhi : n < 1100) :
    n * D_1_LOG2_10 ≤ 2^53 * ceilLog n ∧ 2^53 * ceilLog n < n * D_1_LOG2_10 + 2^53 := by
  have hconst : D_1_LOG2_10 = 2711437152599295 := rfl
  have hnear := roundDouble_near (m := n.natAbs * D_1_LOG2_10) (by
    rw [hconst]
    omega)
  have hfar : n ≠ 0 → 256 < n.natAbs * D_1_LOG2_10 % 2^53 ∧
      n.natAbs * D_1_LOG2_10 % 2^53 + 256 < 2^53 :=
    fun hn => log_multiple_far n.natAbs (by omega) (by omega)
  rw [ceilLog]
  rw [hconst] at hnear hfar ⊢
  -- rounding does not take the product over an integer
  split_ifs with hneg
  · obtain ⟨hfar, hfar'⟩ := hfar (by omega)
    have hsplit := Nat.div_add_mod (n.natAbs * 2711437152599295) (2^53)
    have hfloor : roundDouble (n.natAbs * 2711437152599295) / 2^53 =
        n.natAbs * 2711437152599295 / 2^53 :=
      Nat.div_eq_of_lt_le (by omega) (by omega)
    rw [hfloor]
    omega
  · rcases eq_or_ne n 0 with rfl | hn
    · decide
    · obtain ⟨hfar, hfar'⟩ := hfar hn
      have hsplit := Nat.div_add_mod (n.natAbs * 2711437152599295) (2^53)
      have hceil : (roundDouble (n.natAbs * 2711437152599295) + 2^53 - 1) / 2^53 =
          n.natAbs * 2711437152599295 / 2^53 + 1 :=
        Nat.div_eq_of_lt_le (by omega) (by omega)
      rw [hceil]
      omega

/-- `cached_pow` chooses a power that is accurate, and brings the exponent of the product in the
range for which digits are generated. -/
theorem cachedPow_spec {e : Int} (hlo : -1137 ≤ e) (hhi : e ≤ 960) :
    ∃ c mk, cachedPow (MIN_TARGET_EXP - DIYFP_FRACT_SIZE - e) = (c, mk) ∧ 2^63 ≤ c.f.toNat ∧
      |(10 : ℚ)^mk - c.f.toNat * 2^c.e| ≤ 2^c.e / 2 ∧ -60 ≤ e + c.e + 64 ∧ e + c.e + 64 ≤ -32 := by
  obtain ⟨hk, hk'⟩ := ceilLog_bounds (n := -61 - e) (by omega) (by omega)
  have hconst : D_1_LOG2_10 = 2711437152599295 := rfl
  rw [hconst] at hk hk'
  have hexp : MIN_TARGET_EXP - DIYFP_FRACT_SIZE - e + DIYFP_FRACT_SIZE - 1 = -61 - e := by
    rw [show MIN_TARGET_EXP = -60 from rfl, show DIYFP_FRACT_SIZE = 64 from rfl]
    omega
  rw [cachedPow]
  rw [hexp]
  generalize ceilLog (-61 - e) = k at hk hk' ⊢
  have hdiv : (k - MIN_CACHED_EXP - 1).tdiv CACHED_EXP_STEP + 1 = (k + 347) / 8 + 1 := by
    rw [show MIN_CACHED_EXP = -348 from rfl, show CACHED_EXP_STEP = 8 from rfl,
      Int.tdiv_eq_ediv_of_nonneg (by omega)]
    omega
  rw [hdiv]
  obtain ⟨i, hi⟩ := Int.eq_ofNat_of_zero_le (show 0 ≤ (k + 347) / 8 + 1 by omega)
  have hlt : i < 87 := by omega
  rw [hi, show Int.toNat (i : Int) = i from rfl]
  have hmem : powCache.getD i ⟨0, 0, 0⟩ ∈ powCache := by
    rw [List.getD_eq_getElem?_getD, List.getElem?_eq_getElem hlt]
    exact List.getElem_mem _
  obtain ⟨hnearest, hscaled, hfirst⟩ := powCache_checked _ hmem
  have hdExp := powCache_dExp i hlt
  rw [show MIN_CACHED_EXP = -348 from rfl, show CACHED_EXP_STEP = 8 from rfl] at hdExp
  obtain ⟨hlow, hhigh⟩ := hscaled
  rw [hconst, hdExp] at hlow hhigh
  refine ⟨_, _, rfl, hfirst, hnearest.close, ?_, ?_⟩
  · dsimp only
    omega
  · dsimp only
    omega

end MuduoServer.Grisu3
