import Mathlib.Tactic.LinearCombination
import MuduoServer.Log.Grisu3Digits
import MuduoServer.Log.Grisu3Scaled

namespace MuduoServer.Grisu3

section Loops

variable {top width gap n : Nat} {one : DiyFp} {tooHighW : UInt64}

theorem toNat_mul_ten {x : UInt64} (h : 10 * x.toNat < 2^64) : (x * 10).toNat = 10 * x.toNat := by
  rw [UInt64.toNat_mul, show UInt64.toNat 10 = 10 from rfl, Nat.mul_comm, Nat.mod_eq_of_lt h]

theorem toNat_shiftRight {x amount : UInt64} (hn : amount.toNat = n) (hlt : n < 64) :
    (x >>> amount).toNat = x.toNat / 2^n := by
  rw [UInt64.toNat_shiftRight, hn, Nat.mod_eq_of_lt hlt, Nat.shiftRight_eq_div_pow]

/-- `one.f - 1` masks the part behind the point. -/
theorem toNat_land_one (one : DiyFp) (hone : one.f.toNat = 2^n) (x : UInt64) :
    (x &&& (one.f - 1)).toNat = x.toNat % 2^n := by
  have hpos := Nat.two_pow_pos n
  have hmask : (one.f - 1).toNat = (2^n - 1) * 2^0 := by
    rw [UInt64.toNat_sub_of_le _ _ (by
      rw [UInt64.le_iff_toNat_le, hone]
      exact hpos), hone]
    simp
  rw [toNat_land_mask hmask]
  simp

/-- The loop over the digits behind the point, when `j` of them are written. -/
theorem fractionDigits_generated (hw : Window top width gap n) (hone : one.f.toNat = 2^n)
    (hshift : one.shift.toNat = n) (hgap : tooHighW.toNat = gap) {fuel j : Nat}
    {p2 unit unsafeF : UInt64} {buffer : Bytes} {kappa : Int} (hfuel : 16 ≤ fuel + j)
    (hkappa : kappa = -j) (hleading : Leading buffer) (hne : buffer ≠ [])
    (hunit : unit.toNat = 10^j) (hinterval : unsafeF.toNat = width * 10^j)
    (htotal : digitsValue 0 buffer * 2^n + p2.toNat = top * 10^j) (hlt : p2.toNat < 2^n)
    (hover : width * 10^j ≤ p2.toNat) :
    ∃ r, fractionDigits one tooHighW fuel p2 unit unsafeF buffer kappa = some r ∧
      Generated top width gap n r := by
  have hpow : 2^n ≤ 2^60 := Nat.pow_le_pow_right (by decide) hw.n_le
  have hwidth := Nat.mul_le_mul_right (10^j) hw.width_ge
  induction fuel generalizing j p2 unit unsafeF buffer kappa with
  | zero =>
    have hlarge : 10^16 ≤ 10^j := Nat.pow_le_pow_right (by decide) (by omega)
    omega
  | succ fuel ih =>
    have hten : 10^(j + 1) = 10 * 10^j := pow_succ' 10 j
    have hwide : width * 10^(j + 1) = 10 * (width * 10^j) := by
      rw [hten]
      ring
    have hp2 := toNat_mul_ten (x := p2) (by omega)
    have hunit' := toNat_mul_ten (x := unit) (by omega)
    have hinterval' := toNat_mul_ten (x := unsafeF) (by omega)
    rw [hunit, ← hten] at hunit'
    rw [hinterval, ← hwide] at hinterval'
    have hrest := toNat_land_one one hone (p2 * 10)
    have hdigit : ((p2 * 10) >>> one.shift).toNat = 10 * p2.toNat / 2^n := by
      rw [toNat_shiftRight hshift (by have h60 := hw.n_le; omega), hp2]
    have hd : 10 * p2.toNat / 2^n ≤ 9 := by
      have hdiv : 10 * p2.toNat / 2^n < 10 := Nat.div_lt_of_lt_mul (by omega)
      omega
    have hrest_lt : (p2 * 10 &&& (one.f - 1)).toNat < 2^n := by
      rw [hrest]
      exact Nat.mod_lt _ (Nat.two_pow_pos n)
    have hsplit : 10 * p2.toNat / 2^n * 2^n + (p2 * 10 &&& (one.f - 1)).toNat = 10 * p2.toNat := by
      rw [hrest, hp2]
      exact Nat.div_add_mod' _ _
    have hsum : (10 * digitsValue 0 buffer + 10 * p2.toNat / 2^n) * 2^n +
        (p2 * 10 &&& (one.f - 1)).toNat = top * 10^(j + 1) := by
      rw [hten]
      linear_combination 10 * htotal + hsplit
    rw [fractionDigits, hdigit]
    split_ifs with hstop
    · rw [UInt64.lt_iff_toNat_lt, hinterval'] at hstop
      have hgap' : (tooHighW * (unit * 10)).toNat = gap * 10^(j + 1) := by
        have hle := Nat.mul_le_mul_right (10^(j + 1)) hw.gap_lt_width.le
        rw [UInt64.toNat_mul, hgap, hunit', Nat.mod_eq_of_lt (by omega)]
      refine generated_of_stop hw ⟨hleading, hd, by positivity, by positivity, hsum, hrest_lt,
        hstop, by omega⟩ ?_ hunit' hinterval' hgap' hone rfl
      have hexp : kappa - 1 = -((j + 1 : Nat) : Int) := by omega
      have hne : (10 : ℚ)^(j + 1) ≠ 0 := by positivity
      rw [hexp, zpow_neg, zpow_natCast]
      push_cast
      rw [mul_right_comm, inv_mul_cancel₀ hne, one_mul]
    · rw [UInt64.lt_iff_toNat_lt, hinterval'] at hstop
      have hconcat := digitsValue_concat 0 hleading.digits hd
      refine ih (j := j + 1) (by omega) (by omega) (hleading.concat hd fun h => absurd h hne)
        (by simp) hunit' hinterval' ?_ hrest_lt (by omega) (by omega)
      rw [hconcat]
      exact hsum

/-- The loop over the digits in front of the point, when `kappa` of them are left. -/
theorem integerDigits_generated (one : DiyFp) (hw : Window top width gap n)
    (hone : one.f.toNat = 2^n) (hshift : one.shift.toNat = n) (hgap : tooHighW.toNat = gap)
    {kappa : Nat}
    {p2 unsafeF : UInt64} {p1 div : UInt32} {buffer : Bytes} (hleading : Leading buffer)
    (hfirst : buffer = [] → 0 < kappa ∧ 10^(kappa - 1) ≤ p1.toNat)
    (hinterval : unsafeF.toNat = width) (hdiv : 0 < kappa → div.toNat = 10^(kappa - 1))
    (htotal : (digitsValue 0 buffer * 10^kappa + p1.toNat) * 2^n + p2.toNat = top)
    (hp1 : p1.toNat < 10^kappa) (hlt : p2.toNat < 2^n)
    (hover : width ≤ p1.toNat * 2^n + p2.toNat) :
    ∃ r, integerDigits one tooHighW p2 unsafeF kappa p1 div buffer = some r ∧
      Generated top width gap n r := by
  induction kappa generalizing p1 div buffer with
  | zero =>
    have hne : buffer ≠ [] := fun h => absurd (hfirst h).1 (Nat.lt_irrefl 0)
    have hzero : p1.toNat = 0 := Nat.lt_one_iff.mp hp1
    rw [hzero, Nat.zero_mul, Nat.zero_add] at hover
    rw [hzero, pow_zero, Nat.mul_one, Nat.add_zero] at htotal
    exact fractionDigits_generated hw hone hshift hgap (j := 0) (by decide) rfl hleading hne rfl
      (by rw [hinterval, pow_zero, Nat.mul_one]) (by rw [htotal, pow_zero, Nat.mul_one]) hlt
      (by rw [pow_zero, Nat.mul_one]; exact hover)
  | succ kappa ih =>
    have htop := hw.top_lt
    have hpow : 10^(kappa + 1) = 10 * 10^kappa := pow_succ' 10 kappa
    have hdiv' : div.toNat = 10^kappa := hdiv (Nat.succ_pos _)
    have hdigit : (p1 / div).toNat = p1.toNat / 10^kappa := by rw [UInt32.toNat_div, hdiv']
    have hmod : (p1 % div).toNat = p1.toNat % 10^kappa := by rw [UInt32.toNat_mod, hdiv']
    have hd : p1.toNat / 10^kappa ≤ 9 := by
      have hlt : p1.toNat / 10^kappa < 10 := Nat.div_lt_of_lt_mul (by omega)
      omega
    have hmod_lt : (p1 % div).toNat < 10^kappa := by
      rw [hmod]
      exact Nat.mod_lt _ (Nat.pow_pos (by decide))
    have hsplit : p1.toNat / 10^kappa * 10^kappa + (p1 % div).toNat = p1.toNat := by
      rw [hmod]
      exact Nat.div_add_mod' _ _
    have hsum : ((10 * digitsValue 0 buffer + p1.toNat / 10^kappa) * 10^kappa +
        (p1 % div).toNat) * 2^n + p2.toNat = top := by
      rw [← htotal, hpow]
      linear_combination 2^n * hsplit
    have hsplit' : p1.toNat / 10^kappa * (10^kappa * 2^n) + (p1 % div).toNat * 2^n =
        p1.toNat * 2^n := by
      linear_combination 2^n * hsplit
    have hp1_le : p1.toNat * 2^n + p2.toNat ≤ top := by
      rw [← htotal, Nat.add_mul]
      omega
    have hdiv_le : 10^kappa * 2^n ≤ top := by
      rcases eq_or_ne buffer [] with hnil | hne
      · have hmul := Nat.mul_le_mul_right (2^n) (hfirst hnil).2
        rw [Nat.add_sub_cancel] at hmul
        omega
      · have hone_le : 1 ≤ digitsValue 0 buffer :=
          (Nat.one_le_pow _ _ (by decide)).trans (hleading.pow_le hne)
        have hle : 10^kappa ≤ digitsValue 0 buffer * 10^(kappa + 1) + p1.toNat := by
          have hmul := Nat.mul_le_mul_right (10^(kappa + 1)) hone_le
          omega
        have hmul := Nat.mul_le_mul_right (2^n) hle
        omega
    have hn : n < 64 := by
      have h60 := hw.n_le
      omega
    have hrest : (((p1 % div).toUInt64 <<< one.shift) + p2).toNat =
        (p1 % div).toNat * 2^n + p2.toNat := by
      rw [UInt64.toNat_add, toNat_shiftLeft hshift hn (by rw [UInt32.toNat_toUInt64]; omega),
        UInt32.toNat_toUInt64]
      omega
    have hdiv_shift : (div.toUInt64 <<< one.shift).toNat = 10^kappa * 2^n := by
      rw [toNat_shiftLeft hshift hn (by rw [UInt32.toNat_toUInt64, hdiv']; omega),
        UInt32.toNat_toUInt64, hdiv']
    rw [integerDigits, hdigit]
    split_ifs with hstop
    · rw [UInt64.lt_iff_toNat_lt, hinterval] at hstop
      have hrest_lt : (((p1 % div).toUInt64 <<< one.shift) + p2).toNat < 10^kappa * 2^n := by
        have hmul := Nat.mul_le_mul_right (2^n) (show (p1 % div).toNat + 1 ≤ 10^kappa from hmod_lt)
        rw [Nat.add_mul] at hmul
        omega
      refine generated_of_stop hw ⟨hleading, hd, Nat.one_pos, by positivity, ?_, hrest_lt,
        by omega, by omega⟩ ?_ rfl (by rw [hinterval, Nat.mul_one]) (by rw [hgap, Nat.mul_one])
        hdiv_shift rfl
      · rw [hrest, Nat.mul_one, ← hsum]
        ring
      · rw [zpow_natCast]
        push_cast
        ring
    · rw [UInt64.lt_iff_toNat_lt, hinterval] at hstop
      refine ih (hleading.concat hd fun hnil hzero => ?_) (fun hnil => absurd hnil (by simp)) ?_ ?_
        hmod_lt (by omega)
      · have hle := (hfirst hnil).2
        rw [Nat.div_eq_zero_iff] at hzero
        omega
      · intro hpos
        rw [UInt32.toNat_div, hdiv', show UInt32.toNat 10 = 10 from rfl]
        exact Nat.pow_div hpos (by decide)
      · rw [digitsValue_concat 0 hleading.digits hd]
        exact hsum

end Loops

/-- The guess for `i + 4` bits is right, or one too large, and the table has both powers. -/
theorem guess_checked : ∀ i < 29, ∃ g < 9,
    (((((i + 4 : Nat) : Int) + 1) * 1233) >>> (12 : Nat) + 1).toNat = g + 2 ∧
      2^(i + 4) ≤ 10^(g + 2) ∧ 10^g ≤ 2^(i + 2) ∧
      (pow10Cache.getD (g + 2) 0).toNat = 10^(g + 1) ∧
      (pow10Cache.getD (g + 1) 0).toNat = 10^g := by
  decide

/-- `largest_pow10` counts the digits. -/
theorem largestPow10_spec {n : UInt32} {b : Nat} (hb : 4 ≤ b ∧ b ≤ 32) (hlo : 2^(b - 2) ≤ n.toNat)
    (hhi : n.toNat < 2^b) : ∃ kappa div, largestPow10 n b = (kappa, div) ∧ 0 < kappa ∧
      n.toNat < 10^kappa ∧ 10^(kappa - 1) ≤ n.toNat ∧ div.toNat = 10^(kappa - 1) := by
  obtain ⟨i, rfl⟩ : ∃ i, b = i + 4 := ⟨b - 4, by omega⟩
  obtain ⟨g, -, hguess, hupper, hlower, hlarge, hsmall⟩ := guess_checked i (by omega)
  rw [largestPow10, hguess]
  split_ifs with hlt <;> rw [UInt32.lt_iff_toNat_lt, hlarge] at hlt
  · exact ⟨g + 1, _, rfl, Nat.succ_pos g, hlt, hlower.trans hlo, hsmall⟩
  · exact ⟨g + 2, _, rfl, Nat.succ_pos _, hhi.trans_le hupper, Nat.not_lt.mp hlt, hlarge⟩

variable {d : BinaryFormat.PositiveDouble} {low w high : DiyFp} {mk : Int}

/-- `digit_gen` returns, and keeps its promise. -/
theorem digitGen_generated (h : Scaled d low w high mk) :
    ∃ r, digitGen low w high = some r ∧ Generated (high.f.toNat + 1)
      (high.f.toNat + 2 - low.f.toNat) (high.f.toNat + 1 - w.f.toNat) (-w.e).toNat r := by
  obtain ⟨n, hn⟩ : ∃ n : Nat, w.e = -n := ⟨(-w.e).toNat, by
    have hle := h.e_le
    omega⟩
  have hge := h.e_ge
  have hle := h.e_le
  have hlow := h.low_pos
  have hlow' := h.low_lt
  have hwpos := h.w_pos
  have hhigh := h.lt_high
  have hlt := h.high_lt
  have hshift : w.shift.toNat = n := by
    rw [DiyFp.shift, hn, UInt64.toNat_ofNat']
    omega
  have hone1 : ((1 : UInt64) <<< w.shift).toNat = 2^n := by
    have h1 : UInt64.toNat 1 = 1 := rfl
    rw [toNat_shiftLeft hshift (by omega) (by
      rw [h1, Nat.one_mul]
      exact Nat.pow_lt_pow_right (by decide) (by omega)), h1, Nat.one_mul]
  have htop : (high.f + 1).toNat = high.f.toNat + 1 := by
    rw [UInt64.toNat_add, show UInt64.toNat 1 = 1 from rfl]
    omega
  have htop_lo : 2^(62 - n) * 2^n ≤ high.f.toNat + 1 := by
    rw [← pow_add, Nat.sub_add_cancel (by omega)]
    omega
  have htop_hi : high.f.toNat + 1 < 2^(64 - n) * 2^n := by
    rw [← pow_add, Nat.sub_add_cancel (by omega)]
    omega
  have hp1_lo : 2^(62 - n) ≤ (high.f.toNat + 1) / 2^n :=
    (Nat.le_div_iff_mul_le (Nat.two_pow_pos n)).mpr htop_lo
  have hp1_hi : (high.f.toNat + 1) / 2^n < 2^(64 - n) :=
    (Nat.div_lt_iff_lt_mul (Nat.two_pow_pos n)).mpr htop_hi
  have hp1 : ((high.f + 1) >>> w.shift).toUInt32.toNat = (high.f.toNat + 1) / 2^n := by
    have hpow : 2^(64 - n) ≤ 2^32 := Nat.pow_le_pow_right (by decide) (by omega)
    rw [UInt64.toNat_toUInt32, toNat_shiftRight hshift (by omega), htop]
    exact Nat.mod_eq_of_lt (by omega)
  have hp2 := toNat_land_one ⟨1 <<< w.shift, w.e⟩ hone1 (high.f + 1)
  have hgap : (high.f + 1 - w.f).toNat = high.f.toNat + 1 - w.f.toNat := by
    rw [UInt64.toNat_sub, htop]
    omega
  have hwidth : (high.f + 1 - (low.f - 1)).toNat = high.f.toNat + 2 - low.f.toNat := by
    rw [UInt64.toNat_sub, UInt64.toNat_sub, htop, show UInt64.toNat 1 = 1 from rfl]
    omega
  have hwindow : Window (high.f.toNat + 1) (high.f.toNat + 2 - low.f.toNat)
      (high.f.toNat + 1 - w.f.toNat) n :=
    ⟨by omega, by omega, by omega, by omega, h.room, by omega, by omega⟩
  obtain ⟨kappa, div, hlargest, hkappa, hlt', hge', hdiv⟩ := largestPow10_spec (b := 64 - n)
    (n := ((high.f + 1) >>> w.shift).toUInt32) (by omega)
    (by rw [hp1, show 64 - n - 2 = 62 - n by omega]; exact hp1_lo) (by rw [hp1]; exact hp1_hi)
  have hbits : DIYFP_FRACT_SIZE + w.e = (64 - n : Nat) := by
    rw [hn, DIYFP_FRACT_SIZE]
    omega
  have hzero : digitsValue 0 [] = 0 := rfl
  have hsplit := Nat.div_add_mod' (high.f.toNat + 1) (2^n)
  rw [digitGen, show (-w.e).toNat = n by omega]
  dsimp only [minus]
  rw [hbits, show (⟨1 <<< w.shift, w.e⟩ : DiyFp).shift = w.shift from rfl, hlargest]
  refine integerDigits_generated ⟨1 <<< w.shift, w.e⟩ hwindow hone1 hshift hgap Leading.nil
    (fun _ => ⟨hkappa, hge'⟩) hwidth (fun _ => hdiv) ?_ hlt' ?_ ?_
  · rw [hzero, Nat.zero_mul, Nat.zero_add, hp1, hp2, htop, hsplit]
  · rw [hp2]
    exact Nat.mod_lt _ (Nat.two_pow_pos n)
  · rw [hp1, hp2, htop, hsplit]
    omega

end MuduoServer.Grisu3
