import Mathlib.Tactic.Linarith
import MuduoServer.Log.Dtoa
import MuduoServer.Log.NumberText

namespace MuduoServer

theorem digitsValue_append (acc : Nat) {s : Bytes} (hs : ∀ c ∈ s, isdigit c = true) (t : Bytes) :
    digitsValue acc (s ++ t) = digitsValue (digitsValue acc s) t := by
  induction s generalizing acc with
  | nil => rfl
  | cons c s ih =>
    have hc := hs c List.mem_cons_self
    rw [List.cons_append, digitsValue, digitsValue, if_pos hc, if_pos hc]
    exact ih _ fun c hmem => hs c (List.mem_cons_of_mem _ hmem)

theorem digitsValue_zeros (acc n : Nat) : digitsValue acc (List.replicate n 48) = acc * 10^n := by
  induction n generalizing acc with
  | zero => rw [List.replicate_zero, digitsValue, pow_zero, Nat.mul_one]
  | succ n ih =>
    have hdigit : isdigit 48 = true := rfl
    have hzero : (48 : UInt8).toNat - 48 = 0 := rfl
    rw [List.replicate_succ, digitsValue, if_pos hdigit, ih, hzero, pow_succ']
    ring

theorem zeros_isdigit {n : Nat} : ∀ c ∈ List.replicate n (48 : UInt8), isdigit c = true := by
  intro c hc
  rw [List.eq_of_mem_replicate hc]
  rfl

namespace Sprintf

variable {a b : Nat}

theorem roundHalfEven_near (hb : 0 < b) :
    2 * a ≤ 2 * (b * roundHalfEven a b) + b ∧ 2 * (b * roundHalfEven a b) ≤ 2 * a + b := by
  have hsplit := Nat.div_add_mod a b
  have hlt := Nat.mod_lt a hb
  rw [roundHalfEven]
  split_ifs with hup
  · rw [Nat.mul_add]
    omega
  · omega

/-- The first digit of the number stands at its exponent. -/
theorem exponent10_spec (ha : 0 < a) (hb : 0 < b) :
    (10 : ℚ)^exponent10 a b ≤ a / b ∧ (a / b : ℚ) < 10^(exponent10 a b + 1) := by
  have haq : (0 : ℚ) < a := by exact_mod_cast ha
  have hbq : (0 : ℚ) < b := by exact_mod_cast hb
  rw [exponent10]
  split_ifs with hle
  · have hpos : a / b ≠ 0 := (Nat.div_pos hle hb).ne'
    have hlo := Nat.pow_log_le_self 10 hpos
    have hhi := Nat.lt_pow_succ_log_self (b := 10) (by decide) (a / b)
    rw [Nat.le_div_iff_mul_le hb] at hlo
    rw [Nat.div_lt_iff_lt_mul hb] at hhi
    rw [zpow_natCast, le_div_iff₀ hbq, div_lt_iff₀ hbq]
    exact ⟨by exact_mod_cast hlo, by exact_mod_cast hhi⟩
  · have hceil : ∀ p : Nat, (b + a - 1) / a ≤ p ↔ b ≤ p * a := by
      intro p
      rw [← Nat.lt_succ_iff, Nat.div_lt_iff_lt_mul ha, Nat.succ_mul]
      omega
    have hlo := (hceil _).mp (Nat.le_pow_clog (b := 10) (by decide) ((b + a - 1) / a))
    have hgt : 1 < (b + a - 1) / a := by
      rw [← Nat.not_le, hceil]
      omega
    have hhi := Nat.pow_pred_clog_lt_self (b := 10) (by decide) hgt
    rw [← Nat.not_le, hceil, Nat.not_le] at hhi
    have hpos := Nat.clog_pos (b := 10) (by decide) hgt
    obtain ⟨c, hc⟩ := Nat.exists_eq_succ_of_ne_zero hpos.ne'
    rw [hc] at hlo hhi ⊢
    have hexp : -((c.succ : Nat) : Int) + 1 = -(c : Int) := by omega
    have hten : (0 : ℚ) < 10^c := by positivity
    rw [hexp, zpow_neg, zpow_neg, zpow_natCast, zpow_natCast, inv_le_comm₀ (by positivity)
      (by positivity), inv_div, div_le_iff₀ haq, div_lt_iff₀ hbq, inv_mul_eq_div, lt_div_iff₀ hten]
    constructor
    · exact_mod_cast hlo
    · rw [mul_comm]
      exact_mod_cast hhi

/-- The integer next to a fraction with sixteen places more. -/
theorem rounded_spec {m : Nat} {y : Int} {v : ℚ} (hb : 0 < b) (hv : (a / b : ℚ) = v * 10^(16 - y))
    (hlo : (10 : ℚ)^y ≤ v) (hhi : v < 10^(y + 1)) (hm : m = roundHalfEven a b) :
    10^16 ≤ m ∧ m ≤ 10^17 ∧ 2 * |(m : ℚ) * 10^(y - 16) - v| ≤ 10^(y - 16) := by
  have hbq : (0 : ℚ) < b := by exact_mod_cast hb
  obtain ⟨hnear, hnear'⟩ := roundHalfEven_near (a := a) hb
  rw [← hm] at hnear hnear'
  have hup : (2 * a : ℚ) ≤ 2 * (b * m) + b := by exact_mod_cast hnear
  have hdown : (2 * (b * m) : ℚ) ≤ 2 * a + b := by exact_mod_cast hnear'
  have hpow : (0 : ℚ) < 10^(16 - y) := by positivity
  have hcancel : (10 : ℚ)^(y - 16) * 10^(16 - y) = 1 := by
    rw [← zpow_add₀ (by norm_num)]
    norm_num
  have hscaled : (a : ℚ) = b * (v * 10^(16 - y)) := by
    rw [← hv]
    field_simp
  have hfirst : (10 : ℚ)^y * 10^(16 - y) = 10^16 := by
    rw [← zpow_add₀ (by norm_num)]
    norm_num
  have hnext : (10 : ℚ)^(y + 1) * 10^(16 - y) = 10^17 := by
    rw [← zpow_add₀ (by norm_num), show y + 1 + (16 - y) = (17 : Nat) by omega, zpow_natCast]
  have hlo' := mul_le_mul_of_nonneg_right hlo hpow.le
  have hhi' := mul_lt_mul_of_pos_right hhi hpow
  rw [hfirst] at hlo'
  rw [hnext] at hhi'
  rw [hscaled] at hup hdown
  have hup' : 2 * (v * 10^(16 - y)) ≤ 2 * m + 1 := by
    refine le_of_mul_le_mul_left ?_ hbq
    linarith
  have hdown' : (2 * m : ℚ) ≤ 2 * (v * 10^(16 - y)) + 1 := by
    refine le_of_mul_le_mul_left ?_ hbq
    linarith
  refine ⟨?_, ?_, ?_⟩
  · by_contra hlt
    have hcast : (m : ℚ) + 1 ≤ 10^16 := by exact_mod_cast Nat.not_le.mp hlt
    linarith
  · by_contra hgt
    have hcast : (10 : ℚ)^17 + 1 ≤ m := by exact_mod_cast Nat.not_le.mp hgt
    linarith
  · refine le_of_mul_le_mul_right ?_ hpow
    have hscale : |(m : ℚ) * 10^(y - 16) - v| * 10^(16 - y) = |(m : ℚ) - v * 10^(16 - y)| := by
      rw [← abs_of_pos hpow, ← abs_mul, abs_of_pos hpow, sub_mul, mul_assoc, hcancel, mul_one]
    rw [hcancel, mul_assoc, hscale]
    have habs : |(m : ℚ) - v * 10^(16 - y)| ≤ 1 / 2 := abs_le.mpr ⟨by linarith, by linarith⟩
    linarith

/-- Seventeen digits, which are not farther from the number than half a unit in the last place. -/
theorem scientific_spec (ha : 0 < a) (hb : 0 < b) {m : Nat} {x : Int}
    (h : scientific a b = (m, x)) :
    10^16 ≤ m ∧ m < 10^17 ∧ ∃ y : Int, (10 : ℚ)^y ≤ a / b ∧ (a / b : ℚ) < 10^(y + 1) ∧
      (y = x ∨ y + 1 = x) ∧ 2 * |(m : ℚ) * 10^(x - 16) - a / b| ≤ 10^(y - 16) := by
  have hbq : (0 : ℚ) < b := by exact_mod_cast hb
  obtain ⟨hlo, hhi⟩ := exponent10_spec ha hb
  rw [scientific] at h
  generalize exponent10 a b = y at *
  obtain ⟨m', hm'⟩ : ∃ m', (if y ≤ 16 then roundHalfEven (a * 10^(16 - y).toNat) b
    else roundHalfEven a (b * 10^(y - 16).toNat)) = m' := ⟨_, rfl⟩
  rw [hm'] at h
  have hrounded : 10^16 ≤ m' ∧ m' ≤ 10^17 ∧ 2 * |(m' : ℚ) * 10^(y - 16) - a / b| ≤ 10^(y - 16) := by
    split_ifs at hm' with hsmall
    · refine rounded_spec hb ?_ hlo hhi hm'.symm
      rw [show (16 - y) = ((16 - y).toNat : Int) by omega, zpow_natCast, Int.toNat_natCast]
      push_cast
      ring
    · refine rounded_spec (Nat.mul_pos hb (by positivity)) ?_ hlo hhi hm'.symm
      rw [show (16 - y) = -((y - 16).toNat : Int) by omega, zpow_neg, zpow_natCast]
      push_cast
      field_simp
  obtain ⟨hge, hle, hnear⟩ := hrounded
  split_ifs at h with hcarry
  · rw [Prod.mk.injEq] at h
    obtain ⟨rfl, rfl⟩ := h
    refine ⟨le_refl _, by decide, y, hlo, hhi, .inr rfl, ?_⟩
    rw [hcarry] at hnear
    have hsame : ((10^16 : Nat) : ℚ) * 10^(y + 1 - 16) = ((10^17 : Nat) : ℚ) * 10^(y - 16) := by
      rw [show y + 1 - 16 = y - 16 + 1 by omega, zpow_add_one₀ (by norm_num)]
      push_cast
      ring
    rw [hsame]
    exact hnear
  · rw [Prod.mk.injEq] at h
    obtain ⟨rfl, rfl⟩ := h
    exact ⟨hge, by omega, y, hlo, hhi, .inl rfl, hnear⟩

variable {int frac tail digits : Bytes} {e x : Int}

theorem stripZeros_eq (s : Bytes) : ∃ n, s = stripZeros s ++ List.replicate n 48 := by
  induction s using List.reverseRecOn with
  | nil => exact ⟨0, rfl⟩
  | append_singleton s c ih =>
    rw [stripZeros, List.rdropWhile_concat]
    split_ifs with hc
    · obtain ⟨n, hn⟩ := ih
      refine ⟨n + 1, ?_⟩
      rw [List.replicate_succ', ← List.append_assoc, ← stripZeros, ← hn, beq_iff_eq.mp hc]
    · exact ⟨0, by rw [List.replicate_zero, List.append_nil]⟩

/-- Zeros at the end do not change what is read. -/
theorem value_zeros (hint : ∀ c ∈ int, isdigit c = true) (n : Nat) (e : Int) :
    (digitsValue 0 (int ++ List.replicate n 48) : ℚ) * 10^(e - n) = digitsValue 0 int * 10^e := by
  rw [digitsValue_append 0 hint, digitsValue_zeros, zpow_sub₀ (by norm_num), zpow_natCast]
  push_cast
  field_simp

/-- Zeros at the end of a fraction are not missed. -/
theorem readUnsigned_stripped (hint : ∀ c ∈ int, isdigit c = true) (hne : int ≠ [])
    (hfrac : ∀ c ∈ frac, isdigit c = true) (htail : readTail tail = some e) :
    readUnsigned (int ++ (withPoint (stripZeros frac) ++ tail)) =
      some ((digitsValue 0 (int ++ frac) : ℚ) * 10^(e - (frac.length : Int))) := by
  obtain ⟨n, hn⟩ := stripZeros_eq frac
  generalize stripZeros frac = s at hn
  subst hn
  have hs : ∀ c ∈ s, isdigit c = true := fun c hc => hfrac c (List.mem_append_left _ hc)
  have hboth : ∀ c ∈ int ++ s, isdigit c = true := by
    intro c hc
    rcases List.mem_append.mp hc with hc | hc
    · exact hint c hc
    · exact hs c hc
  have hvalue := value_zeros hboth n (e - s.length)
  have hexp : e - ((s ++ List.replicate n 48).length : Int) = e - s.length - n := by
    rw [List.length_append, List.length_replicate]
    omega
  rw [← List.append_assoc int s, hexp, hvalue, withPoint]
  split_ifs with hempty
  · rw [hempty, List.nil_append, List.append_nil, List.length_nil, Nat.cast_zero, sub_zero]
    exact readUnsigned_integer hint hne htail
  · rw [List.cons_append]
    exact readUnsigned_point hint hs (by simp [hne]) htail

theorem readTail_exponentText (x : Int) : readTail (101 :: exponentText x) = some x := by
  have hdigits : isNumeral (if x.natAbs < 10 then 48 :: decimal x.natAbs else decimal x.natAbs) =
      true ∧ digitsValue 0 (if x.natAbs < 10 then 48 :: decimal x.natAbs else decimal x.natAbs) =
        x.natAbs := by
    have hnumeral := isNumeral_decimal x.natAbs
    have hvalue := digitsValue_decimal x.natAbs
    split_ifs
    · rw [digitsValue, if_pos (show isdigit 48 = true from rfl)]
      refine ⟨?_, hvalue⟩
      rw [isNumeral, Bool.and_eq_true] at hnumeral ⊢
      refine ⟨rfl, ?_⟩
      rw [List.all_cons, hnumeral.2]
      rfl
    · exact ⟨hnumeral, hvalue⟩
  rw [readTail, exponentText]
  split_ifs at hdigits ⊢ with hneg hshort <;> rw [readExponent, if_pos hdigits.1, hdigits.2] <;>
    congr 1 <;> omega

/-- What is read from the text is the rounded number. -/
theorem formatG17_reads {m : Nat} (h : scientific a b = (m, x)) (hm : 10^16 ≤ m)
    (hm' : m < 10^17) :
    readUnsigned (formatG17 a b) = some ((m : ℚ) * 10^(x - 16)) := by
  have hlength : (decimal m).length = 17 := by
    refine Nat.le_antisymm (decimal_length_le (by decide) hm') ?_
    by_contra hlt
    rw [decimal, List.length_map, Nat.not_le, Nat.lt_succ_iff,
      Nat.length_toDigits_le_iff (by decide) (by decide)] at hlt
    omega
  have hdigits : ∀ c ∈ decimal m, isdigit c = true := fun c hc => decimal_isdigit hc
  have htake : ∀ k, ∀ c ∈ (decimal m).take k, isdigit c = true :=
    fun k c hc => hdigits c (List.mem_of_mem_take hc)
  have hdrop : ∀ k, ∀ c ∈ (decimal m).drop k, isdigit c = true :=
    fun k c hc => hdigits c (List.mem_of_mem_drop hc)
  have hne : ∀ k, (decimal m).take (k + 1) ≠ [] := by
    intro k hnil
    have hlen := congrArg List.length hnil
    rw [List.length_take, List.length_nil] at hlen
    omega
  rw [formatG17, h]
  dsimp only
  split_ifs with hscientific hlarge
  · have hread := readUnsigned_stripped (htake 1) (hne 0) (hdrop 1) (readTail_exponentText x)
    rw [List.take_append_drop, digitsValue_decimal, List.length_drop, hlength] at hread
    rw [List.append_assoc, hread]
    norm_num
  · obtain ⟨k, hk⟩ := Int.eq_ofNat_of_zero_le hlarge
    have hread := readUnsigned_stripped (htake (k + 1)) (hne k) (hdrop (k + 1))
      (show readTail [] = some 0 from rfl)
    have hexp : (0 : Int) - ((17 - (k + 1) : Nat) : Int) = x - 16 := by omega
    rw [List.take_append_drop, digitsValue_decimal, List.length_drop, hlength, hexp,
      List.append_nil] at hread
    rw [show (x + 1).toNat = k + 1 by omega, hread]
  · obtain ⟨k, hk⟩ : ∃ k : Nat, (-x - 1).toNat = k := ⟨_, rfl⟩
    have hzero : ∀ c ∈ [(48 : UInt8)], isdigit c = true := by
      rintro c hc
      rw [List.mem_singleton.mp hc]
      rfl
    have hfrac : ∀ c ∈ List.replicate k 48 ++ decimal m, isdigit c = true := by
      intro c hc
      rcases List.mem_append.mp hc with hc | hc
      · exact zeros_isdigit c hc
      · exact hdigits c hc
    have hread := readUnsigned_stripped hzero (by simp) hfrac
      (show readTail [] = some 0 from rfl)
    have hvalue : digitsValue 0 ([48] ++ (List.replicate k 48 ++ decimal m)) = m := by
      rw [digitsValue_append 0 hzero, digitsValue_append _ zeros_isdigit, digitsValue_zeros]
      have hstart : digitsValue 0 [48] = 0 := rfl
      rw [hstart, Nat.zero_mul, digitsValue_decimal]
    have hexp : (0 : Int) - ((k + 17 : Nat) : Int) = x - 16 := by omega
    rw [hvalue, List.length_append, List.length_replicate, hlength, hexp, List.append_nil] at hread
    rw [hk]
    exact hread

/-- Seventeen digits, at most four zeros, a sign, a point and an exponent. -/
theorem formatG17_length {m : Nat} (h : scientific a b = (m, x)) (hm' : m < 10^17)
    (hx : x.natAbs < 1000) : (formatG17 a b).length ≤ 24 := by
  have hlength := decimal_length_le (n := m) (k := 17) (by decide) hm'
  have hpoint : ∀ s : Bytes, (withPoint (stripZeros s)).length ≤ s.length + 1 := by
    intro s
    obtain ⟨n, hn⟩ := stripZeros_eq s
    have hle := congrArg List.length hn
    rw [List.length_append] at hle
    rw [withPoint]
    split_ifs
    · exact Nat.zero_le _
    · rw [List.length_cons]
      omega
  have hexp := decimal_length_le (n := x.natAbs) (k := 3) (by decide) hx
  rw [formatG17, h]
  dsimp only
  split_ifs with hscientific hlarge
  · have htail := hpoint ((decimal m).drop 1)
    have hfront := List.length_take_le 1 (decimal m)
    have hdrop := List.length_drop (i := 1) (l := decimal m)
    have htext : (exponentText x).length ≤ 4 := by
      rw [exponentText, List.length_cons]
      split_ifs with hshort
      · have hone := decimal_length_le (n := x.natAbs) (k := 1) (by decide) hshort
        rw [List.length_cons]
        omega
      · omega
    simp only [List.length_append, List.length_cons]
    omega
  · have htail := hpoint ((decimal m).drop (x + 1).toNat)
    have hsplit := congrArg List.length (List.take_append_drop (x + 1).toNat (decimal m))
    rw [List.length_append] at hsplit
    rw [List.length_append]
    omega
  · have htail := hpoint (List.replicate (-x - 1).toNat 48 ++ decimal m)
    rw [List.length_append, List.length_replicate] at htail
    rw [List.length_cons]
    omega

end Sprintf

end MuduoServer
