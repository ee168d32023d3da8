import Mathlib.Data.List.Induction
import MuduoServer.Log.Grisu3Weed

namespace MuduoServer

theorem digitsValue_concat (acc : Nat) {s : Bytes} (hs : ∀ c ∈ s, isdigit c = true) {d : Nat}
    (hd : d ≤ 9) :
    digitsValue acc (s ++ [Grisu3.digitChar d]) = 10 * digitsValue acc s + d := by
  induction s generalizing acc with
  | nil => interval_cases d <;> rfl
  | cons c s ih =>
    have hc := hs c List.mem_cons_self
    rw [List.cons_append, digitsValue, digitsValue, if_pos hc, if_pos hc]
    exact ih _ fun c hmem => hs c (List.mem_cons_of_mem _ hmem)

namespace Grisu3

theorem isdigit_digitChar {d : Nat} (hd : d ≤ 9) : isdigit (digitChar d) = true := by
  interval_cases d <;> rfl

theorem digitChar_eq_zero_iff {d : Nat} (hd : d ≤ 9) : digitChar d = 48 ↔ d = 0 := by
  interval_cases d <;> decide

theorem exists_digitChar {c : UInt8} (hc : isdigit c = true) : ∃ d, d ≤ 9 ∧ c = digitChar d := by
  simp only [isdigit, Bool.and_eq_true, decide_eq_true_eq, UInt8.le_iff_toNat_le] at hc
  have h48 : (48 : UInt8).toNat = 48 := rfl
  have h57 : (57 : UInt8).toNat = 57 := rfl
  refine ⟨c.toNat - 48, by omega, ?_⟩
  rw [digitChar, ← UInt8.toNat_inj, UInt8.toNat_ofNat']
  omega

/-- Digits with a first one that is not zero. -/
structure Leading (s : Bytes) : Prop where
  digits : ∀ c ∈ s, isdigit c = true
  head : s.head? ≠ some 48

theorem Leading.nil : Leading [] := ⟨by simp, by simp⟩

theorem Leading.concat {s : Bytes} (h : Leading s) {d : Nat} (hd : d ≤ 9)
    (hfirst : s = [] → d ≠ 0) : Leading (s ++ [digitChar d]) := by
  refine ⟨?_, ?_⟩
  · intro c hc
    rcases List.mem_append.mp hc with hc | hc
    · exact h.digits c hc
    · rw [List.mem_singleton.mp hc]
      exact isdigit_digitChar hd
  · rcases eq_or_ne s [] with rfl | hne
    · rw [List.nil_append, List.head?_cons, Ne, Option.some.injEq, digitChar_eq_zero_iff hd]
      exact hfirst rfl
    · rw [List.head?_append_of_ne_nil _ hne]
      exact h.head

/-- Without a leading zero the number has as many digits as are written. -/
theorem Leading.pow_le {s : Bytes} (h : Leading s) (hne : s ≠ []) :
    10^(s.length - 1) ≤ digitsValue 0 s := by
  induction s using List.reverseRecOn with
  | nil => exact absurd rfl hne
  | append_singleton s c ih =>
    obtain ⟨d, hd, rfl⟩ := exists_digitChar (h.digits c (by simp))
    have hdigits : ∀ c ∈ s, isdigit c = true :=
      fun c hc => h.digits c (List.mem_append_left _ hc)
    rw [digitsValue_concat 0 hdigits hd, List.length_append, List.length_singleton,
      Nat.add_sub_cancel]
    rcases eq_or_ne s [] with rfl | hs
    · have hhead := h.head
      rw [List.nil_append, List.head?_cons, Ne, Option.some.injEq, digitChar_eq_zero_iff hd]
        at hhead
      have hzero : digitsValue 0 [] = 0 := rfl
      rw [List.length_nil, pow_zero, hzero]
      omega
    · have hhead : s.head? ≠ some 48 := by
        have hhead := h.head
        rwa [List.head?_append_of_ne_nil _ hs] at hhead
      have hle := ih ⟨hdigits, hhead⟩ hs
      have hlength : s.length = s.length - 1 + 1 := by
        have hpos := List.length_pos_iff.mpr hs
        omega
      rw [hlength, pow_succ]
      omega

/-- The number from which digits are generated, in units of `2^-n`: `top` bounds the interval
around it from above, `width` is its length, and the number lies `gap` below `top`. -/
structure Window (top width gap n : Nat) : Prop where
  n_le : n ≤ 60
  top_lt : top < 2^64
  width_lt : width < top
  width_ge : 512 ≤ width
  room : top < 10^16 * width
  gap_ge : 256 ≤ gap
  gap_le : gap + 256 ≤ width

theorem Window.gap_lt_width {top width gap n : Nat} (h : Window top width gap n) : gap < width := by
  have hle := h.gap_le
  omega

/-- The decimal that digits and an exponent stand for, in these units. -/
def decimalAt (n : Nat) (m : Nat) (kappa : Int) : ℚ := m * 10^kappa * 2^n

/-- What `digit_gen` promises. -/
structure Generated (top width gap n : Nat) (r : Digits) : Prop where
  leading : Leading r.buffer
  nonempty : r.buffer ≠ []
  length_le : r.buffer.length ≤ 17
  /-- No decimal with a larger exponent lies in the interval. -/
  shortest : ∀ m : Nat, decimalAt n m (r.kappa + 1) ≤ top →
    decimalAt n m (r.kappa + 1) ≤ (top : ℚ) - width
  inside : r.success = true → (top : ℚ) - width + 4 ≤
      decimalAt n (digitsValue 0 r.buffer) r.kappa ∧
    decimalAt n (digitsValue 0 r.buffer) r.kappa + 2 ≤ top
  /-- No decimal with the same exponent that lies in the interval is closer to the number. -/
  closest : r.success = true → ∀ t : ℚ, |t - (top - gap)| < 1 → ∀ m : Nat,
    (top : ℚ) - width ≤ decimalAt n m r.kappa → decimalAt n m r.kappa ≤ top →
      |decimalAt n (digitsValue 0 r.buffer) r.kappa - t| ≤ |decimalAt n m r.kappa - t|

/-- Where a loop stops: with the digit `d` behind the digits `init`, a rest that is less than the
interval is long, which it was not before the digit. All is counted in units of `1 / u`. -/
structure Stop (top width u tk : Nat) (init : Bytes) (d rest : Nat) : Prop where
  leading : Leading init
  digit : d ≤ 9
  u_pos : 0 < u
  tk_pos : 0 < tk
  total : (10 * digitsValue 0 init + d) * tk + rest = top * u
  rest_lt : rest < tk
  stop : rest < width * u
  before : width * u ≤ d * tk + rest

namespace Stop

variable {top width gap n u tk d rest k : Nat} {init : Bytes} {kappa : Int}

/-- The digits in front of the last one. -/
theorem init_mul_le (h : Stop top width u tk init d rest) :
    digitsValue 0 init * (10 * tk) + width * u ≤ top * u := by
  have htotal := h.total
  have hbefore := h.before
  have hexpand : (10 * digitsValue 0 init + d) * tk =
      digitsValue 0 init * (10 * tk) + d * tk := by ring
  omega

/-- There are no more digits than it takes to tell parts of the interval's length apart. -/
theorem length_le (h : Stop top width u tk init d rest) (hroom : top < 10^16 * width) :
    init.length ≤ 16 := by
  rcases eq_or_ne init [] with rfl | hne
  · simp
  · have hpow := h.leading.pow_le hne
    have hinit := h.init_mul_le
    have hdigit := Nat.mul_le_mul_right tk h.digit
    have hrest := h.rest_lt
    have hbefore := h.before
    by_contra hlong
    have hlarge : 10^16 ≤ digitsValue 0 init :=
      (Nat.pow_le_pow_right (by decide) (by omega)).trans hpow
    have hwide : width * u ≤ 10 * tk := by omega
    have hmul : 10^16 * (width * u) ≤ digitsValue 0 init * (10 * tk) :=
      Nat.mul_le_mul hlarge hwide
    have hlt : top * u < 10^16 * width * u := (Nat.mul_lt_mul_right h.u_pos).mpr hroom
    rw [Nat.mul_assoc] at hlt
    omega

/-- Numbers that end in a place further in front are not in the interval. -/
theorem coarser (h : Stop top width u tk init d rest) {m : Nat} (hm : m * (10 * tk) ≤ top * u) :
    m * (10 * tk) + width * u ≤ top * u := by
  have htotal := h.total
  have hdigit := Nat.mul_le_mul_right tk h.digit
  have hrest := h.rest_lt
  have hinit := h.init_mul_le
  have hexpand : (10 * digitsValue 0 init + d) * tk =
      digitsValue 0 init * (10 * tk) + d * tk := by ring
  have hlt : m * (10 * tk) < (digitsValue 0 init + 1) * (10 * tk) := by
    rw [Nat.add_mul]
    omega
  have hle : m ≤ digitsValue 0 init := Nat.lt_succ_iff.mp (Nat.lt_of_mul_lt_mul_right hlt)
  have hmul := Nat.mul_le_mul_right (10 * tk) hle
  omega

theorem leading_lowered (h : Stop top width u tk init d rest) (hwidth : width < top) (hk : k ≤ d)
    (hinside : rest + k * tk ≤ width * u) : Leading (init ++ [digitChar (d - k)]) := by
  have hdigit := h.digit
  refine h.leading.concat (by omega) ?_
  rintro rfl hzero
  have htotal := h.total
  have hlt := (Nat.mul_lt_mul_right h.u_pos).mpr hwidth
  have heq : k = d := by omega
  rw [show digitsValue 0 [] = 0 from rfl, Nat.mul_zero, Nat.zero_add] at htotal
  rw [heq] at hinside
  omega

/-- What the lowered digit stands for, and the rest. -/
theorem lowered_total (h : Stop top width u tk init d rest) (hk : k ≤ d) :
    digitsValue 0 (init ++ [digitChar (d - k)]) * tk + (rest + k * tk) = top * u := by
  have hdigit := h.digit
  rw [digitsValue_concat 0 h.leading.digits (by omega), ← h.total]
  have hsplit : 10 * digitsValue 0 init + d = 10 * digitsValue 0 init + (d - k) + k := by omega
  rw [hsplit]
  ring

end Stop

section Scaled

variable {top width gap n u tk d rest k : Nat} {init : Bytes} {kappa : Int}

theorem decimalAt_mul (htk : (tk : ℚ) = 10^kappa * 2^n * u) (m : Nat) :
    decimalAt n m kappa * u = (m * tk : Nat) := by
  push_cast
  rw [decimalAt, htk]
  ring

theorem decimalAt_succ_mul (htk : (tk : ℚ) = 10^kappa * 2^n * u) (m : Nat) :
    decimalAt n m (kappa + 1) * u = (m * (10 * tk) : Nat) := by
  push_cast
  rw [decimalAt, htk, zpow_add_one₀ (by norm_num)]
  ring

/-- Which decimal is closest, told by distances from the top: `r` is that of the decimal that is
left, `r'` that of one some steps up or down, and `t` that of the number. -/
theorem closest_of_rest (step gap ulp : ℚ) {r r' t : ℚ} {j : Int} (hstep : 0 < step)
    (hr : r' = r + j * step) (hup : j ≤ -1 → 2 * r ≤ 2 * (gap - ulp) + step)
    (hdown : 1 ≤ j → 2 * (gap + ulp) ≤ 2 * r + step) (ht : |t - gap| < ulp) :
    |r - t| ≤ |r' - t| := by
  obtain ⟨hlo, hhi⟩ := abs_lt.mp ht
  rcases lt_trichotomy j 0 with hneg | rfl | hpos
  · have hj : (j : ℚ) ≤ -1 := by exact_mod_cast Int.le_sub_one_of_lt hneg
    have hmul := mul_le_mul_of_nonneg_right hj hstep.le
    have hup := hup (Int.le_sub_one_of_lt hneg)
    refine (abs_le.mpr ⟨?_, ?_⟩ : |r - t| ≤ -(r' - t)).trans (neg_le_abs _) <;> linarith
  · rw [hr, Int.cast_zero, zero_mul, add_zero]
  · have hj : (1 : ℚ) ≤ j := by exact_mod_cast hpos
    have hmul := mul_le_mul_of_nonneg_right hj hstep.le
    have hdown := hdown hpos
    refine (abs_le.mpr ⟨?_, ?_⟩ : |r - t| ≤ r' - t).trans (le_abs_self _) <;> linarith

/-- The same for decimals, with what the loop of `round_weed` and the condition behind it leave. -/
theorem closest_of_units (hu : 0 < u) (hpos : 0 < tk) (htk : (tk : ℚ) = 10^kappa * 2^n * u)
    {m m' r : Nat} (htotal : m * tk + r = top * u)
    (hup : tk ≤ r → 2 * r + 2 * u ≤ 2 * (gap * u) + tk)
    (hdown : r + tk ≤ width * u → 2 * (gap * u) + 2 * u ≤ 2 * r + tk) {t : ℚ}
    (ht : |t - (top - gap)| < 1) (hlo : (top : ℚ) - width ≤ decimalAt n m' kappa)
    (hhi : decimalAt n m' kappa ≤ top) :
    |decimalAt n m kappa - t| ≤ |decimalAt n m' kappa - t| := by
  have huq : (0 : ℚ) < u := by exact_mod_cast hu
  have hm := decimalAt_mul htk m
  have hm' := decimalAt_mul htk m'
  have hlo' := mul_le_mul_of_nonneg_right hlo huq.le
  have hhi' := mul_le_mul_of_nonneg_right hhi huq.le
  rw [hm'] at hhi'
  rw [sub_mul, hm'] at hlo'
  have hle : m' * tk ≤ top * u := by exact_mod_cast hhi'
  have hge : top * u ≤ m' * tk + width * u := by
    have hcast : (top : ℚ) * u ≤ (m' * tk : Nat) + width * u := by linarith
    exact_mod_cast hcast
  have hscale : ∀ x : ℚ, |x - t| * u = |(top * u - x * u) - (top - t) * u| := by
    intro x
    rw [← sub_mul, ← sub_mul, abs_mul, abs_of_pos huq, sub_sub_sub_cancel_left, abs_sub_comm]
  refine le_of_mul_le_mul_right ?_ huq
  rw [hscale, hscale, hm, hm']
  have hr : (top : ℚ) * u - (m * tk : Nat) = r := by
    have hcast : ((m * tk : Nat) : ℚ) + r = top * u := by exact_mod_cast htotal
    linarith
  rw [hr]
  refine closest_of_rest tk (gap * u) u (j := (m : Int) - m')
    (by exact_mod_cast hpos) ?_ ?_ ?_ ?_
  · rw [← hr]
    push_cast
    ring
  · intro hj
    have hstep := Nat.mul_le_mul_right tk (show m + 1 ≤ m' by omega)
    rw [Nat.add_mul, Nat.one_mul] at hstep
    have hcast : ((2 * r + 2 * u : Nat) : ℚ) ≤ (2 * (gap * u) + tk : Nat) := by
      exact_mod_cast hup (by omega)
    push_cast at hcast
    linarith
  · intro hj
    have hstep := Nat.mul_le_mul_right tk (show m' + 1 ≤ m by omega)
    rw [Nat.add_mul, Nat.one_mul] at hstep
    have hcast : ((2 * (gap * u) + 2 * u : Nat) : ℚ) ≤ (2 * r + tk : Nat) := by
      exact_mod_cast hdown (by omega)
    push_cast at hcast
    linarith
  · have heq : (top - t) * u - gap * u = -((t - (top - gap)) * u) := by ring
    rw [heq, abs_neg, abs_mul, abs_of_pos huq]
    exact mul_lt_of_lt_one_left huq ht

/-- Where a loop stops, `round_weed` leaves what `digit_gen` promises. -/
theorem generated_of_stop (hw : Window top width gap n) (h : Stop top width u tk init d rest)
    (htk : (tk : ℚ) = 10^kappa * 2^n * u) {wpW delta rest64 tenKappa ulp : UInt64}
    (hulp : ulp.toNat = u) (hdelta : delta.toNat = width * u) (hwpW : wpW.toNat = gap * u)
    (hten : tenKappa.toNat = tk) (hrest : rest64.toNat = rest) :
    ∃ r, ((roundWeed (init ++ [digitChar d]) wpW delta rest64 tenKappa ulp).map fun r =>
      (⟨r.2, r.1, kappa⟩ : Digits)) = some r ∧ Generated top width gap n r := by
  have hu := h.u_pos
  have hgap := Nat.mul_le_mul_right u hw.gap_ge
  have hgap' := Nat.mul_le_mul_right u hw.gap_le
  rw [Nat.add_mul] at hgap'
  obtain ⟨k, ok, s, hweeded, hround, hok⟩ := roundWeed_spec init wpW delta rest64 tenKappa ulp
    h.digit
    (by rw [hten]; exact h.tk_pos) (by rw [hrest, hdelta]; exact h.stop)
    (by rw [hrest, hdelta, hten]; exact h.before) (by omega) (by omega) (by omega)
  rw [hulp, hwpW, hdelta, hten] at hok
  rw [hulp, hwpW, hdelta, hten, hrest] at hweeded
  have hrest' := hweeded.rest_eq
  have htotal := h.lowered_total hweeded.le
  rw [← hweeded.buffer, ← hrest'] at htotal
  have huq : (0 : ℚ) < u := by exact_mod_cast hu
  have htop : decimalAt n (digitsValue 0 s.1) kappa * u + s.2.toNat = top * u := by
    rw [decimalAt_mul htk]
    exact_mod_cast htotal
  refine ⟨⟨ok, s.1, kappa⟩, by rw [hround]; rfl, ⟨?_, ?_, ?_, ?_, ?_, ?_⟩⟩
  · rw [hweeded.buffer]
    exact h.leading_lowered hw.width_lt hweeded.le hweeded.inside
  · rw [hweeded.buffer]
    simp
  · have hlength := h.length_le hw.room
    rw [hweeded.buffer, List.length_append, List.length_singleton]
    omega
  · intro m hm
    have hm' := mul_le_mul_of_nonneg_right hm huq.le
    rw [decimalAt_succ_mul htk] at hm'
    have hcoarser := h.coarser (m := m) (by exact_mod_cast hm')
    have hcast : ((m * (10 * tk) : Nat) : ℚ) + width * u ≤ top * u := by exact_mod_cast hcoarser
    rw [← decimalAt_succ_mul htk] at hcast
    refine le_of_mul_le_mul_right ?_ huq
    rw [sub_mul]
    linarith
  · intro hsuccess
    obtain ⟨hlo, hhi, -⟩ := hok hsuccess
    have hlo' : (2 : ℚ) * u ≤ s.2.toNat := by exact_mod_cast hlo
    have hhi' : (s.2.toNat : ℚ) + 4 * u ≤ width * u := by exact_mod_cast hhi
    dsimp only
    constructor <;> refine le_of_mul_le_mul_right ?_ huq
    · rw [add_mul, sub_mul]
      linarith
    · rw [add_mul]
      linarith
  · intro hsuccess t ht m hlo hhi
    obtain ⟨-, -, hfurther⟩ := hok hsuccess
    dsimp only at hlo hhi ⊢
    refine closest_of_units hu h.tk_pos htk htotal ?_ ?_ ht hlo hhi
    · intro hle
      have hsteps : 0 < k := by
        by_contra hzero
        have hlt := h.rest_lt
        rw [Nat.eq_zero_of_not_pos hzero, Nat.zero_mul] at hrest'
        omega
      have hnearer := hweeded.nearer hsteps
      omega
    · intro hle
      have hfurther := hfurther hle
      omega

end Scaled

end Grisu3

end MuduoServer
