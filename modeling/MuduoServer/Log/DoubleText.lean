import MuduoServer.Log.DtoaText
import MuduoServer.Log.LogStream
import MuduoServer.Log.SprintfG17

namespace MuduoServer

namespace Grisu3

open BinaryFormat (PositiveDouble)
open BinaryFormat.Number (Reads reads_of_near between_of_reads)

section Presented

variable {digits : Bytes} {dExp : Int}

theorem readTail_exponentTail (e : Int) : readTail (exponentTail e) = some e := by
  rw [exponentTail]
  split_ifs with hne
  · exact readTail_decimalInt e
  · rw [not_not.mp hne]
    rfl

theorem exponentTail_length {e : Int} (h : e.natAbs < 1000) : (exponentTail e).length ≤ 5 := by
  have hlen := decimalInt_length h
  rw [exponentTail]
  split_ifs
  · rw [List.length_cons]
    omega
  · exact Nat.zero_le _

/-- However the digits are presented, they are read with their exponent. -/
theorem presented_reads (hdigits : ∀ c ∈ digits, isdigit c = true) (hne : digits ≠ []) :
    readUnsigned (presented digits dExp) = some ((digitsValue 0 digits : ℚ) * 10^dExp) := by
  have hpos := List.length_pos_iff.mpr hne
  have hend : readTail [] = some 0 := rfl
  rw [presented]
  split_ifs with hpoint hshort hlong
  · obtain ⟨k, hk⟩ : ∃ k : Nat, (min (-dExp) ((digits.length : Int) - 1)).toNat = k := ⟨_, rfl⟩
    rw [hk]
    rw [readUnsigned_point (fun c hc => hdigits c (List.mem_of_mem_take hc))
      (fun c hc => hdigits c (List.mem_of_mem_drop hc)) (by rwa [List.take_append_drop])
      (readTail_exponentTail _), List.take_append_drop, List.length_drop]
    congr 3
    omega
  · have hone : digits.length = 1 := by omega
    have hread := readUnsigned_point (fun c hc => absurd hc List.not_mem_nil)
      (fun c hc => (List.mem_append.mp hc).elim (zeros_isdigit (n := (-dExp).toNat - 1) c)
        (hdigits c)) (by simp [hne]) hend
    rw [List.nil_append, List.append_nil, List.nil_append, digitsValue_append 0 zeros_isdigit,
      digitsValue_zeros, Nat.zero_mul, List.length_append, List.length_replicate, hone] at hread
    rw [hread]
    congr 3
    omega
  · exact readUnsigned_integer hdigits hne (readTail_decimalInt dExp)
  · obtain ⟨k, hk⟩ := Int.eq_ofNat_of_zero_le (show 0 ≤ dExp by omega)
    have hread := readUnsigned_integer
      (fun c hc => (List.mem_append.mp hc).elim (hdigits c) (zeros_isdigit (n := k) c))
      (by simp [hne]) hend
    have hvalue := Sprintf.value_zeros hdigits k k
    rw [sub_self] at hvalue
    rw [List.append_nil, hvalue] at hread
    rw [hk, Int.toNat_natCast, hread]

theorem presented_length (digits : Bytes) (hexp : dExp.natAbs < 1000) :
    (presented digits dExp).length ≤ digits.length + 6 := by
  rw [presented]
  split_ifs with hpoint hshort hlong
  · have htail := exponentTail_length (e := dExp + (min (-dExp) ((digits.length : Int) - 1)).toNat)
      (by omega)
    simp only [List.length_append, List.length_cons, List.length_take, List.length_drop]
    omega
  · rw [List.length_cons, List.length_append, List.length_replicate]
    omega
  · have hexponent := decimalInt_length hexp
    rw [List.length_append, List.length_cons]
    omega
  · rw [List.length_append, List.length_replicate]
    omega

theorem doubleRatio_eq (d : PositiveDouble) : 0 < (doubleRatio d.bits).1 ∧
    0 < (doubleRatio d.bits).2 ∧
    ((doubleRatio d.bits).1 / (doubleRatio d.bits).2 : ℚ) = d.number.value := by
  obtain ⟨hf, he⟩ := double2diyFp_eq d
  have hpos := d.number_f_pos
  rw [doubleRatio, BinaryFormat.Number.value, hf, he]
  split_ifs with hexp
  · obtain ⟨k, hk⟩ := Int.eq_ofNat_of_zero_le hexp
    refine ⟨by positivity, Nat.one_pos, ?_⟩
    rw [hk, zpow_natCast, Int.toNat_natCast]
    push_cast
    rw [div_one]
  · obtain ⟨k, hk⟩ : ∃ k : Nat, d.number.e = -k := ⟨(-d.number.e).toNat, by omega⟩
    refine ⟨hpos, by positivity, ?_⟩
    rw [hk, neg_neg, Int.toNat_natCast, zpow_neg, zpow_natCast]
    push_cast
    rfl

/-- An exponent of ten that a number lies above or below. -/
theorem exponent_bounds (d : PositiveDouble) {y : Int} {z : ℚ} (hz : 10^y ≤ z)
    (hz' : z < 10^(y + 17)) (hlo : d.number.lower < z) (hhi : z < d.number.upper) :
    -342 < y ∧ y < 309 := by
  obtain ⟨hsmall, hlarge⟩ := d.number_bounds
  have hlt := (hsmall.trans hlo).trans hz'
  have hgt := (hz.trans_lt hhi).trans hlarge
  rw [zpow_lt_zpow_iff_right₀ (by norm_num)] at hlt hgt
  omega

/-- The fallback writes a text that is short enough, from which the number is read back. -/
theorem formatG17_double (d : PositiveDouble) :
    (Sprintf.formatG17 (doubleRatio d.bits).1 (doubleRatio d.bits).2).length ≤ 24 ∧
      ∃ x, readUnsigned (Sprintf.formatG17 (doubleRatio d.bits).1 (doubleRatio d.bits).2) = some x ∧
        Reads x d.number := by
  obtain ⟨ha, hb, hvalue⟩ := doubleRatio_eq d
  obtain ⟨⟨m, x⟩, hscientific⟩ : ∃ r, Sprintf.scientific (doubleRatio d.bits).1
    (doubleRatio d.bits).2 = r := ⟨_, rfl⟩
  obtain ⟨hm, hm', y, hlo, hhi, hy, hnear⟩ := Sprintf.scientific_spec ha hb hscientific
  rw [hvalue] at hlo hhi hnear
  have hgap := d.number.gapBelow_pos
  have hulp := d.number.zpow_pos
  have hbounds := exponent_bounds d hlo
    (hhi.trans_le (zpow_le_zpow_right₀ (by norm_num) (by omega)))
    (by rw [BinaryFormat.Number.lower]; linarith) (by rw [BinaryFormat.Number.upper]; linarith)
  refine ⟨Sprintf.formatG17_length hscientific hm' (by omega), _,
    Sprintf.formatG17_reads hscientific hm hm', reads_of_near (hnear.trans_lt ?_)⟩
  have hfine := d.lt_gapBelow
  rw [zpow_sub₀ (by norm_num), div_lt_iff₀ (by positivity), mul_comm]
  exact hlo.trans_lt hfine

theorem digitsValue_lt {s : Bytes} (hs : ∀ c ∈ s, isdigit c = true) :
    digitsValue 0 s < 10^s.length := by
  induction s using List.reverseRecOn with
  | nil => decide
  | append_singleton s c ih =>
    obtain ⟨d, hd, rfl⟩ := exists_digitChar (hs c (by simp))
    have hinit : ∀ c ∈ s, isdigit c = true := fun c hc => hs c (List.mem_append_left _ hc)
    have hlt := ih hinit
    rw [digitsValue_concat 0 hinit hd, List.length_append, List.length_singleton, pow_succ]
    omega

/-- The exponent of digits from which a `double` is read has three digits at most. -/
theorem kappa_bounds {d : PositiveDouble} {r : Digits} (hleading : Leading r.buffer)
    (hne : r.buffer ≠ []) (hlen : r.buffer.length ≤ 17) (hreads : Reads r.value d.number) :
    r.kappa.natAbs < 1000 := by
  have hpos : (0 : ℚ) < 10^r.kappa := by positivity
  have hone : 1 ≤ digitsValue 0 r.buffer :=
    (Nat.one_le_pow _ _ (by decide)).trans (hleading.pow_le hne)
  have hlt : digitsValue 0 r.buffer < 10^17 :=
    (digitsValue_lt hleading.digits).trans_le (Nat.pow_le_pow_right (by decide) hlen)
  have hone' : (1 : ℚ) ≤ digitsValue 0 r.buffer := by exact_mod_cast hone
  have hlt' : (digitsValue 0 r.buffer : ℚ) < 10^17 := by exact_mod_cast hlt
  obtain ⟨hlo, hhi⟩ := between_of_reads d.number_f_pos hreads
  have hbounds := exponent_bounds (y := r.kappa) d ?_ ?_ hlo hhi
  · omega
  · have hmul := mul_le_mul_of_nonneg_right hone' hpos.le
    rwa [one_mul] at hmul
  · rw [zpow_add₀ (by norm_num), mul_comm]
    exact mul_lt_mul_of_pos_right hlt' hpos

theorem le_presented_length (digits : Bytes) (dExp : Int) :
    digits.length ≤ (presented digits dExp).length := by
  rw [presented]
  split_ifs
  · simp only [List.length_append, List.length_cons, List.length_take, List.length_drop]
    omega
  · rw [List.length_cons, List.length_append]
    omega
  · rw [List.length_append]
    omega
  · rw [List.length_append]
    omega

/-- A text that is written at `pre.length`, with a NUL behind it. -/
theorem store_text (pre text rest : Bytes) (h : text.length + 1 ≤ rest.length) :
    store (pre ++ rest) pre.length (text ++ [0]) =
      some (pre ++ (text ++ 0 :: rest.drop (text.length + 1))) := by
  have hstore := store_append pre [] (w := text ++ [0]) rfl (show _ ≤ rest.length by
    rw [List.length_append, List.length_singleton]
    exact h)
  rw [List.nil_append, List.nil_append, List.length_append, List.length_singleton,
    List.append_assoc] at hstore
  exact hstore

/-- What is not touched behind a short text. -/
theorem text_frame (text rest : Bytes) (hlen : text.length ≤ 24) (hrest : 30 ≤ rest.length) :
    (text ++ 0 :: rest.drop (text.length + 1)).length = rest.length ∧
      (text ++ 0 :: rest.drop (text.length + 1)).drop 30 = rest.drop 30 := by
  constructor
  · rw [List.length_append, List.length_cons, List.length_drop]
    omega
  · obtain ⟨k, hk⟩ : ∃ k, 30 = text.length + (k + 1) := ⟨29 - text.length, by omega⟩
    rw [hk, ← List.drop_drop, List.drop_left, List.drop_succ_cons, List.drop_drop]
    congr 1
    omega

end Presented

/-- A positive number behind a sign or none: the text ends with a NUL, and bytes that are far behind
it are not touched. -/
theorem dtoaPositive_spec (d : PositiveDouble) : ∃ text x, text.length ≤ 24 ∧
    readUnsigned text = some x ∧ Reads x d.number ∧ ∀ pre rest : Bytes, 30 ≤ rest.length →
      ∃ rest', dtoaPositive d.bits (pre ++ rest) pre.length =
          some (pre ++ (text ++ 0 :: rest'), pre.length + text.length) ∧
        (text ++ 0 :: rest').length = rest.length ∧
        (text ++ 0 :: rest').drop 30 = rest.drop 30 := by
  obtain ⟨r, hr, hleading, hne, hlen, hsuccess⟩ := grisu3_returns d
  have hpos := d.pos
  have hfinite := d.finite
  have hzero : d.bits ≠ 0 := by
    intro h
    rw [h] at hpos
    exact absurd hpos (by decide)
  have hinf : d.bits ≠ D64_EXP_MASK := by
    intro h
    rw [h] at hfinite
    exact absurd hfinite (by decide)
  have hstore : ∀ pre rest : Bytes, 30 ≤ rest.length →
      store (pre ++ rest) pre.length r.buffer =
        some (pre ++ (r.buffer ++ rest.drop r.buffer.length)) := by
    intro pre rest hrest
    exact store_append pre [] rfl (by omega)
  cases hs : r.success with
  | true =>
    have hreads := (hsuccess hs).reads
    have hkappa := kappa_bounds hleading hne hlen hreads
    have hlong := presented_length r.buffer hkappa
    have hshort := le_presented_length r.buffer r.kappa
    refine ⟨presented r.buffer r.kappa, r.value, by omega,
      presented_reads hleading.digits hne, hreads, fun pre rest hrest => ?_⟩
    refine ⟨rest.drop ((presented r.buffer r.kappa).length + 1), ?_,
      text_frame _ _ (by omega) hrest⟩
    rw [dtoaPositive, if_neg hzero, if_neg hinf, hr, Option.bind_eq_bind, Option.bind_some,
      hstore pre rest hrest, Option.bind_eq_bind, Option.bind_some, hs, if_neg (by decide),
      present_spec hne hkappa (by rw [List.length_drop]; omega), List.drop_drop,
      Nat.add_sub_cancel' (hshort.trans (Nat.le_succ _))]
  | false =>
    obtain ⟨hshort, x, hread, hreads⟩ := formatG17_double d
    refine ⟨_, x, hshort, hread, hreads, fun pre rest hrest => ?_⟩
    have hsame : (r.buffer ++ rest.drop r.buffer.length).length = rest.length := by
      rw [List.length_append, List.length_drop]
      omega
    have hdrop : (r.buffer ++ rest.drop r.buffer.length).drop 30 = rest.drop 30 := by
      obtain ⟨k, hk⟩ : ∃ k, 30 = r.buffer.length + k := ⟨30 - r.buffer.length, by omega⟩
      rw [hk, ← List.drop_drop, List.drop_left, List.drop_drop]
    have hframe := text_frame _ _ hshort (hrest.trans hsame.ge)
    rw [hsame, hdrop] at hframe
    refine ⟨_, ?_, hframe⟩
    rw [dtoaPositive, if_neg hzero, if_neg hinf, hr, Option.bind_eq_bind, Option.bind_some,
      hstore pre rest hrest, Option.bind_eq_bind, Option.bind_some, hs, if_pos rfl]
    dsimp only
    rw [store_text pre _ _ (by omega), Option.bind_some, Nat.add_comm _ pre.length]

/-- What the text of a `double` promises: of a number that is finite and not zero, the number itself
is read back. -/
def ReadsBack (u64 : UInt64) (text : Bytes) : Prop :=
  ∀ d : PositiveDouble, u64.toNat % 2^63 = d.bits.toNat → ∃ x, Reads x d.number ∧
    readNumber text = some (if u64.toNat < 2^63 then x else -x)

/-- Bytes are written as this text, with a NUL, inside the first 48 ones. -/
def Writes (f : Bytes → Option (Bytes × Nat)) (text : Bytes) : Prop :=
  ∀ mem : Bytes, 48 ≤ mem.length → ∃ rest, f mem = some (text ++ 0 :: rest, text.length) ∧
    (text ++ 0 :: rest).length = mem.length ∧ (text ++ 0 :: rest).drop 48 = mem.drop 48

theorem sign_zero_iff (u64 : UInt64) : u64 &&& D64_SIGN = 0 ↔ u64.toNat < 2^63 := by
  have hlt := u64.toNat_lt
  rw [land_mask_eq_zero (j := 1) (k := 63) (by decide)]
  omega

theorem toNat_xor_sign {u64 : UInt64} (h : 2^63 ≤ u64.toNat) :
    (u64 ^^^ D64_SIGN).toNat = u64.toNat % 2^63 := by
  have hlt := u64.toNat_lt
  have hsign : D64_SIGN.toNat = 2^63 := rfl
  rw [UInt64.toNat_xor, hsign]
  apply Nat.eq_of_testBit_eq
  intro i
  rw [Nat.testBit_xor, Nat.testBit_two_pow, Nat.testBit_mod_two_pow]
  rcases Nat.lt_trichotomy i 63 with hi | rfl | hi
  · simp [hi, show ¬63 = i by omega]
  · have htop : u64.toNat.testBit 63 = true := by
      rw [Nat.testBit_eq_decide_div_mod_eq, decide_eq_true_eq]
      omega
    simp [htop]
  · have hhigh : u64.toNat.testBit i = false :=
      Nat.testBit_lt_two_pow (hlt.trans_le (Nat.pow_le_pow_right (by decide) hi))
    simp [hhigh, show ¬i < 63 by omega, show ¬63 = i by omega]

theorem head_of_readUnsigned {s : Bytes} {x : ℚ} (h : readUnsigned s = some x) :
    ∀ c ∈ s.head?, c ≠ 45 := by
  rintro c hc rfl
  obtain ⟨s, rfl⟩ : ∃ t, s = 45 :: t := by
    cases s with
    | nil => simp at hc
    | cons d t => exact ⟨t, by simpa using hc⟩
  have hnone : readUnsigned (45 :: s) = none := rfl
  rw [hnone] at h
  contradiction

/-- Zero, infinity, or a positive number. -/
theorem dtoaUnsigned_spec (u64 : UInt64) (hu : u64.toNat ≤ 2047 * 2^52) : ∃ text,
    text.length ≤ 24 ∧
      (∀ pre rest : Bytes, 30 ≤ rest.length → ∃ rest', dtoaPositive u64 (pre ++ rest) pre.length =
          some (pre ++ (text ++ 0 :: rest'), pre.length + text.length) ∧
        (text ++ 0 :: rest').length = rest.length ∧
        (text ++ 0 :: rest').drop 30 = rest.drop 30) ∧
      ∀ d : PositiveDouble, u64.toNat = d.bits.toNat → ∃ x, Reads x d.number ∧
        readUnsigned text = some x := by
  have hmask : D64_EXP_MASK.toNat = 2047 * 2^52 := rfl
  rcases Nat.eq_zero_or_pos u64.toNat with hzero | hpos
  · have hbits : u64 = 0 := UInt64.toNat_inj.mp hzero
    refine ⟨[48], by decide, fun pre rest hrest => ?_, fun d hd => ?_⟩
    · refine ⟨_, ?_, text_frame _ _ (by decide) hrest⟩
      rw [dtoaPositive, if_pos hbits, show ([48, 0] : Bytes) = [48] ++ [0] from rfl,
        store_text pre _ _ (by rw [List.length_singleton]; omega)]
      rfl
    · have hpos := d.pos
      omega
  · rcases Nat.lt_or_eq_of_le hu with hlt | heq
    · obtain ⟨text, x, hlen, hread, hreads, hwrites⟩ := dtoaPositive_spec ⟨u64, hpos, hlt⟩
      refine ⟨text, hlen, hwrites, fun d hd => ⟨x, ?_, hread⟩⟩
      obtain rfl : (⟨u64, hpos, hlt⟩ : PositiveDouble) = d := by
        cases d
        rw [BinaryFormat.PositiveDouble.mk.injEq]
        exact UInt64.toNat_inj.mp hd
      exact hreads
    · have hbits : u64 = D64_EXP_MASK := UInt64.toNat_inj.mp (heq.trans hmask.symm)
      have hzero : u64 ≠ 0 := by
        rintro rfl
        exact absurd hpos (by decide)
      refine ⟨bytes "inf", by decide, fun pre rest hrest => ?_, fun d hd => ?_⟩
      · refine ⟨_, ?_, text_frame _ _ (by decide) hrest⟩
        have hlen : (bytes "inf").length = 3 := rfl
        rw [dtoaPositive, if_neg hzero, if_pos hbits, store_text pre _ _ (by omega)]
        rfl
      · have hfinite := d.finite
        omega

theorem drop_of_drop {xs ys : Bytes} (h : xs.drop 30 = ys.drop 30) : xs.drop 48 = ys.drop 48 := by
  have hdrop := congrArg (List.drop 18) h
  rw [List.drop_drop, List.drop_drop] at hdrop
  exact hdrop

/-- `dtoa_grisu3` writes a text of 25 bytes at most. -/
theorem dtoaGrisu3_spec (u64 : UInt64) :
    ∃ text, text.length ≤ 25 ∧ Writes (dtoaGrisu3 u64) text ∧ ReadsBack u64 text := by
  have hlt := u64.toNat_lt
  have hshift : (u64 <<< 1).toNat = 2 * (u64.toNat % 2^63) := by
    rw [UInt64.toNat_shiftLeft, Nat.shiftLeft_eq, show 2^(UInt64.toNat 1 % 64) = 2 from rfl]
    omega
  by_cases hnan : u64 <<< 1 > 0xFFE0000000000000
  · have hlarge : 2047 * 2^52 < u64.toNat % 2^63 := by
      rw [gt_iff_lt, UInt64.lt_iff_toNat_lt, hshift,
        show UInt64.toNat 0xFFE0000000000000 = 2 * (2047 * 2^52) from rfl] at hnan
      omega
    obtain ⟨text, htext⟩ : ∃ text, bytes "NaN(" ++ Sprintf.hex8 (u64 >>> 32).toUInt32 ++
      Sprintf.hex8 u64.toUInt32 ++ bytes ")" = text := ⟨_, rfl⟩
    have hlen : text.length = 21 := by
      rw [← htext]
      rfl
    refine ⟨text, by omega, fun mem hmem => ?_, fun d hd => ?_⟩
    · have hstore := store_text [] text mem (by omega)
      rw [List.nil_append, List.nil_append, List.length_nil] at hstore
      obtain ⟨hsame, hdrop⟩ := text_frame text mem (by omega) (by omega)
      refine ⟨_, ?_, hsame, drop_of_drop hdrop⟩
      rw [dtoaGrisu3, if_pos hnan, htext]
      dsimp only
      rw [hstore]
      rfl
    · have hfinite := d.finite
      omega
  · have hsmall : u64.toNat % 2^63 ≤ 2047 * 2^52 := by
      rw [gt_iff_lt, UInt64.lt_iff_toNat_lt, hshift,
        show UInt64.toNat 0xFFE0000000000000 = 2 * (2047 * 2^52) from rfl] at hnan
      omega
    rcases Nat.lt_or_ge u64.toNat (2^63) with hpositive | hnegative
    · have hsign := (sign_zero_iff u64).mpr hpositive
      obtain ⟨text, hlen, hwrites, hread⟩ := dtoaUnsigned_spec u64 (by omega)
      refine ⟨text, by omega, fun mem hmem => ?_, fun d hd => ?_⟩
      · obtain ⟨rest, hresult, hsame, hdrop⟩ := hwrites [] mem (by omega)
        rw [List.nil_append, List.nil_append, List.length_nil, Nat.zero_add] at hresult
        refine ⟨rest, ?_, hsame, drop_of_drop hdrop⟩
        rw [dtoaGrisu3, if_neg hnan, if_neg (not_not.mpr hsign)]
        exact hresult
      · obtain ⟨x, hreads, htext⟩ := hread d (by omega)
        refine ⟨x, hreads, ?_⟩
        rw [readNumber_of_digit (head_of_readUnsigned htext), htext, if_pos hpositive]
    · have hsign := mt (sign_zero_iff u64).mp (Nat.not_lt.mpr hnegative)
      have hxor := toNat_xor_sign hnegative
      obtain ⟨text, hlen, hwrites, hread⟩ := dtoaUnsigned_spec (u64 ^^^ D64_SIGN) (by omega)
      refine ⟨45 :: text, by rw [List.length_cons]; omega, fun mem hmem => ?_, fun d hd => ?_⟩
      · obtain ⟨c, mem, rfl⟩ : ∃ c t, mem = c :: t := List.exists_cons_of_length_pos (by omega)
        rw [List.length_cons] at hmem
        obtain ⟨rest, hresult, hsame, hdrop⟩ := hwrites [45] mem (by omega)
        have hstore : store (c :: mem) 0 [45] = some ([45] ++ mem) :=
          store_over [] [] (m := [c]) rfl rfl
        refine ⟨rest, ?_, ?_, ?_⟩
        · rw [dtoaGrisu3, if_neg hnan, if_pos hsign, hstore, Option.bind_eq_bind, Option.bind_some]
          rw [List.length_singleton] at hresult
          rw [hresult, List.length_cons, Nat.add_comm]
          rfl
        · rw [List.cons_append, List.length_cons, hsame, List.length_cons]
        · have hdrop' := congrArg (List.drop 17) hdrop
          rw [List.drop_drop, List.drop_drop] at hdrop'
          exact hdrop'
      · obtain ⟨x, hreads, htext⟩ := hread d (by omega)
        refine ⟨x, hreads, ?_⟩
        rw [readNumber_negative x htext, if_neg (Nat.not_lt.mpr hnegative)]

end Grisu3

open Grisu3 (dtoaGrisu3 dtoaGrisu3_spec ReadsBack Writes)

namespace LogStream

/-- `operator<<(double)`, for the bits of the `double`. -/
def insertDouble (s : LogStream) (v : UInt64) : Option LogStream :=
  if s.avail ≥ MAX_NUMERIC_SIZE then do
    let (written, len) ← dtoaGrisu3 v (s.data.drop s.cur)
    let s ← s.store written
    some (s.add len)
  else some s

/-- A text that is written behind `cur_` is inside the array, or dropped. -/
theorem insertDouble_writes {v : UInt64} {text : Bytes} (hlen : text.length ≤ 25)
    (hwrites : Writes (dtoaGrisu3 v) text) {s : LogStream} (h : s.cur ≤ FIXED_BUFFER_SIZE) :
    ∃ s', s.insertDouble v = some s' ∧ s'.cur ≤ FIXED_BUFFER_SIZE ∧
      s'.text = s.text ++ if s.cur + MAX_NUMERIC_SIZE ≤ FIXED_BUFFER_SIZE then text else [] := by
  have hnum : MAX_NUMERIC_SIZE = 48 := rfl
  rw [insertDouble]
  by_cases hroom : s.cur + MAX_NUMERIC_SIZE ≤ FIXED_BUFFER_SIZE
  · have hsize := s.size_eq
    have hlength : (s.data.drop s.cur).length = FIXED_BUFFER_SIZE - s.cur := by
      rw [List.length_drop, hsize]
    obtain ⟨rest, hresult, hsame, -⟩ := hwrites (s.data.drop s.cur) (by omega)
    obtain ⟨s', hstore, hcur, htext⟩ := FixedMemory.store_add (b := s) (text ++ 0 :: rest)
      text.length (by omega) (by
        rw [List.length_append]
        omega)
    rw [if_pos ((avail_ge_iff _).mpr hroom), if_pos hroom, hresult, Option.bind_eq_bind,
      Option.bind_some]
    dsimp only
    rw [hstore, Option.bind_eq_bind, Option.bind_some]
    refine ⟨_, rfl, by omega, ?_⟩
    rw [htext, List.take_left]
  · rw [if_neg (fun hge => hroom ((avail_ge_iff _).mp hge)), if_neg hroom, List.append_nil]
    exact ⟨s, rfl, h, rfl⟩

/-- A number is written inside the array, or dropped, and what is written is the number. -/
theorem insertDouble_reads (v : UInt64) : ∃ text, text.length ≤ 25 ∧ ReadsBack v text ∧
    ∀ s : LogStream, s.cur ≤ FIXED_BUFFER_SIZE → ∃ s', s.insertDouble v = some s' ∧
      s'.cur ≤ FIXED_BUFFER_SIZE ∧
      s'.text = s.text ++ if s.cur + MAX_NUMERIC_SIZE ≤ FIXED_BUFFER_SIZE then text else [] := by
  obtain ⟨text, hlen, hwrites, hreads⟩ := dtoaGrisu3_spec v
  exact ⟨text, hlen, hreads, fun s h => insertDouble_writes hlen hwrites h⟩

/-- The number leaves at least one byte free. -/
theorem insertDouble_inside {s : LogStream} (h : s.cur < FIXED_BUFFER_SIZE) (v : UInt64) :
    ∃ s', s.insertDouble v = some s' ∧ s'.cur < FIXED_BUFFER_SIZE := by
  obtain ⟨text, hlen, hwrites, -⟩ := dtoaGrisu3_spec v
  obtain ⟨s', hs, hcur, htext⟩ := insertDouble_writes hlen hwrites h.le
  have hnum : MAX_NUMERIC_SIZE = 48 := rfl
  have hlength := congrArg List.length htext
  rw [List.length_append, FixedMemory.text_length hcur, FixedMemory.text_length h.le] at hlength
  refine ⟨s', hs, ?_⟩
  split_ifs at hlength with hroom
  · omega
  · rw [List.length_nil] at hlength
    omega

end LogStream

/-- `static_cast<double>` of a `float`, on their bits. The fraction of a NaN is kept, and a NaN is
quiet afterwards. -/
def doubleOfFloat (v : UInt32) : UInt64 :=
  let sign := v.toNat / 2^31 * 2^63
  let biased := v.toNat / 2^23 % 2^8
  let fraction := v.toNat % 2^23
  if biased = 255 then
    UInt64.ofNat (sign + 2047 * 2^52 + if fraction = 0 then 0 else fraction * 2^29 ||| 2^51)
  else if biased = 0 then
    let first := Nat.log2 fraction
    UInt64.ofNat (sign +
      if fraction = 0 then 0 else (first + 874) * 2^52 + (fraction - 2^first) * 2^(52 - first))
  else UInt64.ofNat (sign + (biased + 896) * 2^52 + fraction * 2^29)

/-- The number that the bits of a finite `float` stand for, but for its sign. -/
def floatValue (v : UInt32) : ℚ :=
  let biased := v.toNat / 2^23 % 2^8
  let fraction := v.toNat % 2^23
  (if biased = 0 then fraction else 2^23 + fraction : Nat) * 2^((max biased 1 : Nat) - 150 : Int)

/-- The bits of a sign, an exponent that is not the least one, and a fraction. -/
theorem exists_double {sign b r : Nat} (hsign : sign < 2) (hb : 0 < b) (hb' : b < 2047)
    (hr : r < 2^52) : ((UInt64.ofNat (sign * 2^63 + b * 2^52 + r)).toNat < 2^63 ↔ sign = 0) ∧
      ∃ d : BinaryFormat.PositiveDouble,
        (UInt64.ofNat (sign * 2^63 + b * 2^52 + r)).toNat % 2^63 = d.bits.toNat ∧
          d.number.value = (2^52 + r : Nat) * 2^((b : Int) - 1075) := by
  have hbits : (UInt64.ofNat (sign * 2^63 + b * 2^52 + r)).toNat = sign * 2^63 + b * 2^52 + r :=
    UInt64.toNat_ofNat_of_lt' (by rw [UInt64.size]; omega)
  have hrest : (UInt64.ofNat (b * 2^52 + r)).toNat = b * 2^52 + r :=
    UInt64.toNat_ofNat_of_lt' (by rw [UInt64.size]; omega)
  refine ⟨by omega, ⟨UInt64.ofNat (b * 2^52 + r), by omega, by omega⟩, by dsimp only; omega, ?_⟩
  have hbiased : (b * 2^52 + r) / 2^52 = b := by omega
  have hfraction : (b * 2^52 + r) % 2^52 = r := by omega
  rw [BinaryFormat.Number.value, BinaryFormat.PositiveDouble.number]
  simp only [BinaryFormat.PositiveDouble.biased, BinaryFormat.PositiveDouble.fraction, hrest,
    hbiased, hfraction, if_neg hb.ne', Nat.max_eq_left (show 1 ≤ b from hb)]

/-- The conversion of a `float` is exact. -/
theorem doubleOfFloat_value {v : UInt32} (hpos : v.toNat % 2^31 ≠ 0)
    (hfinite : v.toNat % 2^31 < 255 * 2^23) :
    ((doubleOfFloat v).toNat < 2^63 ↔ v.toNat < 2^31) ∧
      ∃ d : BinaryFormat.PositiveDouble, (doubleOfFloat v).toNat % 2^63 = d.bits.toNat ∧
        d.number.value = floatValue v := by
  have hlt := v.toNat_lt
  have hsign : v.toNat / 2^31 < 2 := by omega
  have hsmall : v.toNat % 2^23 < 2^23 := Nat.mod_lt _ (by norm_num)
  have hzero : v.toNat / 2^31 = 0 ↔ v.toNat < 2^31 := by omega
  rw [doubleOfFloat, floatValue]
  dsimp only
  rw [if_neg (by omega), ← hzero]
  by_cases hb : v.toNat / 2^23 % 2^8 = 0
  · have hne : v.toNat % 2^23 ≠ 0 := by omega
    rw [if_pos hb, if_neg hne, if_pos hb, ← Nat.add_assoc]
    generalize v.toNat % 2^23 = f at hsmall hne
    -- the first bit of the fraction becomes the implicit one
    have hfirst : Nat.log2 f < 23 := (Nat.log2_lt hne).mpr hsmall
    have hle : 2^Nat.log2 f ≤ f := Nat.log2_self_le hne
    have hup : f < 2^(Nat.log2 f + 1) := Nat.lt_log2_self
    generalize Nat.log2 f = k at hfirst hle hup
    obtain ⟨m, hm⟩ : ∃ m, 52 = k + m := ⟨52 - k, by omega⟩
    have hsplit : 2^52 = 2^k * 2^m := by rw [hm, pow_add]
    have hshift : 52 - k = m := by omega
    have hrest : (f - 2^k) * 2^(52 - k) < 2^52 := by
      rw [hshift, hsplit]
      exact Nat.mul_lt_mul_of_pos_right (by omega) (Nat.two_pow_pos m)
    obtain ⟨hs, d, hd, hvalue⟩ := exists_double hsign (show 0 < k + 874 by omega)
      (show k + 874 < 2047 by omega) hrest
    refine ⟨hs, d, hd, ?_⟩
    rw [hvalue, hshift, hsplit, ← Nat.add_mul, Nat.add_sub_cancel' hle, hb]
    have hexp : ((k + 874 : Nat) : Int) - 1075 = -(m : Int) + (-149) := by omega
    rw [hexp, zpow_add₀ (by norm_num), zpow_neg, zpow_natCast]
    push_cast
    field_simp
    norm_num
  · rw [if_neg hb, if_neg hb]
    have hb' : v.toNat / 2^23 % 2^8 < 255 := by omega
    generalize v.toNat / 2^23 % 2^8 = b at hb hb'
    generalize v.toNat % 2^23 = f at hsmall
    obtain ⟨hs, d, hd, hvalue⟩ := exists_double hsign (show 0 < b + 896 by omega)
      (show b + 896 < 2047 by omega) (show f * 2^29 < 2^52 by omega)
    refine ⟨hs, d, hd, ?_⟩
    rw [hvalue, max_eq_left (by omega)]
    have hexp : ((b + 896 : Nat) : Int) - 1075 = (b : Int) - 150 + (-29) := by omega
    rw [hexp, zpow_add₀ (by norm_num)]
    push_cast
    ring

end MuduoServer
