import Mathlib.Tactic.IntervalCases
import MuduoServer.Base.Bytes

namespace MuduoServer

/-- The integer types at which `convertInt` is instantiated. -/
inductive IntType
  | int | unsignedInt | long | unsignedLong | longLong | unsignedLongLong
  deriving DecidableEq, Repr

namespace IntType

def width : IntType → Nat
  | int | unsignedInt => 32
  | long | unsignedLong | longLong | unsignedLongLong => 64

def signed : IntType → Bool
  | int | long | longLong => true
  | unsignedInt | unsignedLong | unsignedLongLong => false

def min (t : IntType) : Int := if t.signed then -(2^(t.width - 1)) else 0

def max (t : IntType) : Int := if t.signed then 2^(t.width - 1) - 1 else 2^t.width - 1

/-- The value of the type that is congruent to `i` modulo `2^width`. -/
def wrap (t : IntType) (i : Int) : Int :=
  if t.signed then i.bmod (2^t.width) else i % (2^t.width : Nat)

/-- A value of the type. -/
structure Value (t : IntType) where
  val : Int
  ge : t.min ≤ val
  le : val ≤ t.max

end IntType

/-- `LogStream::MAX_NUMERIC_SIZE`. -/
def MAX_NUMERIC_SIZE : Nat := 48

theorem natAbs_tdiv_lt {i : Int} (h : i.tdiv 10 ≠ 0) : (i.tdiv 10).natAbs < i.natAbs := by
  have hi : i ≠ 0 := by
    rintro rfl
    simp at h
  rw [Int.natAbs_tdiv]
  exact Nat.div_lt_self (by omega) (by decide)

/-- The loop of `convertInt`: the bytes that it writes, the least significant digit first. -/
def convertIntLoop (i : Int) : Bytes :=
  let lsd := i.tmod 10
  if h : i.tdiv 10 ≠ 0 then UInt8.ofInt (48 + lsd) :: convertIntLoop (i.tdiv 10)
  else [UInt8.ofInt (48 + lsd)]
termination_by i.natAbs
decreasing_by exact natAbs_tdiv_lt h

/-- `convertInt(buf, value)`: the bytes that it leaves from `buf` on, and what it returns. -/
def convertInt (t : IntType) (value : t.Value) : Bytes × Nat :=
  let is_negative := decide (value.val < 0)
  let i := if is_negative then t.wrap (-value.val) else value.val
  let p := convertIntLoop i
  let p := if is_negative then p ++ [45] else p
  -- the NUL stands behind the bytes that are reversed
  (p.reverse ++ [0], p.length)

def digitsHex : Bytes := bytes "0123456789ABCDEF"

/-- The loop of `convertHex`. -/
def convertHexLoop (i : Nat) : Bytes :=
  let lsd := i % 16
  if h : i / 16 ≠ 0 then digitsHex.getD lsd 0 :: convertHexLoop (i / 16)
  else [digitsHex.getD lsd 0]
termination_by i
decreasing_by exact Nat.div_lt_self (by omega) (by decide)

/-- `convertHex(buf, value)`. -/
def convertHex (value : UInt64) : Bytes × Nat :=
  let p := convertHexLoop value.toNat
  (p.reverse ++ [0], p.length)

/-- The decimal numeral of an integer. -/
def decimalInt (v : Int) : Bytes := if v < 0 then 45 :: decimal v.natAbs else decimal v.natAbs

/-- The upper-case hexadecimal numeral of a number. -/
def hexadecimal (n : Nat) : Bytes := (Nat.toDigits 16 n).map fun c => UInt8.ofNat c.toUpper.toNat

/-- An optional minus sign and digits, without a leading zero or a negative zero. -/
def IsDecimal (text : Bytes) : Prop :=
  ∃ digits : Bytes, isNumeral digits = true ∧ (digits.head? = some 48 → digits = [48]) ∧
    (text = digits ∨ text = 45 :: digits ∧ digits ≠ [48])

/-- The integer that a decimal numeral denotes. -/
def decodeInt : Bytes → Int
  | 45 :: digits => -(digitsValue 0 digits : Int)
  | digits => digitsValue 0 digits

theorem digitChar_byte {d : Nat} (h : d < 10) :
    UInt8.ofNat (Nat.digitChar d).toNat = UInt8.ofInt (48 + (d : Int)) := by
  interval_cases d <;> decide

theorem digitChar_hex {d : Nat} (h : d < 16) :
    UInt8.ofNat (Nat.digitChar d).toUpper.toNat = digitsHex.getD d 0 := by
  interval_cases d <;> decide

/-- On a number that is not negative the loop writes the decimal numeral from the back. -/
theorem convertIntLoop_eq (n : Nat) : (convertIntLoop n).reverse = decimal n := by
  induction n using Nat.strong_induction_on with
  | _ n ih =>
    have hdiv : (n : Int).tdiv 10 = (n / 10 : Nat) := by
      rw [Int.tdiv_eq_ediv_of_nonneg (by omega)]
      rfl
    have hmod : (n : Int).tmod 10 = (n % 10 : Nat) := by
      rw [Int.tmod_eq_emod_of_nonneg (by omega)]
      rfl
    have hlsd := digitChar_byte (Nat.mod_lt n (show 0 < 10 by decide))
    rw [convertIntLoop]
    rw [hdiv, hmod, decimal, Nat.toDigits_eq_if (by decide)]
    by_cases hn : n < 10
    · have hzero : ¬((n / 10 : Nat) : Int) ≠ 0 := by omega
      rw [dif_neg hzero, if_pos hn, ← hlsd, Nat.mod_eq_of_lt hn]
      rfl
    · have hpos : ((n / 10 : Nat) : Int) ≠ 0 := by omega
      rw [dif_pos hpos, if_neg hn, List.reverse_cons, ih (n / 10) (by omega), List.map_append,
        List.map_singleton, hlsd]
      rfl

theorem convertHexLoop_eq (n : Nat) : (convertHexLoop n).reverse = hexadecimal n := by
  induction n using Nat.strong_induction_on with
  | _ n ih =>
    have hlsd := digitChar_hex (Nat.mod_lt n (show 0 < 16 by decide))
    rw [convertHexLoop, hexadecimal, Nat.toDigits_eq_if (by decide)]
    by_cases hn : n < 16
    · have hzero : ¬n / 16 ≠ 0 := by omega
      rw [dif_neg hzero, if_pos hn, ← hlsd, Nat.mod_eq_of_lt hn]
      rfl
    · have hpos : n / 16 ≠ 0 := by omega
      rw [dif_pos hpos, if_neg hn, List.reverse_cons, ih (n / 16) (by omega), List.map_append,
        List.map_singleton, hlsd]
      rfl

theorem decimal_eq_if (n : Nat) :
    decimal n = if n < 10 then [UInt8.ofInt (48 + (n : Int))]
      else decimal (n / 10) ++ [UInt8.ofInt (48 + ((n % 10 : Nat) : Int))] := by
  have hlsd := digitChar_byte (Nat.mod_lt n (show 0 < 10 by decide))
  rw [decimal, Nat.toDigits_eq_if (by decide)]
  split_ifs with hn
  · rw [List.map_singleton, digitChar_byte hn]
  · rw [List.map_append, List.map_singleton, hlsd]
    rfl

theorem decimal_ne_nil (n : Nat) : decimal n ≠ [] := by
  simp [decimal]

theorem decimal_length_le {n k : Nat} (hk : 0 < k) (h : n < 10^k) : (decimal n).length ≤ k := by
  rw [decimal, List.length_map]
  exact (Nat.length_toDigits_le_iff (by decide) hk).mpr h

theorem hexadecimal_length_le {n k : Nat} (hk : 0 < k) (h : n < 16^k) :
    (hexadecimal n).length ≤ k := by
  rw [hexadecimal, List.length_map]
  exact (Nat.length_toDigits_le_iff (by decide) hk).mpr h

/-- Only the numeral of zero begins with a zero. -/
theorem decimal_head (n : Nat) (h : (decimal n).head? = some 48) : n = 0 := by
  induction n using Nat.strong_induction_on with
  | _ n ih =>
    rw [decimal_eq_if] at h
    split_ifs at h with hn
    · rw [List.head?_cons, Option.some.injEq] at h
      interval_cases n <;> first | rfl | exact absurd h (by decide)
    · rw [List.head?_append_of_ne_nil _ (decimal_ne_nil _)] at h
      have hzero := ih (n / 10) (by omega) h
      omega

theorem isDecimal_decimalInt (v : Int) : IsDecimal (decimalInt v) := by
  have hzero : (decimal v.natAbs).head? = some 48 → decimal v.natAbs = [48] := by
    intro hhead
    rw [decimal_head _ hhead]
    rfl
  refine ⟨decimal v.natAbs, isNumeral_decimal _, hzero, ?_⟩
  rw [decimalInt]
  split_ifs with hneg
  · refine .inr ⟨rfl, fun hd => ?_⟩
    have hnat := decimal_head v.natAbs (by rw [hd]; rfl)
    omega
  · exact .inl rfl

theorem decodeInt_digits {s : Bytes} (h : s.head? ≠ some 45) :
    decodeInt s = digitsValue 0 s := by
  unfold decodeInt
  split
  · simp at h
  · rfl

theorem decodeInt_decimalInt (v : Int) : decodeInt (decimalInt v) = v := by
  rw [decimalInt]
  split_ifs with hneg
  · rw [decodeInt, digitsValue_decimal]
    omega
  · rw [decodeInt_digits, digitsValue_decimal]
    · omega
    · intro hhead
      have hdigit := decimal_isdigit (List.mem_of_mem_head? hhead)
      exact absurd hdigit (by decide)

/-- On any number the loop writes as many digits as the decimal numeral has. -/
theorem convertIntLoop_length (i : Int) :
    (convertIntLoop i).length = (decimal i.natAbs).length := by
  induction hn : i.natAbs using Nat.strong_induction_on generalizing i with
  | _ n ih =>
    have hdiv : (i.tdiv 10).natAbs = n / 10 := by
      rw [Int.natAbs_tdiv, hn]
      rfl
    rw [convertIntLoop]
    rw [decimal_eq_if]
    by_cases hlt : n < 10
    · have hzero : ¬i.tdiv 10 ≠ 0 := by omega
      rw [dif_neg hzero, if_pos hlt]
      rfl
    · have hpos : i.tdiv 10 ≠ 0 := by omega
      have hrest := ih (n / 10) (by omega) (i.tdiv 10) hdiv
      rw [dif_pos hpos, if_neg hlt, List.length_cons, hrest, List.length_append]
      rfl

namespace IntType

variable {t : IntType}

/-- Only the least value of a signed type has a negation that the type does not have. -/
def Least (v : t.Value) : Prop := t.signed = true ∧ v.val = t.min

instance (v : t.Value) : Decidable (Least v) := inferInstanceAs (Decidable (_ ∧ _))

theorem Value.natAbs_lt (v : t.Value) : v.val.natAbs < 2^64 := by
  have hge := v.ge
  have hle := v.le
  cases t <;> simp only [min, max, signed, width] at hge hle <;> simp at hge hle <;> omega

/-- The type has the negation of a negative value unless the value is the least one. -/
theorem Value.wrap_neg {v : t.Value} (hneg : v.val < 0) (h : ¬Least v) :
    t.wrap (-v.val) = -v.val := by
  have hge := v.ge
  have hle := v.le
  unfold Least at h
  cases t <;> simp only [min, max, signed, width, wrap] at * <;> simp at * <;>
    first
    | omega
    | exact Int.bmod_eq_of_le (by omega) (by omega)

theorem Value.wrap_least {v : t.Value} (h : Least v) : t.wrap (-v.val) = v.val := by
  rw [h.2]
  cases t <;> decide

end IntType

/-- Whatever the value, the text is as long as its numeral. -/
theorem convertInt_length (t : IntType) (v : t.Value) :
    (convertInt t v).1.length = (decimalInt v.val).length + 1 ∧
      (convertInt t v).2 = (decimalInt v.val).length := by
  have hloop : ∀ i : Int, i.natAbs = v.val.natAbs →
      (convertIntLoop i).length = (decimal v.val.natAbs).length := by
    intro i hi
    rw [convertIntLoop_length, hi]
  by_cases hneg : v.val < 0
  · have hlen := hloop (t.wrap (-v.val)) (by
      by_cases hleast : IntType.Least v
      · rw [IntType.Value.wrap_least hleast]
      · rw [IntType.Value.wrap_neg hneg hleast, Int.natAbs_neg])
    simp [convertInt, decimalInt, hneg, hlen]
  · have hlen := hloop v.val rfl
    simp [convertInt, decimalInt, hneg, hlen]

/-- A value that can be negated is converted to its numeral. -/
theorem convertInt_eq {t : IntType} {v : t.Value} (h : ¬IntType.Least v) :
    convertInt t v = (decimalInt v.val ++ [0], (decimalInt v.val).length) := by
  have htext : (convertInt t v).1 = decimalInt v.val ++ [0] := by
    by_cases hneg : v.val < 0
    · have hloop := convertIntLoop_eq v.val.natAbs
      rw [Int.ofNat_natAbs_of_nonpos hneg.le] at hloop
      simp [convertInt, decimalInt, hneg, IntType.Value.wrap_neg hneg h, hloop]
    · have hloop := convertIntLoop_eq v.val.natAbs
      rw [Int.natAbs_of_nonneg (by omega)] at hloop
      simp [convertInt, decimalInt, hneg, hloop]
  exact Prod.ext htext (convertInt_length t v).2

/-- The last digit of a value that cannot be negated is no digit. -/
theorem convertInt_least {t : IntType} {v : t.Value} (h : IntType.Least v) :
    ∃ text, (convertInt t v).1 = text ++ [40, 0] := by
  have hneg : v.val < 0 := by
    rw [h.2]
    obtain ⟨hsigned, -⟩ := h
    cases t <;> first | cases hsigned; done | decide
  obtain ⟨rest, hrest⟩ : ∃ rest, convertIntLoop v.val = 40 :: rest := by
    rw [convertIntLoop]
    rw [h.2]
    obtain ⟨hsigned, -⟩ := h
    cases t <;> first | cases hsigned; done | exact ⟨_, rfl⟩
  refine ⟨45 :: rest.reverse, ?_⟩
  simp [convertInt, hneg, IntType.Value.wrap_least h, hrest]

theorem IsDecimal.mem {text : Bytes} (h : IsDecimal text) {c : UInt8} (hc : c ∈ text) :
    c = 45 ∨ isdigit c = true := by
  obtain ⟨digits, hdigits, -, htext⟩ := h
  simp only [isNumeral, Bool.and_eq_true] at hdigits
  rcases htext with rfl | ⟨rfl, -⟩
  · exact .inr (List.all_eq_true.mp hdigits.2 c hc)
  · rcases List.mem_cons.mp hc with rfl | hc
    · exact .inl rfl
    · exact .inr (List.all_eq_true.mp hdigits.2 c hc)

theorem not_isDecimal_of_least {t : IntType} {v : t.Value} (h : IntType.Least v) :
    ¬IsDecimal (convertInt t v).1.dropLast := by
  intro hdec
  obtain ⟨text, htext⟩ := convertInt_least h
  have hmem : (40 : UInt8) ∈ (convertInt t v).1.dropLast := by
    rw [htext]
    simp
  rcases hdec.mem hmem with hc | hc
  · exact absurd hc (by decide)
  · exact absurd hc (by decide)

theorem decimalInt_length_le {t : IntType} (v : t.Value) : (decimalInt v.val).length ≤ 21 := by
  have hlt := v.natAbs_lt
  have hlen := decimal_length_le (n := v.val.natAbs) (k := 20) (by decide) (by omega)
  rw [decimalInt]
  split_ifs
  · rw [List.length_cons]
    omega
  · omega

/-- The numeral of `v` and a NUL are written, the length of the numeral is returned, and the bytes
written are no more than there is room for. -/
def ConvertsExactly (t : IntType) (v : t.Value) : Prop :=
  ∃ text, convertInt t v = (text ++ [0], text.length) ∧ IsDecimal text ∧
    decodeInt text = v.val ∧ text.length + 1 ≤ MAX_NUMERIC_SIZE

theorem not_exact_of_least {t : IntType} {v : t.Value} (h : IntType.Least v) :
    ¬ConvertsExactly t v := by
  rintro ⟨text, hconv, hdec, -, -⟩
  have hdrop := not_isDecimal_of_least h
  rw [hconv, List.dropLast_concat] at hdrop
  exact hdrop hdec

/-- Every value of every type is converted exactly but the least value of a signed type, whose
negation wraps to itself. -/
theorem convertInt_exact_iff (t : IntType) (v : t.Value) :
    ConvertsExactly t v ↔ ¬IntType.Least v := by
  constructor
  · exact fun hexact hleast => not_exact_of_least hleast hexact
  · intro hleast
    have hlen := decimalInt_length_le v
    exact ⟨_, convertInt_eq hleast, isDecimal_decimalInt _, decodeInt_decimalInt _, by
      unfold MAX_NUMERIC_SIZE
      omega⟩

/-- `INT_MIN` is not negated, and each of its digits is written below `'0'`. -/
theorem convertInt_intMin :
    (convertInt .int ⟨-2^31, by decide, by decide⟩).1 = bytes "-./,),(-*,(" ++ [0] ∧
      ¬ConvertsExactly .int ⟨-2^31, by decide, by decide⟩ := by
  refine ⟨?_, not_exact_of_least ⟨rfl, rfl⟩⟩
  simp [convertInt, convertIntLoop, IntType.wrap, IntType.signed, IntType.width, bytes]
  decide

end MuduoServer
