import Mathlib.Data.List.Basic
import Mathlib.Tactic.Ring
import Mathlib.Algebra.Order.Ring.Int

namespace MuduoServer

/-- A `std::string`, or the bytes behind a `const char*` and a length. -/
abbrev Bytes := List UInt8

/-- A string literal of the source as bytes. -/
def bytes (s : String) : Bytes := s.toList.map (fun c => UInt8.ofNat c.toNat)

/-- A C string in memory: the bytes that `strlen` counts. -/
def cText (str : Bytes) : Bytes := str.takeWhile (· ≠ 0)

def CR : UInt8 := 13
def LF : UInt8 := 10

/-- `isblank` in the C locale: the blank and the horizontal tab. -/
def isblank (c : UInt8) : Bool := c == 32 || c == 9

def isupper (c : UInt8) : Bool := 65 ≤ c && c ≤ 90

def isdigit (c : UInt8) : Bool := 48 ≤ c && c ≤ 57

def isspace (c : UInt8) : Bool := c == 32 || (9 ≤ c && c ≤ 13)

/-- One more than the largest value of `size_t`. -/
def sizeTop : Nat := 2^64

/-- The conversion of a signed value to `size_t`. -/
def toSizeT (i : Int) : Nat := (i % (sizeTop : Int)).toNat

/-- `static_cast<size_t>(-1)`, the value of `contentLength_` while no length is known. -/
def npos : Nat := sizeTop - 1

theorem toSizeT_natCast (n : Nat) (h : n < sizeTop) : toSizeT n = n := by
  have hm : ((n : Int) % (sizeTop : Int)) = n := Int.emod_eq_of_lt (by omega) (by exact_mod_cast h)
  simp [toSizeT, hm]

/-- The value of a negative number that is small in size wraps to the top of the range. -/
theorem toSizeT_neg (n : Nat) (h0 : 0 < n) (h : n ≤ sizeTop) :
    toSizeT (-(n : Int)) = sizeTop - n := by
  have hm : (-(n : Int)) % (sizeTop : Int) = (sizeTop : Int) - n := by
    rw [← Int.add_emod_right, Int.emod_eq_of_lt] <;> omega
  rw [toSizeT]
  rw [hm]
  omega

/-- The digits read by `strtol` from the left, up to the first byte that is no digit. -/
def digitsValue (acc : Nat) : Bytes → Nat
  | [] => acc
  | c :: cs => if isdigit c then digitsValue (10 * acc + (c.toNat - 48)) cs else acc

/-- `strtol(s, nullptr, 10)`: blanks, an optional sign, digits; saturating at the ends of `long`. -/
def strtol (s : Bytes) : Int :=
  match s.dropWhile isspace with
  | c :: cs =>
    if c == 45 then max (-(2^63)) (-(digitsValue 0 cs : Int))
    else if c == 43 then min (2^63 - 1) (digitsValue 0 cs)
    else min (2^63 - 1) (digitsValue 0 (c :: cs))
  | [] => 0

/-- `atoi(s)` as `static_cast<int>(strtol(s, nullptr, 10))`. -/
def atoi (s : Bytes) : Int := (strtol s).bmod (2^32)

/-- A decimal numeral: at least one digit and nothing else. -/
def isNumeral (s : Bytes) : Bool := !s.isEmpty && s.all isdigit

theorem atoi_numeral (s : Bytes) (h : isNumeral s = true) (hv : digitsValue 0 s < 2^31) :
    atoi s = digitsValue 0 s := by
  obtain ⟨hne, hall⟩ : s ≠ [] ∧ s.all isdigit := by simpa [isNumeral] using h
  obtain ⟨c, cs, rfl⟩ := List.exists_cons_of_ne_nil hne
  have hc : isdigit c = true := by simp at hall; exact hall.1
  have hsp : isspace c = false := by
    simp only [isdigit, Bool.and_eq_true, decide_eq_true_eq, UInt8.le_iff_toNat_le] at hc
    simp only [isspace, Bool.or_eq_false_iff, beq_eq_false_iff_ne, Bool.and_eq_false_iff,
      decide_eq_false_iff_not, UInt8.le_iff_toNat_le, ne_eq, ← UInt8.toNat_inj]
    have h48 : (48 : UInt8).toNat = 48 := rfl
    have h13 : (13 : UInt8).toNat = 13 := rfl
    have h32 : (32 : UInt8).toNat = 32 := rfl
    omega
  have hsign : c ≠ 45 ∧ c ≠ 43 := by
    simp only [isdigit, Bool.and_eq_true, decide_eq_true_eq, UInt8.le_iff_toNat_le] at hc
    have h48 : (48 : UInt8).toNat = 48 := rfl
    constructor <;> rintro rfl <;> simp at hc
  have hl : strtol (c :: cs) = digitsValue 0 (c :: cs) := by
    have hd : (c :: cs).dropWhile isspace = c :: cs := by simp [List.dropWhile, hsp]
    simp only [strtol, hd, beq_iff_eq, hsign.1, hsign.2, if_false]
    omega
  rw [atoi, hl]
  apply Int.bmod_eq_of_le <;> omega

/-- `std::to_string` of an unsigned number. -/
def decimal (n : Nat) : Bytes := (Nat.toDigits 10 n).map fun c => UInt8.ofNat c.toNat

theorem isDigit_byte {c : Char} (h : c.isDigit = true) :
    48 ≤ c.toNat ∧ c.toNat ≤ 57 ∧ (UInt8.ofNat c.toNat).toNat = c.toNat := by
  have hb : 48 ≤ c.toNat ∧ c.toNat ≤ 57 := by
    simp only [Char.isDigit, Bool.and_eq_true, decide_eq_true_eq, ge_iff_le,
      UInt32.le_iff_toNat_le] at h
    exact h
  refine ⟨hb.1, hb.2, ?_⟩
  rw [UInt8.toNat_ofNat']
  omega

theorem isdigit_of_isDigit {c : Char} (h : c.isDigit = true) :
    isdigit (UInt8.ofNat c.toNat) = true := by
  obtain ⟨hlo, hhi, heq⟩ := isDigit_byte h
  simp only [isdigit, Bool.and_eq_true, decide_eq_true_eq, UInt8.le_iff_toNat_le, heq]
  exact ⟨hlo, hhi⟩

theorem decimal_isdigit {n : Nat} {c : UInt8} (h : c ∈ decimal n) : isdigit c = true := by
  obtain ⟨d, hd, rfl⟩ := List.mem_map.mp h
  exact isdigit_of_isDigit (Nat.isDigit_of_mem_toDigits (by decide) (by decide) hd)

theorem digitsValue_map (acc : Nat) (cs : List Char) (h : ∀ c ∈ cs, c.isDigit = true) :
    digitsValue acc (cs.map fun c => UInt8.ofNat c.toNat) = Nat.ofDigitChars 10 cs acc := by
  induction cs generalizing acc with
  | nil => simp [digitsValue]
  | cons c cs ih =>
    have hc := h c (by simp)
    rw [List.map_cons, digitsValue, if_pos (isdigit_of_isDigit hc), (isDigit_byte hc).2.2,
      ih _ (fun d hd => h d (by simp [hd])), Nat.ofDigitChars_cons]
    rfl

/-- A number that is written is read back. -/
theorem digitsValue_decimal (n : Nat) : digitsValue 0 (decimal n) = n := by
  rw [decimal, digitsValue_map _ _
    (fun c hc => Nat.isDigit_of_mem_toDigits (by decide) (by decide) hc)]
  exact Nat.ofDigitChars_toDigits (by decide) (by decide)

theorem isNumeral_decimal (n : Nat) : isNumeral (decimal n) = true := by
  have hne : decimal n ≠ [] := by simp [decimal, Nat.toDigits_ne_nil]
  simp only [isNumeral, Bool.and_eq_true, Bool.not_eq_true', List.isEmpty_eq_false_iff,
    List.all_eq_true]
  exact ⟨hne, fun c hc => decimal_isdigit hc⟩

end MuduoServer
