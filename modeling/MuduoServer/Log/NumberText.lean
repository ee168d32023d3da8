import Mathlib.Algebra.Order.Field.Power
import Mathlib.Algebra.Order.Ring.Rat
import Mathlib.Tactic.FieldSimp
import Mathlib.Tactic.Positivity
import Mathlib.Tactic.Ring
import MuduoServer.Log.Integers

namespace MuduoServer

/-! What a text that is one decimal number and nothing else stands for. -/

def readExponent (s : Bytes) : Option Int :=
  match s with
  | 45 :: digits => if isNumeral digits then some (-digitsValue 0 digits) else none
  | 43 :: digits => if isNumeral digits then some (digitsValue 0 digits) else none
  | digits => if isNumeral digits then some (digitsValue 0 digits) else none

/-- What may stand behind the digits. -/
def readTail : Bytes → Option Int
  | [] => some 0
  | 101 :: s => readExponent s
  | _ => none

/-- The digits behind a point, and what comes behind them. -/
def readFraction : Bytes → Bytes × Bytes
  | 46 :: s => (s.takeWhile isdigit, s.dropWhile isdigit)
  | s => ([], s)

/-- Digits, of which some may stand behind a point, and an exponent or none. -/
def readUnsigned (s : Bytes) : Option ℚ :=
  let int := s.takeWhile isdigit
  let (frac, tail) := readFraction (s.dropWhile isdigit)
  if int ++ frac = [] then none
  else (readTail tail).map fun e : Int =>
    (digitsValue 0 (int ++ frac) : ℚ) * 10^(e - (frac.length : Int))

def readNumber (s : Bytes) : Option ℚ :=
  match s with
  | 45 :: s => (readUnsigned s).map fun x => -x
  | s => readUnsigned s

variable {int frac tail s : Bytes} {e : Int}

/-- Digits, and what comes behind them. -/
theorem span_digits (hint : ∀ c ∈ int, isdigit c = true)
    (htail : ∀ c ∈ tail.head?, isdigit c = false) :
    (int ++ tail).takeWhile isdigit = int ∧ (int ++ tail).dropWhile isdigit = tail := by
  have htake : tail.takeWhile isdigit = [] ∧ tail.dropWhile isdigit = tail := by
    cases tail with
    | nil => exact ⟨rfl, rfl⟩
    | cons c cs =>
      have hc := htail c rfl
      rw [List.takeWhile_cons, List.dropWhile_cons, hc]
      exact ⟨rfl, rfl⟩
  rw [List.takeWhile_append_of_pos hint, List.dropWhile_append_of_pos hint, htake.1, htake.2,
    List.append_nil]
  exact ⟨rfl, rfl⟩

theorem readTail_head (h : readTail tail = some e) :
    ∀ c ∈ tail.head?, isdigit c = false ∧ c ≠ 46 := by
  rintro c hc
  cases tail with
  | nil => simp at hc
  | cons d ds =>
    obtain rfl : d = c := by simpa using hc
    rw [readTail.eq_def] at h
    split at h
    · contradiction
    · rename_i hcons
      rw [List.cons.injEq] at hcons
      rw [hcons.1]
      exact ⟨rfl, by decide⟩
    · contradiction

/-- Digits without a point. -/
theorem readUnsigned_integer (hint : ∀ c ∈ int, isdigit c = true) (hne : int ≠ [])
    (htail : readTail tail = some e) :
    readUnsigned (int ++ tail) = some ((digitsValue 0 int : ℚ) * 10^e) := by
  obtain ⟨htake, hdrop⟩ := span_digits hint fun c hc => (readTail_head htail c hc).1
  have hfraction : readFraction tail = ([], tail) := by
    rw [readFraction.eq_def]
    split
    · exact absurd rfl (readTail_head htail 46 rfl).2
    · rfl
  rw [readUnsigned, htake, hdrop, hfraction]
  dsimp only
  rw [List.append_nil, if_neg hne, htail, Option.map_some, List.length_nil, Nat.cast_zero, sub_zero]

/-- Digits with a point in front of them or between them. -/
theorem readUnsigned_point (hint : ∀ c ∈ int, isdigit c = true)
    (hfrac : ∀ c ∈ frac, isdigit c = true) (hne : int ++ frac ≠ [])
    (htail : readTail tail = some e) :
    readUnsigned (int ++ 46 :: (frac ++ tail)) =
      some ((digitsValue 0 (int ++ frac) : ℚ) * 10^(e - (frac.length : Int))) := by
  have hpoint : ∀ c ∈ (46 :: (frac ++ tail)).head?, isdigit c = false := by
    rintro c hc
    obtain rfl : 46 = c := by simpa using hc
    rfl
  obtain ⟨htake, hdrop⟩ := span_digits hint hpoint
  obtain ⟨htake', hdrop'⟩ := span_digits hfrac fun c hc => (readTail_head htail c hc).1
  have hfraction : readFraction (46 :: (frac ++ tail)) = (frac, tail) := by
    rw [readFraction, htake', hdrop']
  rw [readUnsigned, htake, hdrop, hfraction]
  dsimp only
  rw [if_neg hne, htail, Option.map_some]

theorem readNumber_of_digit (h : ∀ c ∈ s.head?, c ≠ 45) : readNumber s = readUnsigned s := by
  rw [readNumber.eq_def]
  split
  · exact absurd rfl (h 45 rfl)
  · rfl

theorem readNumber_negative (x : ℚ) (h : readUnsigned s = some x) :
    readNumber (45 :: s) = some (-x) := by
  rw [readNumber, h, Option.map_some]

theorem readTail_decimalInt (i : Int) : readTail (101 :: decimalInt i) = some i := by
  have hvalue := digitsValue_decimal i.natAbs
  have hnumeral := isNumeral_decimal i.natAbs
  rw [readTail, decimalInt]
  split_ifs with hneg
  · rw [readExponent, if_pos hnumeral, hvalue]
    congr 1
    omega
  · rw [readExponent.eq_def]
    have hdigit : ∀ c ∈ (decimal i.natAbs).head?, isdigit c = true := fun c hc =>
      decimal_isdigit (List.mem_of_mem_head? hc)
    split
    · rename_i hcons
      exact absurd (hdigit 45 (by rw [hcons]; rfl)) (by decide)
    · rename_i hcons
      exact absurd (hdigit 43 (by rw [hcons]; rfl)) (by decide)
    · rw [if_pos hnumeral, hvalue]
      congr 1
      omega

end MuduoServer
