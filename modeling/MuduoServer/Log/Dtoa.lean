import Mathlib.Data.List.DropRight
import Mathlib.Data.Nat.Log
import MuduoServer.Framework.Slice
import MuduoServer.Log.Grisu3
import MuduoServer.Log.Integers

namespace MuduoServer

namespace Sprintf

/-- `%08X`. -/
def hex8 (v : UInt32) : Bytes :=
  (List.range 8).map fun i => digitsHex.getD (v.toNat / 16^(7 - i) % 16) 0

/-- The integer next to `a / b`, a tie to the even one. -/
def roundHalfEven (a b : Nat) : Nat :=
  let q := a / b
  let r := a % b
  if b < 2 * r ∨ b = 2 * r ∧ q % 2 = 1 then q + 1 else q

/-- The exponent of the first digit of `a / b`. -/
def exponent10 (a b : Nat) : Int :=
  if b ≤ a then Nat.log 10 (a / b) else -(Nat.clog 10 ((b + a - 1) / a) : Nat)

/-- Seventeen digits of `a / b`, and the exponent of the first one. -/
def scientific (a b : Nat) : Nat × Int :=
  let x := exponent10 a b
  let m := if x ≤ 16 then roundHalfEven (a * 10^(16 - x).toNat) b
    else roundHalfEven a (b * 10^(x - 16).toNat)
  if m = 10^17 then (10^16, x + 1) else (m, x)

def stripZeros (s : Bytes) : Bytes := s.rdropWhile (· == 48)

/-- A point stands only in front of digits. -/
def withPoint (frac : Bytes) : Bytes := if frac = [] then [] else 46 :: frac

/-- An exponent has two digits at least. -/
def exponentText (x : Int) : Bytes :=
  (if x < 0 then 45 else 43) :: if x.natAbs < 10 then 48 :: decimal x.natAbs else decimal x.natAbs

/-- `%.17g`, for the number `a / b`. -/
def formatG17 (a b : Nat) : Bytes :=
  let (m, x) := scientific a b
  let digits := decimal m
  if x < -4 ∨ 17 ≤ x then
    digits.take 1 ++ withPoint (stripZeros (digits.drop 1)) ++ 101 :: exponentText x
  else if 0 ≤ x then
    digits.take (x + 1).toNat ++ withPoint (stripZeros (digits.drop (x + 1).toNat))
  else 48 :: withPoint (stripZeros (List.replicate (-x - 1).toNat 48 ++ digits))

end Sprintf

namespace Grisu3

/-- Bytes written from position `i` on. `none` is a write outside the memory. -/
def store (mem : Bytes) (i : Nat) (bs : Bytes) : Option Bytes :=
  if i + bs.length ≤ mem.length then some (Slice.overwrite mem i bs) else none

/-- The first loop of `u32_to_string`: the digits, the least significant one first. -/
def u32Digits (val : Nat) : Bytes :=
  let ni := val / 10
  let digit := val - ni * 10
  if _ : ni = 0 then [digitChar digit] else digitChar digit :: u32Digits ni
termination_by val
decreasing_by exact Nat.div_lt_self (by omega) (by decide)

/-- The second loop of `u32_to_string`, from round `i` on. -/
def swapLoop (str : Bytes) (i : Nat) : Nat → Bytes
  | 0 => str
  | n + 1 =>
    let ch := str.getD i 0
    let str := str.set i (str.getD (str.length - 1 - i) 0)
    swapLoop (str.set (str.length - 1 - i) ch) (i + 1) n

/-- `u32_to_string`: the text, in front of the NUL. -/
def u32ToString (val : UInt32) : Bytes :=
  let str := u32Digits val.toNat
  swapLoop str 0 (str.length / 2)

/-- `i32_to_string`, for an `int` that is not the least one. -/
def i32ToString (i : Int) : Bytes :=
  if i < 0 then 45 :: u32ToString (UInt32.ofNat (-i).toNat) else u32ToString (UInt32.ofNat i.toNat)

/-- `s2[len++] = 'e'` and the exponent behind it, with the NUL that `u32_to_string` writes. -/
def storeExponent (mem : Bytes) (s2 len : Nat) (dExp : Int) : Option (Bytes × Nat) := do
  let mem ← store mem (s2 + len) [101]
  let text := i32ToString dExp
  let mem ← store mem (s2 + (len + 1)) (text ++ [0])
  some (mem, len + 1 + text.length)

/-- The presentation that `dtoa_grisu3` decides for: the digits stand at `s2`. -/
def presentText (mem : Bytes) (s2 len : Nat) (dExp : Int) : Option (Bytes × Nat) := do
  let decimals := (min (-dExp) (max 1 ((len : Int) - 1))).toNat
  if dExp < 0 ∧ len > 1 then
    let mem ← Slice.copyBackward mem (s2 + len) (s2 + len - 1) decimals
    let mem ← store mem (s2 + (len - decimals)) [46]
    if dExp + decimals ≠ 0 then storeExponent mem s2 (len + 1) (dExp + decimals)
    else some (mem, len + 1)
  else if dExp < 0 ∧ dExp ≥ -3 then
    let zeros := (-dExp).toNat - 1
    let mem ← Slice.copyBackward mem (s2 + len + zeros) (s2 + len - 1) len
    let mem ← store mem s2 [46]
    let mem ← store mem (s2 + 1) (List.replicate zeros 48)
    some (mem, len + (-dExp).toNat)
  else if dExp < 0 ∨ dExp > 2 then storeExponent mem s2 len dExp
  else
    let mem ← store mem (s2 + len) (List.replicate dExp.toNat 48)
    some (mem, len + dExp.toNat)

/-- The rest of `dtoa_grisu3` behind `grisu3`. -/
def present (mem : Bytes) (s2 len : Nat) (dExp : Int) : Option (Bytes × Nat) := do
  let (mem, len) ← presentText mem s2 len dExp
  let mem ← store mem (s2 + len) [0]
  some (mem, s2 + len)

/-- A `double` as a fraction. -/
def doubleRatio (u64 : UInt64) : Nat × Nat :=
  let d := double2diyFp u64
  if 0 ≤ d.e then (d.f.toNat * 2^d.e.toNat, 1) else (d.f.toNat, 2^(-d.e).toNat)

/-- `dtoa_grisu3` of a number that is not negative, with `s2` behind the sign. -/
def dtoaPositive (u64 : UInt64) (mem : Bytes) (s2 : Nat) : Option (Bytes × Nat) := do
  if u64 = 0 then
    let mem ← store mem s2 [48, 0]
    some (mem, s2 + 1)
  else if u64 = D64_EXP_MASK then
    let mem ← store mem s2 (bytes "inf" ++ [0])
    some (mem, s2 + 3)
  else
    let r ← grisu3 u64
    let mem ← store mem s2 r.buffer
    if r.success = false then
      let (a, b) := doubleRatio u64
      let text := Sprintf.formatG17 a b
      let mem ← store mem s2 (text ++ [0])
      some (mem, text.length + s2)
    else present mem s2 r.buffer.length r.kappa

/-- `dtoa_grisu3`, for the bits of the `double`: the memory from `dst` on, and what is returned. -/
def dtoaGrisu3 (u64 : UInt64) (dst : Bytes) : Option (Bytes × Nat) := do
  if u64 <<< 1 > 0xFFE0000000000000 then
    let text := bytes "NaN(" ++ Sprintf.hex8 (u64 >>> 32).toUInt32 ++
      Sprintf.hex8 u64.toUInt32 ++ bytes ")"
    let dst ← store dst 0 (text ++ [0])
    some (dst, text.length)
  else if u64 &&& D64_SIGN ≠ 0 then
    let dst ← store dst 0 [45]
    dtoaPositive (u64 ^^^ D64_SIGN) dst 1
  else dtoaPositive u64 dst 0

end Grisu3

end MuduoServer
