import MuduoServer.Base.Bytes
import MuduoServer.Framework.While

namespace MuduoServer.Grisu3

def D64_SIGN : UInt64 := 0x8000000000000000
def D64_EXP_MASK : UInt64 := 0x7FF0000000000000
def D64_FRACT_MASK : UInt64 := 0x000FFFFFFFFFFFFF
def D64_IMPLICIT_ONE : UInt64 := 0x0010000000000000
def D64_EXP_POS : UInt64 := 52
def D64_EXP_BIAS : Int := 1075
def DIYFP_FRACT_SIZE : Int := 64
def MIN_TARGET_EXP : Int := -60
def MASK32 : UInt64 := 0xFFFFFFFF
def MIN_CACHED_EXP : Int := -348
def CACHED_EXP_STEP : Int := 8

/-- `0.30102999566398114` in units of `2^-53`. -/
def D_1_LOG2_10 : Nat := 2711437152599295

/-- `diy_fp`: the number `f * 2^e`. -/
structure DiyFp where
  f : UInt64
  e : Int
  deriving DecidableEq

/-- `power`: `fract * 2^b_exp` is near to `10^d_exp`. -/
structure Power where
  fract : UInt64
  bExp : Int
  dExp : Int

def powCache : List Power :=
  [⟨0xfa8fd5a0081c0288, -1220, -348⟩, ⟨0xbaaee17fa23ebf76, -1193, -340⟩,
   ⟨0x8b16fb203055ac76, -1166, -332⟩, ⟨0xcf42894a5dce35ea, -1140, -324⟩,
   ⟨0x9a6bb0aa55653b2d, -1113, -316⟩, ⟨0xe61acf033d1a45df, -1087, -308⟩,
   ⟨0xab70fe17c79ac6ca, -1060, -300⟩, ⟨0xff77b1fcbebcdc4f, -1034, -292⟩,
   ⟨0xbe5691ef416bd60c, -1007, -284⟩, ⟨0x8dd01fad907ffc3c, -980, -276⟩,
   ⟨0xd3515c2831559a83, -954, -268⟩, ⟨0x9d71ac8fada6c9b5, -927, -260⟩,
   ⟨0xea9c227723ee8bcb, -901, -252⟩, ⟨0xaecc49914078536d, -874, -244⟩,
   ⟨0x823c12795db6ce57, -847, -236⟩, ⟨0xc21094364dfb5637, -821, -228⟩,
   ⟨0x9096ea6f3848984f, -794, -220⟩, ⟨0xd77485cb25823ac7, -768, -212⟩,
   ⟨0xa086cfcd97bf97f4, -741, -204⟩, ⟨0xef340a98172aace5, -715, -196⟩,
   ⟨0xb23867fb2a35b28e, -688, -188⟩, ⟨0x84c8d4dfd2c63f3b, -661, -180⟩,
   ⟨0xc5dd44271ad3cdba, -635, -172⟩, ⟨0x936b9fcebb25c996, -608, -164⟩,
   ⟨0xdbac6c247d62a584, -582, -156⟩, ⟨0xa3ab66580d5fdaf6, -555, -148⟩,
   ⟨0xf3e2f893dec3f126, -529, -140⟩, ⟨0xb5b5ada8aaff80b8, -502, -132⟩,
   ⟨0x87625f056c7c4a8b, -475, -124⟩, ⟨0xc9bcff6034c13053, -449, -116⟩,
   ⟨0x964e858c91ba2655, -422, -108⟩, ⟨0xdff9772470297ebd, -396, -100⟩,
   ⟨0xa6dfbd9fb8e5b88f, -369, -92⟩, ⟨0xf8a95fcf88747d94, -343, -84⟩,
   ⟨0xb94470938fa89bcf, -316, -76⟩, ⟨0x8a08f0f8bf0f156b, -289, -68⟩,
   ⟨0xcdb02555653131b6, -263, -60⟩, ⟨0x993fe2c6d07b7fac, -236, -52⟩,
   ⟨0xe45c10c42a2b3b06, -210, -44⟩, ⟨0xaa242499697392d3, -183, -36⟩,
   ⟨0xfd87b5f28300ca0e, -157, -28⟩, ⟨0xbce5086492111aeb, -130, -20⟩,
   ⟨0x8cbccc096f5088cc, -103, -12⟩, ⟨0xd1b71758e219652c, -77, -4⟩, ⟨0x9c40000000000000, -50, 4⟩,
   ⟨0xe8d4a51000000000, -24, 12⟩, ⟨0xad78ebc5ac620000, 3, 20⟩, ⟨0x813f3978f8940984, 30, 28⟩,
   ⟨0xc097ce7bc90715b3, 56, 36⟩, ⟨0x8f7e32ce7bea5c70, 83, 44⟩, ⟨0xd5d238a4abe98068, 109, 52⟩,
   ⟨0x9f4f2726179a2245, 136, 60⟩, ⟨0xed63a231d4c4fb27, 162, 68⟩, ⟨0xb0de65388cc8ada8, 189, 76⟩,
   ⟨0x83c7088e1aab65db, 216, 84⟩, ⟨0xc45d1df942711d9a, 242, 92⟩, ⟨0x924d692ca61be758, 269, 100⟩,
   ⟨0xda01ee641a708dea, 295, 108⟩, ⟨0xa26da3999aef774a, 322, 116⟩, ⟨0xf209787bb47d6b85, 348, 124⟩,
   ⟨0xb454e4a179dd1877, 375, 132⟩, ⟨0x865b86925b9bc5c2, 402, 140⟩, ⟨0xc83553c5c8965d3d, 428, 148⟩,
   ⟨0x952ab45cfa97a0b3, 455, 156⟩, ⟨0xde469fbd99a05fe3, 481, 164⟩, ⟨0xa59bc234db398c25, 508, 172⟩,
   ⟨0xf6c69a72a3989f5c, 534, 180⟩, ⟨0xb7dcbf5354e9bece, 561, 188⟩, ⟨0x88fcf317f22241e2, 588, 196⟩,
   ⟨0xcc20ce9bd35c78a5, 614, 204⟩, ⟨0x98165af37b2153df, 641, 212⟩, ⟨0xe2a0b5dc971f303a, 667, 220⟩,
   ⟨0xa8d9d1535ce3b396, 694, 228⟩, ⟨0xfb9b7cd9a4a7443c, 720, 236⟩, ⟨0xbb764c4ca7a44410, 747, 244⟩,
   ⟨0x8bab8eefb6409c1a, 774, 252⟩, ⟨0xd01fef10a657842c, 800, 260⟩, ⟨0x9b10a4e5e9913129, 827, 268⟩,
   ⟨0xe7109bfba19c0c9d, 853, 276⟩, ⟨0xac2820d9623bf429, 880, 284⟩, ⟨0x80444b5e7aa7cf85, 907, 292⟩,
   ⟨0xbf21e44003acdd2d, 933, 300⟩, ⟨0x8e679c2f5e44ff8f, 960, 308⟩, ⟨0xd433179d9c8cb841, 986, 316⟩,
   ⟨0x9e19db92b4e31ba9, 1013, 324⟩, ⟨0xeb96bf6ebadf77d9, 1039, 332⟩,
   ⟨0xaf87023b9bf0ee6b, 1066, 340⟩]

/-- The `double` next to a number of units, a tie to the even one: no more than 53 bits. -/
def roundDouble (m : Nat) : Nat :=
  let s := m.log2 - 52
  let q := m / 2^s
  let r := m % 2^s
  (if 2^s < 2 * r ∨ 2 * r = 2^s ∧ q % 2 = 1 then q + 1 else q) * 2^s

/-- `ceil(n * D_1_LOG2_10)`, with the product as a `double`. -/
def ceilLog (n : Int) : Int :=
  let m := roundDouble (n.natAbs * D_1_LOG2_10)
  if n < 0 then -(m / 2^53 : Nat) else ((m + 2^53 - 1) / 2^53 : Nat)

/-- `cached_pow`: the power, and what is returned. -/
def cachedPow (exp : Int) : DiyFp × Int :=
  let k := ceilLog (exp + DIYFP_FRACT_SIZE - 1)
  let i := (k - MIN_CACHED_EXP - 1).tdiv CACHED_EXP_STEP + 1
  let p := powCache.getD i.toNat ⟨0, 0, 0⟩
  (⟨p.fract, p.bExp⟩, p.dExp)

/-- `minus`. Its assertion is that the exponents are equal and the difference is not negative. -/
def minus (x y : DiyFp) : DiyFp := ⟨x.f - y.f, x.e⟩

def multiply (x y : DiyFp) : DiyFp :=
  let a := x.f >>> 32
  let b := x.f &&& MASK32
  let c := y.f >>> 32
  let d := y.f &&& MASK32
  let ac := a * c
  let bc := b * c
  let ad := a * d
  let bd := b * d
  let tmp := (bd >>> 32) + (ad &&& MASK32) + (bc &&& MASK32)
  let tmp := tmp + ((1 : UInt64) <<< 31)
  ⟨ac + (ad >>> 32) + (bc >>> 32) + (tmp >>> 32), x.e + y.e + 64⟩

/-- `normalize_diy_fp`: two loops, of at most 7 and 64 rounds unless `f` is zero. -/
def normalizeDiyFp (n : DiyFp) : Option DiyFp := do
  let n ← whileLoop (fun n : DiyFp => n.f &&& 0xFFC0000000000000 = 0)
    (fun n => ⟨n.f <<< 10, n.e - 10⟩) 7 n
  whileLoop (fun n : DiyFp => n.f &&& D64_SIGN = 0) (fun n => ⟨n.f <<< 1, n.e - 1⟩) 64 n

/-- `double2diy_fp`, for the bits of the `double`. -/
def double2diyFp (u64 : UInt64) : DiyFp :=
  if u64 &&& D64_EXP_MASK = 0 then ⟨u64 &&& D64_FRACT_MASK, 1 - D64_EXP_BIAS⟩
  else ⟨(u64 &&& D64_FRACT_MASK) + D64_IMPLICIT_ONE,
    ((u64 &&& D64_EXP_MASK) >>> D64_EXP_POS).toNat - D64_EXP_BIAS⟩

def pow10Cache : List UInt32 :=
  [0, 1, 10, 100, 1000, 10000, 100000, 1000000, 10000000, 100000000, 1000000000]

/-- `largest_pow10`: the exponent and one more, and the power. -/
def largestPow10 (n : UInt32) (nBits : Int) : Nat × UInt32 :=
  let guess := ((((nBits + 1) * 1233) >>> (12 : Nat)) + 1).toNat
  let guess := if n < pow10Cache.getD guess 0 then guess - 1 else guess
  (guess, pow10Cache.getD guess 0)

/-- `--buffer[len - 1]`. -/
def decrementLast (buffer : Bytes) : Bytes := buffer.modify (buffer.length - 1) (· - 1)

/-- The condition of the loop of `round_weed`. -/
def weeds (wpWup delta tenKappa rest : UInt64) : Bool :=
  rest < wpWup && delta - rest ≥ tenKappa &&
    (rest + tenKappa < wpWup || wpWup - rest ≥ rest + tenKappa - wpWup)

/-- `round_weed`: the buffer behind it, and what is returned. The loop lowers a digit, so it has no
more than ten rounds. -/
def roundWeed (buffer : Bytes) (wpW delta rest tenKappa ulp : UInt64) : Option (Bytes × Bool) := do
  let wpWup := wpW - ulp
  let wpWdown := wpW + ulp
  let (buffer, rest) ← whileLoop (fun s : Bytes × UInt64 => weeds wpWup delta tenKappa s.2)
    (fun s => (decrementLast s.1, s.2 + tenKappa)) 10 (buffer, rest)
  if rest < wpWdown && delta - rest ≥ tenKappa &&
      (rest + tenKappa < wpWdown || wpWdown - rest > rest + tenKappa - wpWdown) then
    some (buffer, false)
  else some (buffer, 2 * ulp ≤ rest && rest ≤ delta - 4 * ulp)

/-- What `digit_gen` leaves: its result, the digits, and `kappa`. -/
structure Digits where
  success : Bool
  buffer : Bytes
  kappa : Int
  deriving DecidableEq

/-- `(char)('0' + digit)`. -/
def digitChar (digit : Nat) : UInt8 := UInt8.ofNat (48 + digit)

/-- A shift by `-e`. -/
def DiyFp.shift (x : DiyFp) : UInt64 := UInt64.ofNat (-x.e).toNat

/-- The endless loop of `digit_gen`, with `tooHighW` for `minus(too_high, w).f`. -/
def fractionDigits (one : DiyFp) (tooHighW : UInt64) :
    Nat → UInt64 → UInt64 → UInt64 → Bytes → Int → Option Digits
  | 0, _, _, _, _, _ => none
  | fuel + 1, p2, unit, unsafeF, buffer, kappa =>
    let p2 := p2 * 10
    let unit := unit * 10
    let unsafeF := unsafeF * 10
    let digit := (p2 >>> one.shift).toNat
    let buffer := buffer ++ [digitChar digit]
    let p2 := p2 &&& (one.f - 1)
    let kappa := kappa - 1
    if p2 < unsafeF then
      (roundWeed buffer (tooHighW * unit) unsafeF p2 one.f unit).map fun r => ⟨r.2, r.1, kappa⟩
    else fractionDigits one tooHighW fuel p2 unit unsafeF buffer kappa

/-- The loop of `digit_gen` over the digits in front of the point, and what follows it. -/
def integerDigits (one : DiyFp) (tooHighW p2 unsafeF : UInt64) :
    Nat → UInt32 → UInt32 → Bytes → Option Digits
  | 0, _, _, buffer => fractionDigits one tooHighW 20 p2 1 unsafeF buffer 0
  | kappa + 1, p1, div, buffer =>
    let digit := (p1 / div).toNat
    let buffer := buffer ++ [digitChar digit]
    let p1 := p1 % div
    let rest := (p1.toUInt64 <<< one.shift) + p2
    if rest < unsafeF then
      (roundWeed buffer tooHighW unsafeF rest (div.toUInt64 <<< one.shift) 1).map fun r =>
        ⟨r.2, r.1, kappa⟩
    else integerDigits one tooHighW p2 unsafeF kappa p1 (div / 10) buffer

def digitGen (low w high : DiyFp) : Option Digits :=
  let tooLow : DiyFp := ⟨low.f - 1, low.e⟩
  let tooHigh : DiyFp := ⟨high.f + 1, high.e⟩
  let unsafeInterval := minus tooHigh tooLow
  let one : DiyFp := ⟨1 <<< w.shift, w.e⟩
  let p1 := (tooHigh.f >>> one.shift).toUInt32
  let p2 := tooHigh.f &&& (one.f - 1)
  let (kappa, div) := largestPow10 p1 (DIYFP_FRACT_SIZE + one.e)
  integerDigits one (minus tooHigh w).f p2 unsafeInterval.f kappa p1 div []

/-- `b_minus` in front of its normalization. -/
def lowerBoundary (u64 : UInt64) (dfp : DiyFp) : DiyFp :=
  if u64 &&& D64_FRACT_MASK = 0 ∧ u64 &&& D64_EXP_MASK ≠ 0 then ⟨(dfp.f <<< 2) - 1, dfp.e - 2⟩
  else ⟨(dfp.f <<< 1) - 1, dfp.e - 1⟩

/-- `grisu3`, for the bits of the `double`: `kappa` is `d_exp`. -/
def grisu3 (u64 : UInt64) : Option Digits := do
  let dfp := double2diyFp u64
  let w ← normalizeDiyFp dfp
  let bPlus ← normalizeDiyFp ⟨(dfp.f <<< 1) + 1, dfp.e - 1⟩
  let bMinus := lowerBoundary u64 dfp
  let bMinus : DiyFp := ⟨bMinus.f <<< UInt64.ofNat (bMinus.e - bPlus.e).toNat, bPlus.e⟩
  let (cMk, mk) := cachedPow (MIN_TARGET_EXP - DIYFP_FRACT_SIZE - w.e)
  let d ← digitGen (multiply bMinus cMk) (multiply w cMk) (multiply bPlus cMk)
  return { d with kappa := d.kappa - mk }

end MuduoServer.Grisu3
