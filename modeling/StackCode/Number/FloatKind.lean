import StackCode.Text.Hex

/-!
# Binary floating-point kinds

The two floating-point types. A value is kept as its bit pattern: sign, biased exponent, fraction.
Equality and order are read off the patterns; sums, products and quotients are those of the
hardware formats, and the remainder is computed exactly.
-/

namespace StackCode

/-- A floating-point type. -/
inductive FloatKind
  | float32
  | float64
  deriving DecidableEq, Repr, Inhabited

namespace FloatKind

/-- The number of bits of a pattern. -/
@[reducible] def width : FloatKind → Nat
  | .float32 => 32
  | .float64 => 64

/-- The number of fraction bits. -/
def fractionBits : FloatKind → Nat
  | .float32 => 23
  | .float64 => 52

/-- The exponent of the least positive number: every finite number is an integer times two to a
power that is at least this. -/
def leastExponent : FloatKind → Int
  | .float32 => -149
  | .float64 => -1074

/-- The biased exponent of the infinities and of the NaNs. -/
def specialExponent : FloatKind → Nat
  | .float32 => 255
  | .float64 => 2047

/-- The name of the type. -/
def name : FloatKind → String
  | .float32 => "float32"
  | .float64 => "float64"

/-- The weight of the sign bit. -/
def signWeight : FloatKind → Nat
  | .float32 => 0x80000000
  | .float64 => 0x8000000000000000

/-- The weight of the lowest exponent bit. -/
def fractionWeight : FloatKind → Nat
  | .float32 => 0x800000
  | .float64 => 0x10000000000000

/-- What a pattern stands for: `number` is `± mantissa * 2 ^ exponent`. -/
inductive Datum
  | nan
  | infinite (negative : Bool)
  | number (negative : Bool) (mantissa : Nat) (exponent : Int)
  deriving DecidableEq, Repr

/-- Whether the sign bit is set. -/
def negative (k : FloatKind) (v : BitVec k.width) : Bool := decide (k.signWeight ≤ v.toNat)

/-- The pattern without its sign bit. -/
def magnitude (k : FloatKind) (v : BitVec k.width) : Nat := v.toNat % k.signWeight

/-- The datum of a pattern. Patterns with a biased exponent of zero have no hidden bit. -/
def decode (k : FloatKind) (v : BitVec k.width) : Datum :=
  let biased := k.magnitude v / k.fractionWeight
  let fraction := k.magnitude v % k.fractionWeight
  if biased = k.specialExponent then
    if fraction = 0 then .infinite (k.negative v) else .nan
  else if biased = 0 then .number (k.negative v) fraction k.leastExponent
  else .number (k.negative v) (k.fractionWeight + fraction) (k.leastExponent + (biased - 1 : Nat))

/-- Whether the pattern is a NaN. -/
def isNaN (k : FloatKind) (v : BitVec k.width) : Bool :=
  decide (k.specialExponent * k.fractionWeight < k.magnitude v)

/-- The quiet NaN without a payload. -/
def quietNaN : (k : FloatKind) → BitVec k.width
  | .float32 => 0x7fc00000
  | .float64 => 0x7ff8000000000000

/-- The digits of a pattern in base sixteen, or `nan`. -/
def patternText (k : FloatKind) (v : BitVec k.width) : String :=
  if k.isNaN v then "nan" else Hex.padded (k.width / 4) v.toNat

/-- Read a pattern from its digits in base sixteen; `nan` is the quiet NaN. -/
def parsePattern? (k : FloatKind) (s : String) : Option (BitVec k.width) :=
  if s = "nan" then some k.quietNaN
  else if s.length = k.width / 4 then (Hex.parse? s.toList).map (BitVec.ofNat k.width)
  else none

/-- The rank of a pattern that is no NaN among all numbers: its magnitude, with its sign. -/
def rank (k : FloatKind) (v : BitVec k.width) : Int :=
  if k.negative v then -(k.magnitude v : Int) else k.magnitude v

/-- How two patterns compare as numbers; a NaN compares with nothing. -/
def order (k : FloatKind) (a b : BitVec k.width) : Option Ordering :=
  if k.isNaN a || k.isNaN b then none else some (compare (k.rank a) (k.rank b))

/-- Equality as numbers: a NaN differs from itself and the two zeros are equal. -/
def equal (k : FloatKind) (a b : BitVec k.width) : Bool := k.order a b == some .eq

/-- One pattern for all equal numbers, and one for all NaNs. -/
def canonical (k : FloatKind) (v : BitVec k.width) : BitVec k.width :=
  if k.isNaN v then k.quietNaN else if k.magnitude v = 0 then 0 else v

/-! ### Arithmetic -/

/-- A hardware operation on patterns of either format. -/
def hardware (single : Float32 → Float32 → Float32) (double : Float → Float → Float) :
    (k : FloatKind) → BitVec k.width → BitVec k.width → BitVec k.width
  | .float32, a, b => (single (.ofBits ⟨a⟩) (.ofBits ⟨b⟩)).toBits.toBitVec
  | .float64, a, b => (double (.ofBits ⟨a⟩) (.ofBits ⟨b⟩)).toBits.toBitVec

/-- The rounded sum. -/
def add : (k : FloatKind) → BitVec k.width → BitVec k.width → BitVec k.width :=
  hardware (· + ·) (· + ·)

/-- The rounded difference. -/
def sub : (k : FloatKind) → BitVec k.width → BitVec k.width → BitVec k.width :=
  hardware (· - ·) (· - ·)

/-- The rounded product. -/
def mul : (k : FloatKind) → BitVec k.width → BitVec k.width → BitVec k.width :=
  hardware (· * ·) (· * ·)

/-- The rounded quotient. -/
def divide : (k : FloatKind) → BitVec k.width → BitVec k.width → BitVec k.width :=
  hardware (· / ·) (· / ·)

/-- The same number with the other sign. -/
def negate (k : FloatKind) (v : BitVec k.width) : BitVec k.width :=
  v ^^^ BitVec.ofNat k.width k.signWeight

/-- The pattern of `± mantissa * 2 ^ exponent`, for a number that the format holds exactly. -/
def encode (k : FloatKind) (negative : Bool) (mantissa : Nat) (exponent : Int) :
    BitVec k.width :=
  let sign := if negative then k.signWeight else 0
  if mantissa = 0 then BitVec.ofNat k.width sign
  else
    let fit := max (exponent + mantissa.log2 - k.fractionBits) k.leastExponent
    let scaled :=
      if fit ≤ exponent then mantissa <<< (exponent - fit).toNat
      else mantissa >>> (fit - exponent).toNat
    if scaled < k.fractionWeight then BitVec.ofNat k.width (sign + scaled)
    else
      BitVec.ofNat k.width (sign + (fit - k.leastExponent).toNat * k.fractionWeight + scaled)

/-- The exact remainder of the quotient rounded toward zero, with the sign of the dividend. -/
def remainder (k : FloatKind) (a b : BitVec k.width) : BitVec k.width :=
  match k.decode a, k.decode b with
  | .number _ 0 _, .number _ (_ + 1) _ => a
  | .number neg m p, .number _ (n + 1) q =>
    let low := min p q
    k.encode neg ((m <<< (p - low).toNat) % ((n + 1) <<< (q - low).toNat)) low
  | .number _ _ _, .infinite _ => a
  | _, _ => k.quietNaN

end FloatKind

end StackCode
