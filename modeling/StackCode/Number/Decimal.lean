import StackCode.Number.FloatKind

/-!
# Decimal text of floating-point numbers

A finite number is written with the fewest decimal digits that still read back as the same number
of its format; among decimals of that length the nearest is taken, and of two equally near ones the
greater. The text is positional, without exponent and without a trailing fraction of zero.
-/

namespace StackCode

/-- The decimal number `digits * 10 ^ exponent`. -/
structure Decimal where
  digits : Nat
  exponent : Int
  deriving DecidableEq, Repr

namespace Decimal

/-- Drop zeros at the end of the digits, as long as they stand behind the point. At most `fuel`
zeros are dropped. -/
def trim : Nat → Decimal → Decimal
  | 0, d => d
  | fuel + 1, d =>
    if d.exponent < 0 ∧ d.digits % 10 = 0 then trim fuel ⟨d.digits / 10, d.exponent + 1⟩ else d

/-- Positional text: digits, then zeros for a positive exponent, or a point inside. -/
def text (d : Decimal) : String :=
  let ds := Nat.toDigits 10 d.digits
  if 0 ≤ d.exponent then String.ofList (ds ++ List.replicate d.exponent.toNat '0')
  else
    let places := (-d.exponent).toNat
    let ds := List.replicate (places + 1 - ds.length) '0' ++ ds
    let whole := ds.length - places
    String.ofList (ds.take whole ++ '.' :: ds.drop whole)

end Decimal

namespace FloatKind

/-- The positive number `top / bottom`. -/
structure Ratio where
  top : Nat
  bottom : Nat

/-- The number `mantissa * 2 ^ exponent`. -/
def Ratio.scaled (mantissa : Nat) (exponent : Int) : Ratio :=
  if 0 ≤ exponent then ⟨mantissa <<< exponent.toNat, 1⟩ else ⟨mantissa, 1 <<< (-exponent).toNat⟩

/-- The quotient of the number by `10 ^ e`. -/
def Ratio.per (r : Ratio) (e : Int) : Ratio :=
  if 0 ≤ e then ⟨r.top, r.bottom * Nat.pow 10 e.toNat⟩
  else ⟨r.top * Nat.pow 10 (-e).toNat, r.bottom⟩

/-- The least `e` with `r < 10 ^ e`, searched upward from `e`. -/
def Ratio.magnitude (r : Ratio) : Nat → Int → Int
  | 0, e => e
  | fuel + 1, e =>
    let q := r.per e
    if q.top < q.bottom then e else r.magnitude fuel (e + 1)

/-- The interval of the numbers that read back as `mantissa * 2 ^ exponent`, in units of
`2 ^ (exponent - 2)`. Below a power of two the neighbours lie twice as dense. -/
def readBack (k : FloatKind) (mantissa : Nat) (exponent : Int) : Nat × Nat :=
  let dense := mantissa = k.fractionWeight ∧ k.leastExponent < exponent
  (4 * mantissa - (if dense then 1 else 2), 4 * mantissa + 2)

/-- Whether `digits * 10 ^ e` reads back as `mantissa * 2 ^ exponent`; the ends of the interval
belong to even mantissas. -/
def readsBack (k : FloatKind) (mantissa : Nat) (exponent : Int) (digits : Nat) (e : Int) : Bool :=
  let (low, high) := k.readBack mantissa exponent
  let low := (Ratio.scaled low (exponent - 2)).per e
  let high := (Ratio.scaled high (exponent - 2)).per e
  if mantissa % 2 = 0 then
    decide (low.top ≤ digits * low.bottom ∧ digits * high.bottom ≤ high.top)
  else decide (low.top < digits * low.bottom ∧ digits * high.bottom < high.top)

/-- The nearer of the two neighbours of `mantissa * 2 ^ exponent` on the grid of the multiples of
`10 ^ e`, if one of them reads back. -/
def onGrid (k : FloatKind) (mantissa : Nat) (exponent : Int) (e : Int) : Option Decimal :=
  let q := (Ratio.scaled mantissa exponent).per e
  let below := q.top / q.bottom
  let excess := q.top % q.bottom
  let low := k.readsBack mantissa exponent below e
  let high := k.readsBack mantissa exponent (below + 1) e
  if low && (!high || decide (2 * excess < q.bottom)) then some ⟨below, e⟩
  else if high then some ⟨below + 1, e⟩
  else none

/-- Refine the grid, at most `fuel` times, until a point of it reads back. -/
def search (k : FloatKind) (mantissa : Nat) (exponent : Int) : Nat → Int → Decimal
  | 0, e => ⟨0, e⟩
  | fuel + 1, e =>
    match k.onGrid mantissa exponent e with
    | some d => d
    | none => k.search mantissa exponent fuel (e - 1)

/-- The shortest decimal that reads back as the positive number `mantissa * 2 ^ exponent`. Seventeen
digits always suffice. -/
def shortest (k : FloatKind) (mantissa : Nat) (exponent : Int) : Decimal :=
  let lowest : Int := (mantissa.log2 + exponent) * 30103 / 100000 - 1
  let top := (Ratio.scaled mantissa exponent).magnitude 5 lowest
  (k.search mantissa exponent 18 (top - 1)).trim 20

/-- The text of a pattern. -/
def text (k : FloatKind) (v : BitVec k.width) : String :=
  match k.decode v with
  | .nan => "NaN"
  | .infinite neg => if neg then "-inf" else "inf"
  | .number neg mantissa exponent =>
    let body := if mantissa = 0 then "0" else (k.shortest mantissa exponent).text
    if neg then "-" ++ body else body

end FloatKind

end StackCode
