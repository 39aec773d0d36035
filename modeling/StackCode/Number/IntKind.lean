/-!
# Integer kinds

The eleven integer types of the machine. A value of kind `k` is a bit vector of `k.width` bits, read
as a signed or an unsigned number as the kind says; all arithmetic is arithmetic modulo
`2 ^ k.width`.
-/

namespace StackCode

/-- An integer type. `char` is a sixteen-bit code unit; `nint` and `nuint` are the native words. -/
inductive IntKind
  | char
  | int8
  | int16
  | int32
  | int64
  | uint8
  | uint16
  | uint32
  | uint64
  | nint
  | nuint
  deriving DecidableEq, Repr, Inhabited

namespace IntKind

/-- All integer kinds, in order of declaration. -/
def all : List IntKind :=
  [.char, .int8, .int16, .int32, .int64, .uint8, .uint16, .uint32, .uint64, .nint, .nuint]

/-- The number of bits of a value. -/
@[reducible] def width : IntKind → Nat
  | .int8 | .uint8 => 8
  | .char | .int16 | .uint16 => 16
  | .int32 | .uint32 => 32
  | .int64 | .uint64 | .nint | .nuint => 64

/-- Whether values are read as two's complement numbers. -/
def signed : IntKind → Bool
  | .int8 | .int16 | .int32 | .int64 | .nint => true
  | _ => false

/-- Whether this is a native word. -/
def native : IntKind → Bool
  | .nint | .nuint => true
  | _ => false

/-- The name of the type. -/
def name : IntKind → String
  | .char => "char"
  | .int8 => "int8"
  | .int16 => "int16"
  | .int32 => "int32"
  | .int64 => "int64"
  | .uint8 => "uint8"
  | .uint16 => "uint16"
  | .uint32 => "uint32"
  | .uint64 => "uint64"
  | .nint => "nint"
  | .nuint => "nuint"

/-- The number that a bit vector of the kind stands for. -/
def toInt (k : IntKind) (v : BitVec k.width) : Int := if k.signed then v.toInt else v.toNat

/-- The least number of the kind. -/
def least (k : IntKind) : Int := if k.signed then (BitVec.intMin k.width).toInt else 0

/-- The greatest number of the kind. -/
def greatest (k : IntKind) : Int :=
  if k.signed then (BitVec.intMax k.width).toInt else (BitVec.allOnes k.width).toNat

/-- The bit vector of a number, if the number is in the range of the kind. -/
def ofInt? (k : IntKind) (i : Int) : Option (BitVec k.width) :=
  if k.least ≤ i ∧ i ≤ k.greatest then some (BitVec.ofInt k.width i) else none

/-- The number with the given decimal digits, of which there is at least one. -/
def parseDigits? : List Char → Option Nat
  | [] => none
  | cs => cs.foldlM (fun n c => if c.isDigit then some (10 * n + (c.toNat - '0'.toNat)) else none) 0

/-- Read a decimal number that may have a sign; only kinds with negative numbers take a minus. -/
def parse? (k : IntKind) (s : String) : Option (BitVec k.width) :=
  match s.toList with
  | '-' :: ds => if k.signed then (parseDigits? ds).bind fun n => k.ofInt? (-n) else none
  | '+' :: ds => (parseDigits? ds).bind fun n => k.ofInt? n
  | ds => (parseDigits? ds).bind fun n => k.ofInt? n

/-- Division, rounding toward zero; the least signed number divided by `-1` wraps to itself. -/
def divide (k : IntKind) (a b : BitVec k.width) : BitVec k.width :=
  if k.signed then a.sdiv b else a.udiv b

/-- The remainder of `divide`, with the sign of the dividend. -/
def remainder (k : IntKind) (a b : BitVec k.width) : BitVec k.width :=
  if k.signed then a.srem b else a.umod b

/-- How two values compare as numbers. -/
def order (k : IntKind) (a b : BitVec k.width) : Ordering := compare (k.toInt a) (k.toInt b)

end IntKind

end StackCode
