import StackCode.DataType
import StackCode.Number.Decimal
import StackCode.Text.Quoted

/-!
# Literals

The constants that code can carry. Numbers are kept as bit patterns, so two literals are equal
exactly if they are the same constant, also for floating-point numbers.
-/

namespace StackCode

/-- A constant value. -/
inductive Literal
  | null
  | bool (value : Bool)
  | int (kind : IntKind) (value : BitVec kind.width)
  | float (kind : FloatKind) (value : BitVec kind.width)
  | str (value : String)
  deriving DecidableEq, Repr, Inhabited

namespace Literal

/-- The 32-bit integer literal of a number, modulo `2 ^ 32`. -/
def int32 (i : Int) : Literal := .int .int32 (BitVec.ofInt 32 i)

/-- The hash of the type of a literal; `null` is an `object`. -/
def typeHash : Literal → TypeHash
  | .null => .object
  | .bool _ => .bool
  | .int k _ => (Primitive.int k).hash
  | .float k _ => (Primitive.float k).hash
  | .str _ => .string

/-- The type of a literal. -/
def dataType (l : Literal) : DataType := .plain l.typeHash

/-- Equality as values: floating-point numbers are compared as numbers. -/
def equal : Literal → Literal → Bool
  | .float k v, .float k' v' => if h : k' = k then k.equal v (h ▸ v') else false
  | a, b => a == b

/-- The text of an integer: a character code, or decimal digits. -/
def intText (k : IntKind) (v : BitVec k.width) : String :=
  if k = .char then "'" ++ Text.codePoint 4 v.toNat ++ "'" else toString (k.toInt v)

/-- What is written behind the digits of an integer literal. -/
def intSuffix : IntKind → String
  | .char | .int32 => ""
  | .int8 => "i8"
  | .int16 => "i16"
  | .int64 => "i64"
  | .uint8 => "u8"
  | .uint16 => "u16"
  | .uint32 => "u32"
  | .uint64 => "u64"
  | .nint => "n"
  | .nuint => "un"

/-- What is written behind the digits of a floating-point literal. -/
def floatSuffix : FloatKind → String
  | .float32 => "f"
  | .float64 => ""

/-- The text of a literal, with a suffix that shows its type. -/
def text : Literal → String
  | .null => "null"
  | .bool b => toString b
  | .int k v => intText k v ++ intSuffix k
  | .float k v => k.text v ++ floatSuffix k
  | .str s => Text.quoted s

end Literal

end StackCode
