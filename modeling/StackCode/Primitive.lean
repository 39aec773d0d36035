import StackCode.Number.FloatKind
import StackCode.Number.IntKind
import StackCode.TypeHash

/-!
# Primitive types

The fifteen primitive types, their sizes and their numeric categories, and the hashes of the types
that every registry is expected to know: the primitives, `object` and `string`.
-/

namespace StackCode

/-- A primitive type. -/
inductive Primitive
  | void
  | bool
  | int (kind : IntKind)
  | float (kind : FloatKind)
  deriving DecidableEq, Repr, Inhabited

/-- How the machine treats a primitive in arithmetic. -/
inductive NumericCategory
  | signed
  | unsigned
  | float
  | native
  deriving DecidableEq, Repr

/-- The name of a category. -/
def NumericCategory.name : NumericCategory → String
  | .signed => "Signed"
  | .unsigned => "Unsigned"
  | .float => "Float"
  | .native => "Native"

namespace Primitive

/-- All primitives, in their customary order. -/
def all : List Primitive :=
  [.void, .bool, .int .char, .int .int8, .int .int16, .int .int32, .int .int64, .int .uint8,
   .int .uint16, .int .uint32, .int .uint64, .float .float32, .float .float64, .int .nint,
   .int .nuint]

/-- The name of the type. -/
def name : Primitive → String
  | .void => "void"
  | .bool => "bool"
  | .int k => k.name
  | .float k => k.name

/-- The hash of the type. -/
def hash (p : Primitive) : TypeHash := .ofName p.name

/-- The number of bytes of a stored value; `void` has none. -/
def size : Primitive → Option Nat
  | .void => none
  | .bool => some 1
  | .int k => some (k.width / 8)
  | .float k => some (k.width / 8)

/-- The category of a primitive other than `void`. `bool` and `char` count as unsigned. -/
def category : Primitive → Option NumericCategory
  | .void => none
  | .bool => some .unsigned
  | .int k => some (if k.native then .native else if k.signed then .signed else .unsigned)
  | .float _ => some .float

/-- The primitive with a given hash. -/
def ofHash? (h : TypeHash) : Option Primitive := all.find? fun p => p.hash == h

end Primitive

namespace TypeHash

/-- The hash of a built-in type. -/
def void : TypeHash := Primitive.void.hash

@[inherit_doc void] def bool : TypeHash := Primitive.bool.hash

@[inherit_doc void] def int32 : TypeHash := (Primitive.int .int32).hash

@[inherit_doc void] def object : TypeHash := .ofName "object"

@[inherit_doc void] def string : TypeHash := .ofName "string"

end TypeHash

end StackCode
