import StackCode.Primitive

/-!
# Data types

The type of what a slot holds: a type, possibly behind a managed reference or a pointer. How a
parameter is passed is a separate matter, its `Passing` mode.
-/

namespace StackCode

/-- What stands between a slot and the value of its type. -/
inductive Indirection
  | none
  | byRef
  | pointer
  deriving DecidableEq, Repr, Inhabited

/-- The type of the content of a slot. -/
structure DataType where
  hash : TypeHash
  indirection : Indirection
  deriving DecidableEq, Repr, Inhabited

namespace DataType

/-- The type itself. -/
def plain (hash : TypeHash) : DataType := ⟨hash, .none⟩

/-- A managed reference to the type. -/
def byRef (hash : TypeHash) : DataType := ⟨hash, .byRef⟩

/-- A pointer to the type. -/
def pointer (hash : TypeHash) : DataType := ⟨hash, .pointer⟩

/-- The type without values. -/
def void : DataType := plain .void

/-- Whether the slot holds an address of a value of the type. -/
def isByRef (t : DataType) : Bool := t.indirection == .byRef

/-- Whether the slot holds a pointer. -/
def isPointer (t : DataType) : Bool := t.indirection == .pointer

/-- Whether the type is `void`, without indirection. -/
def isVoid (t : DataType) : Bool := t.hash == .void && t.indirection == .none

/-- The type behind a managed reference; other types are left alone. -/
def dereferenced (t : DataType) : DataType := if t.isByRef then plain t.hash else t

/-- The type without any indirection. -/
def element (t : DataType) : DataType := plain t.hash

/-- A managed reference to the type. -/
def makeByRef (t : DataType) : DataType := byRef t.hash

/-- The mark of the indirection behind the name of a type. -/
def mark (t : DataType) : String :=
  match t.indirection with
  | .none => ""
  | .byRef => "&"
  | .pointer => "*"

/-- The hash of the type and the mark of its indirection. -/
def text (t : DataType) : String := t.hash.text ++ t.mark

/-- Read the written form of a type with at most one mark of an indirection behind it. -/
def read? (s : String) : Option DataType :=
  match s.toList.reverse with
  | '&' :: cs => (TypeHash.ofReversed? cs).map byRef
  | '*' :: cs => (TypeHash.ofReversed? cs).map pointer
  | cs => (TypeHash.ofReversed? cs).map plain

end DataType

/-- How an argument is passed for a parameter. -/
inductive Passing
  | byValue
  | input
  | output
  | inOut
  deriving DecidableEq, Repr, Inhabited

namespace Passing

/-- Whether the argument is passed as an address. -/
def isReference (p : Passing) : Bool := p != .byValue

/-- The word for the mode in a signature. -/
def text : Passing → String
  | .byValue => ""
  | .input => "in"
  | .output => "out"
  | .inOut => "ref"

end Passing

end StackCode
