import StackCode.DataType

/-!
# Declarations

What a registry holds: types with their fields, and functions. The hash of a declaration is computed
from its signature when it is made.
-/

namespace StackCode

/-- What values of a type are. -/
inductive TypeKind
  | primitive (type : Primitive)
  /-- An aggregate of fields, copied as a whole. -/
  | value (size align : Nat)
  /-- Instances on the heap. -/
  | reference
  /-- The root of all reference types. -/
  | object
  | array (element : TypeHash)
  deriving DecidableEq, Repr, Inhabited

namespace TypeKind

/-- Whether values are held in place. -/
def isValueType : TypeKind → Bool
  | .primitive _ | .value _ _ => true
  | _ => false

/-- Whether values are references to the heap. -/
def isReferenceType (k : TypeKind) : Bool := !k.isValueType

/-- Whether values are aggregates of fields. -/
def isAggregate : TypeKind → Bool
  | .value _ _ => true
  | _ => false

/-- The primitive type, if it is one. -/
def primitive? : TypeKind → Option Primitive
  | .primitive p => some p
  | _ => none

/-- The kind in words. -/
def text : TypeKind → String
  | .primitive p => "primitive " ++ p.name
  | .value size align => s!"value {size} {align}"
  | .reference => "reference"
  | .object => "object"
  | .array element => "array " ++ element.text

end TypeKind

/-- A field of a type. Instance fields have a position in the layout of their owner. -/
structure FieldDecl where
  name : String
  hash : TypeHash
  owner : TypeHash
  type : DataType
  isStatic : Bool
  index : UInt16
  deriving DecidableEq, Repr, Inhabited

/-- A declared parameter. -/
structure Param where
  name : String
  type : DataType
  passing : Passing
  deriving DecidableEq, Repr, Inhabited

/-- The type of the argument slot of a parameter. -/
def Param.slotType (p : Param) : DataType :=
  if p.passing.isReference then p.type.makeByRef else p.type

/-- The two sorts of conversion operators. -/
inductive ConversionOperator
  | explicit
  | implicit
  deriving DecidableEq, Repr, Inhabited

/-- The name under which an operator is declared. -/
def ConversionOperator.name : ConversionOperator → String
  | .explicit => "op_Explicit"
  | .implicit => "op_Implicit"

/-- The sorts of functions. -/
inductive FunctionKind
  | method
  | constructor
  | conversion (operator : ConversionOperator)
  deriving DecidableEq, Repr, Inhabited

/-- The word for a sort of functions. -/
def FunctionKind.name : FunctionKind → String
  | .method => "method"
  | .constructor => "constructor"
  | .conversion operator => operator.name

/-- A declared function. -/
structure FunctionDecl where
  hash : TypeHash
  name : String
  owner : Option TypeHash
  params : List Param
  returns : DataType
  isStatic : Bool
  kind : FunctionKind
  deriving DecidableEq, Repr, Inhabited

/-- The hashes of the types of parameters. -/
def paramHashes (params : List Param) : List TypeHash := params.map fun p => p.type.hash

namespace FunctionDecl

/-- The hashes of the parameter types. -/
def paramHashes (f : FunctionDecl) : List TypeHash := StackCode.paramHashes f.params

/-- The number of values a call consumes, a receiver included. -/
def stackArity (f : FunctionDecl) : Nat := f.params.length + (if f.isStatic then 0 else 1)

/-- An instance method. -/
def method (owner : TypeHash) (name : String) (params : List Param) (returns : DataType) :
    FunctionDecl where
  hash := .ofMethod owner name (StackCode.paramHashes params)
  name := name
  owner := some owner
  params := params
  returns := returns
  isStatic := false
  kind := .method

/-- A method without receiver. -/
def staticMethod (owner : TypeHash) (name : String) (params : List Param) (returns : DataType) :
    FunctionDecl :=
  { method owner name params returns with isStatic := true }

/-- A function that belongs to no type. -/
def free (name : String) (params : List Param) (returns : DataType) : FunctionDecl where
  hash := .ofFunction name (StackCode.paramHashes params)
  name := name
  owner := none
  params := params
  returns := returns
  isStatic := true
  kind := .method

/-- A constructor. It gets the instance as receiver and returns nothing. -/
def constructor (owner : TypeHash) (params : List Param) : FunctionDecl where
  hash := .ofConstructor owner (StackCode.paramHashes params)
  name := ".ctor"
  owner := some owner
  params := params
  returns := .void
  isStatic := false
  kind := .constructor

/-- A conversion operator. -/
def conversion (owner : TypeHash) (operator : ConversionOperator) (source : Param)
    (target : DataType) : FunctionDecl where
  hash := .ofOperator owner operator.name [source.type.hash] target.hash
  name := operator.name
  owner := some owner
  params := [source]
  returns := target
  isStatic := true
  kind := .conversion operator

end FunctionDecl

/-- A type with its fields and the hashes of its functions. -/
structure TypeDecl where
  name : String
  hash : TypeHash
  kind : TypeKind
  base : Option TypeHash
  fields : List FieldDecl
  methods : List TypeHash
  constructors : List TypeHash
  operators : List TypeHash
  deriving DecidableEq, Repr, Inhabited

namespace TypeDecl

/-- A type without base and members. -/
def named (name : String) (kind : TypeKind) : TypeDecl where
  name := name
  hash := .ofName name
  kind := kind
  base := none
  fields := []
  methods := []
  constructors := []
  operators := []

/-- The array type with elements of the given name and hash. -/
def array (elementName : String) (element : TypeHash) : TypeDecl :=
  { named (elementName ++ "[]") (.array element) with hash := .arrayOf element }

/-- The type with one more field. -/
def withField (t : TypeDecl) (name : String) (type : DataType) (isStatic : Bool) : TypeDecl :=
  { t with fields := t.fields ++ [⟨name, .ofField t.hash name, t.hash, type, isStatic, 0⟩] }

/-- The fields that every instance has. -/
def instanceFields (t : TypeDecl) : List FieldDecl := t.fields.filter fun f => !f.isStatic

/-- List a function with the members of its owner. -/
def addMember (t : TypeDecl) (f : FunctionDecl) : TypeDecl :=
  match f.kind with
  | .method => { t with methods := t.methods ++ [f.hash] }
  | .constructor => { t with constructors := t.constructors ++ [f.hash] }
  | .conversion _ => { t with operators := t.operators ++ [f.hash] }

end TypeDecl

/-- Fields in the order of their positions; fields at one position stay in the order they have. -/
def inOrder (fields : List FieldDecl) : List FieldDecl :=
  fields.mergeSort fun a b => decide (a.index ≤ b.index)

@[simp] theorem mem_inOrder {fields : List FieldDecl} {f : FieldDecl} :
    f ∈ inOrder fields ↔ f ∈ fields := List.mem_mergeSort

end StackCode
