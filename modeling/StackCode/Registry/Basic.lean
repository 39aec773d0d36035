import StackCode.Error
import StackCode.Registry.OperatorIndex

/-!
# Registries

A registry holds types, fields and functions by hash. Declarations are added one by one; a refused
declaration changes nothing. Operator indexes are kept for types that were asked for, and dropped
when a function is added to their type.
-/

namespace StackCode

/-- Types, fields and functions by hash, types also by name. -/
structure Registry where
  types : Std.TreeMap TypeHash TypeDecl
  names : Std.TreeMap String TypeHash
  fields : Std.TreeMap TypeHash FieldDecl
  functions : Std.TreeMap TypeHash FunctionDecl
  /-- The operator indexes that are kept. -/
  indexes : Std.TreeMap TypeHash OperatorIndex

namespace Registry

/-- The registry without declarations. -/
def empty : Registry := ⟨∅, ∅, ∅, ∅, ∅⟩

instance : Inhabited Registry := ⟨empty⟩

/-! ### Types -/

/-- The type with a hash. -/
def type? (r : Registry) (h : TypeHash) : Option TypeDecl := r.types[h]?

/-- The type with a name. -/
def typeNamed? (r : Registry) (name : String) : Option TypeDecl := r.names[name]? >>= r.type?

/-- Whether a type is registered. -/
def containsType (r : Registry) (h : TypeHash) : Bool := r.types.contains h

/-- The kind of a type. -/
def kind? (r : Registry) (h : TypeHash) : Option TypeKind := (r.type? h).map TypeDecl.kind

/-- The name of a type, or the text of its hash if the type is not registered. -/
def typeName (r : Registry) (h : TypeHash) : String :=
  match r.type? h with
  | some t => t.name
  | none => h.text

/-- The name of a type with the mark of its indirection. -/
def describe (r : Registry) (t : DataType) : String := r.typeName t.hash ++ t.mark

/-- Whether values of the type are held in place. -/
def isValueType (r : Registry) (h : TypeHash) : Bool := (r.kind? h).any TypeKind.isValueType

/-- Whether values of the type are references. -/
def isReferenceType (r : Registry) (h : TypeHash) : Bool :=
  (r.kind? h).any TypeKind.isReferenceType

/-- Whether values of the type are aggregates of fields. -/
def isAggregate (r : Registry) (h : TypeHash) : Bool := (r.kind? h).any TypeKind.isAggregate

/-- The primitive type with a hash. -/
def primitive? (r : Registry) (h : TypeHash) : Option Primitive :=
  r.kind? h >>= TypeKind.primitive?

/-- The element type of an array type. -/
def arrayElement? (r : Registry) (h : TypeHash) : Option TypeHash :=
  match r.kind? h with
  | some (.array element) => some element
  | _ => none

/-- The type and its bases, nearest first, at most `fuel` of them. -/
def chainFrom (r : Registry) : Nat → TypeHash → List TypeDecl
  | 0, _ => []
  | fuel + 1, h =>
    match r.type? h with
    | none => []
    | some t =>
      t :: match t.base with
        | none => []
        | some base => r.chainFrom fuel base

/-- The type and its bases, nearest first. A base is registered before the types derived from it, so
a chain has no more members than there are types. -/
def baseChain (r : Registry) (h : TypeHash) : List TypeDecl := r.chainFrom r.types.size h

/-- Whether a value of one type may stand where the other type is expected. -/
def assignable (r : Registry) (source target : TypeHash) : Bool :=
  source == target ||
    (r.isReferenceType source && r.isReferenceType target &&
      (target == .object || (r.baseChain source).any fun t => t.hash == target))

/-- The number of instance fields of a type, those of its bases included. -/
def instanceFieldCount (r : Registry) (h : TypeHash) : Nat :=
  ((r.baseChain h).flatMap TypeDecl.instanceFields).length

/-! ### Registration -/

/-- Add a built-in type unless its hash is taken. -/
def addBuiltin (r : Registry) (t : TypeDecl) : Registry :=
  if r.containsType t.hash then r
  else { r with names := r.names.insert t.name t.hash, types := r.types.insert t.hash t }

/-- The built-in types. -/
def builtins : List TypeDecl :=
  Primitive.all.map (fun p => .named p.name (.primitive p)) ++
    [.named "object" .object, .named "string" .reference]

/-- Add the built-in types that are missing. -/
def registerPrimitives (r : Registry) : Registry := builtins.foldl addBuiltin r

/-- The registry of the built-in types. -/
def withPrimitives : Registry := empty.registerPrimitives

/-- The first field whose name occurs before it. -/
def repeatedField? : List String → List FieldDecl → Option String
  | _, [] => none
  | seen, f :: fs => if f.name ∈ seen then some f.name else repeatedField? (f.name :: seen) fs

/-- The fields of a type, with their owner and hash, and the instance fields numbered on. -/
def layOut (owner : TypeHash) : Nat → List FieldDecl → List FieldDecl
  | _, [] => []
  | n, f :: fs =>
    let f := { f with owner, hash := .ofField owner f.name }
    if f.isStatic then f :: layOut owner n fs
    else { f with index := UInt16.ofNat n } :: layOut owner (n + 1) fs

/-- Why a type cannot be added. -/
def typeRefusal? (r : Registry) (t : TypeDecl) : Option RegistrationError :=
  if r.containsType t.hash || r.names.contains t.name then some (.duplicateType t.name)
  else if t.base.isSome && t.kind.isValueType then some (.valueTypeWithBase t.name)
  else if t.base.any fun base => !r.containsType base then some (.unregisteredBase t.name)
  else (repeatedField? [] t.fields).map fun f => .repeatedField f t.name

/-- Add a type. Its instance fields are numbered behind those of its base. The answer is the hash of
the type or why it is refused, with the registry that is left. -/
def registerType (r : Registry) (t : TypeDecl) : Except RegistrationError TypeHash × Registry :=
  match r.typeRefusal? t with
  | some e => (.error e, r)
  | none =>
    let first := (t.base.map r.instanceFieldCount).getD 0
    let fields := layOut t.hash first t.fields
    let r : Registry := { r with fields := fields.foldl (fun m f => m.insert f.hash f) r.fields }
    let r := { r with names := r.names.insert t.name t.hash }
    (.ok t.hash, { r with types := r.types.insert t.hash { t with fields } })

/-- Add the array type over a registered type, unless it is present. -/
def registerArray (r : Registry) (element : TypeHash) :
    Except RegistrationError TypeHash × Registry :=
  let hash := TypeHash.arrayOf element
  if r.containsType hash then (.ok hash, r)
  else
    match r.type? element with
    | none => (.error (.unknownElement element.text), r)
    | some t => r.registerType (.array t.name element)

/-- Add a function. Its owner lists it, and the operator index of the owner is not kept any
longer. -/
def registerFunction (r : Registry) (f : FunctionDecl) :
    Except RegistrationError TypeHash × Registry :=
  if r.functions.contains f.hash then (.error (.duplicateFunction f.name), r)
  else
    match f.owner with
    | none => (.ok f.hash, { r with functions := r.functions.insert f.hash f })
    | some owner =>
      match r.type? owner with
      | none => (.error (.unknownOwner f.name), r)
      | some t =>
        let r := { r with types := r.types.insert owner (t.addMember f) }
        let r := { r with indexes := r.indexes.erase owner }
        (.ok f.hash, { r with functions := r.functions.insert f.hash f })

/-! ### Counts -/

/-- The number of types. -/
def typeCount (r : Registry) : Nat := r.types.size

/-- The number of functions. -/
def functionCount (r : Registry) : Nat := r.functions.size

end Registry

end StackCode
