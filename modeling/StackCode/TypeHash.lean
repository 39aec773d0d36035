import Std.Data.TreeMap
import StackCode.Hash.Xxh64
import StackCode.Text.Hex

/-!
# Type hashes

Types, functions, constructors, operators and fields are identified by 64-bit hashes of their
signatures. Each sort of declaration hashes in a domain of its own, so that a field and a method of
one name stay apart, and `mix` folds the parameter types in order into the hash.
-/

namespace StackCode

/-- The identity of a type or of a member. -/
structure TypeHash where
  bits : UInt64
  deriving DecidableEq, Repr, Inhabited

namespace TypeHash

instance : Ord TypeHash := ⟨compareOn bits⟩

instance : Std.TransOrd TypeHash := inferInstanceAs (Std.TransCmp (compareOn bits))

instance : Std.LawfulEqOrd TypeHash where
  eq_of_compare {a b} h := by
    have : a.bits = b.bits := Std.LawfulEqOrd.eq_of_compare h
    cases a; cases b; simp_all

/-- The hash that no declaration is meant to have. -/
def empty : TypeHash := ⟨0⟩

/-- Sixteen hexadecimal digits after `0x`. -/
def text (h : TypeHash) : String := "0x" ++ Hex.padded 16 h.bits.toNat

/-- Read a hash: `0x` and one to sixteen hexadecimal digits. -/
def ofText? (s : String) : Option TypeHash :=
  match s.toList with
  | '0' :: 'x' :: ds =>
    if ds.length ≤ 16 then (Hex.parse? ds).map fun n => ⟨UInt64.ofNat n⟩ else none
  | _ => none

/-- The hash as it is shown inside the text of an address. -/
def taggedText (h : TypeHash) : String := "TypeHash(" ++ h.text ++ ")"

/-! ### Signatures -/

/-- The odd multiplier between two parts of a signature. -/
def separator : UInt64 := 0x4bc94d6bd06053ad

/-- The domains of the seven sorts of hashes. -/
def typeDomain : UInt64 := 0x2fac10b63a6cc57c

@[inherit_doc typeDomain] def functionDomain : UInt64 := 0x5ea77ffbcdf5f302

@[inherit_doc typeDomain] def methodDomain : UInt64 := 0x7d3c8b4a92e15f6d

@[inherit_doc typeDomain] def operatorDomain : UInt64 := 0x3e9f5d2a8c7b1403

@[inherit_doc typeDomain] def constructorDomain : UInt64 := 0x9a7f3d5e2b8c4601

@[inherit_doc typeDomain] def fieldDomain : UInt64 := 0x1a095090689d4647

@[inherit_doc typeDomain] def arrayDomain : UInt64 := 0x6c8e9cf570932bd5

/-- The markers of the first sixteen parameter positions. -/
def markers : List UInt64 :=
  [0x9e3779b97f4a7c15, 0xbf58476d1ce4e5b9, 0x94d049bb133111eb, 0xd6e8feb86659fd93,
   0xe7037ed1a0b428db, 0xc6a4a7935bd1e995, 0x8648dbbc94d49b8d, 0xa2b48b2c69e0d657,
   0x7c3e9f2a5b8d1403, 0x5d8c7b4a3e9f2106, 0x3f1e9d8c7b5a4203, 0x1a2b3c4d5e6f7089,
   0x9f8e7d6c5b4a3210, 0x2468ace013579bdf, 0xfdb97531eca86420, 0x123456789abcdef0]

/-- The marker of a parameter position; from the seventeenth on it is counted up from the first. -/
def marker (i : Nat) : UInt64 :=
  match markers[i]? with
  | some m => m
  | none => 0x9e3779b97f4a7c15 + i.toUInt64

/-- Fold the parameter types from position `i` on into a hash. -/
def mixFrom : Nat → UInt64 → List TypeHash → UInt64
  | _, h, [] => h
  | i, h, p :: ps => mixFrom (i + 1) (h * separator + (marker i ^^^ p.bits)) ps

/-- Fold parameter types into a hash. -/
def mix (h : UInt64) (params : List TypeHash) : UInt64 := mixFrom 0 h params

/-- The hash of a named type. -/
def ofName (name : String) : TypeHash := ⟨typeDomain ^^^ xxh64Text name⟩

/-- The hash of a free function. -/
def ofFunction (name : String) (params : List TypeHash) : TypeHash :=
  ⟨mix (functionDomain ^^^ xxh64Text name) params⟩

/-- The hash of a method. -/
def ofMethod (owner : TypeHash) (name : String) (params : List TypeHash) : TypeHash :=
  ⟨mix (methodDomain ^^^ owner.bits ^^^ xxh64Text name) params⟩

/-- The hash of a constructor. -/
def ofConstructor (owner : TypeHash) (params : List TypeHash) : TypeHash :=
  ⟨mix (constructorDomain ^^^ owner.bits) params⟩

/-- The hash of a conversion operator; it depends on the result type too. -/
def ofOperator (owner : TypeHash) (name : String) (params : List TypeHash)
    (returns : TypeHash) : TypeHash :=
  ⟨mix (operatorDomain ^^^ owner.bits ^^^ xxh64Text name) params * separator ^^^ returns.bits⟩

/-- The hash of a field. -/
def ofField (owner : TypeHash) (name : String) : TypeHash :=
  ⟨fieldDomain ^^^ Xxh64.rotateLeft owner.bits 17 ^^^ xxh64Text name⟩

/-- The hash of the array type with the given elements. -/
def arrayOf (element : TypeHash) : TypeHash := ⟨mix arrayDomain [element]⟩

/-- The type with a given written form, whose characters come last to first: an array type ends in
`[]`, a hash starts with `0x`, and anything else is the name of a type. -/
def ofReversed? : List Char → Option TypeHash
  | ']' :: '[' :: element => (ofReversed? element).map arrayOf
  | cs =>
    let s := String.ofList cs.reverse
    if s.startsWith "0x" then ofText? s else some (ofName s)

/-- Read the written form of a type, such as `int32`, `int32[]` or `0x2a`. -/
def read? (s : String) : Option TypeHash := ofReversed? s.toList.reverse

end TypeHash

end StackCode
