import StackCode.Registry.Lookup

/-!
# Conversions

How a value of one type becomes a value of another. The rules are tried in a fixed order and the
first that applies is taken: identity, boxing, unboxing, an operator of the source type, an operator
of the target type, a constructor of the target type, a checked cast.
-/

namespace StackCode

/-- The rule by which a conversion is made. -/
inductive ConversionRule
  | identity
  | box (type : TypeHash)
  | unbox (type : TypeHash)
  | operator (function declaring : TypeHash) (op : ConversionOperator)
  | constructor (function : TypeHash)
  | cast (type : TypeHash)
  deriving DecidableEq, Repr, Inhabited

/-- A word for the rule. -/
def ConversionRule.name : ConversionRule → String
  | .identity => "identity"
  | .box _ => "box"
  | .unbox _ => "unbox"
  | .operator _ _ op => op.name
  | .constructor _ => "constructor"
  | .cast _ => "cast"

/-- A conversion from one type to another. -/
structure Conversion where
  source : TypeHash
  target : TypeHash
  rule : ConversionRule
  deriving DecidableEq, Repr, Inhabited

namespace Registry

/-- The operator that a type declares for a conversion, explicit before implicit. -/
def userOperator? (r : Registry) (declaring source target : TypeHash) : Option ConversionRule :=
  [ConversionOperator.explicit, .implicit].findSome? fun op =>
    (r.conversion? declaring op source target).map fun f => .operator f.hash declaring op

/-- The constructor of the target that takes the source. -/
def convertingConstructor? (r : Registry) (source target : TypeHash) : Option ConversionRule :=
  (r.constructor? target [source]).map fun f => .constructor f.hash

/-- The checked cast between two reference types. -/
def cast? (r : Registry) (source target : TypeHash) : Option ConversionRule :=
  if r.isReferenceType source && r.isReferenceType target then some (.cast target) else none

/-- The first rule that applies. -/
def conversionRule? (r : Registry) (source target : TypeHash) : Option ConversionRule :=
  if source == .void || target == .void then none
  else if r.assignable source target then some .identity
  else if target == .object && r.isValueType source then some (.box source)
  else if source == .object && r.isValueType target then some (.unbox target)
  else
    (r.userOperator? source source target).or <|
    (r.userOperator? target source target).or <|
    (r.convertingConstructor? source target).or <|
    r.cast? source target

/-- The conversion from one type to another. -/
def resolve (r : Registry) (source target : TypeHash) : Except EmitError Conversion :=
  match r.conversionRule? source target with
  | some rule => .ok ⟨source, target, rule⟩
  | none => .error (.noConversion (r.typeName source) (r.typeName target))

end Registry

end StackCode
