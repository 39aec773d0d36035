import StackCode.Registry.Declaration

/-!
# Operator indexes

The conversions and constructors of a type, by signature. An index is built from a list of
functions; of two functions with one signature the later counts.
-/

namespace StackCode

/-- The conversions by operator, source and target, and the constructors by parameter types. -/
structure OperatorIndex where
  conversions : List ((ConversionOperator × TypeHash × TypeHash) × TypeHash)
  constructors : List (List TypeHash × TypeHash)
  deriving DecidableEq, Repr, Inhabited

namespace OperatorIndex

/-- The index of no functions. -/
def empty : OperatorIndex := ⟨[], []⟩

/-- Bind a key, in place of an earlier binding of the key. -/
def bind {κ : Type} [DecidableEq κ] (key : κ) (h : TypeHash) (l : List (κ × TypeHash)) :
    List (κ × TypeHash) :=
  (key, h) :: l.filter fun e => e.1 ≠ key

/-- Enter a function. Only conversions with one parameter and constructors are indexed. -/
def enter (x : OperatorIndex) (f : FunctionDecl) : OperatorIndex :=
  match f.kind, f.params with
  | .conversion op, [p] =>
    { x with conversions := bind (op, p.type.hash, f.returns.hash) f.hash x.conversions }
  | .constructor, _ => { x with constructors := bind f.paramHashes f.hash x.constructors }
  | _, _ => x

/-- The index of a list of functions. -/
def build (fs : List FunctionDecl) : OperatorIndex := fs.foldl enter empty

/-- The conversion with a signature. -/
def conversion (x : OperatorIndex) (op : ConversionOperator) (source target : TypeHash) :
    Option TypeHash :=
  x.conversions.lookup (op, source, target)

/-- The constructor with given parameter types. -/
def constructor (x : OperatorIndex) (params : List TypeHash) : Option TypeHash :=
  x.constructors.lookup params

end OperatorIndex

end StackCode
