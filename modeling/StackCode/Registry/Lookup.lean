import StackCode.Registry.Basic

/-!
# Member lookup

Fields and methods are looked up along the chain of bases. Conversions and constructors are looked
up in the operator index of one type: the index that is kept for it, or else a fresh one. Whether an
index is kept makes no difference to the answer.
-/

namespace StackCode.Registry

/-- The nearest field of a name. -/
def field? (r : Registry) (owner : TypeHash) (name : String) : Option FieldDecl :=
  (r.baseChain owner).findSome? fun t => r.fields[TypeHash.ofField t.hash name]?

/-- The field with a hash. -/
def fieldByHash? (r : Registry) (h : TypeHash) : Option FieldDecl := r.fields[h]?

/-- The function with a hash. -/
def function? (r : Registry) (h : TypeHash) : Option FunctionDecl := r.functions[h]?

/-- The nearest method with a name and parameter types. -/
def method? (r : Registry) (owner : TypeHash) (name : String) (params : List TypeHash) :
    Option FunctionDecl :=
  (r.baseChain owner).findSome? fun t => r.functions[TypeHash.ofMethod t.hash name params]?

/-- The operators and constructors of a type. -/
def indexed (r : Registry) (owner : TypeHash) : List FunctionDecl :=
  match r.type? owner with
  | none => []
  | some t => (t.operators ++ t.constructors).filterMap r.function?

/-- The operator index of a type: the kept one, or else a fresh one. -/
def operatorIndex (r : Registry) (owner : TypeHash) : OperatorIndex :=
  match r.indexes[owner]? with
  | some x => x
  | none => .build (r.indexed owner)

/-- Keep the operator index of a type. -/
def remember (r : Registry) (owner : TypeHash) : Registry :=
  { r with indexes := r.indexes.insert owner (r.operatorIndex owner) }

/-- The conversion operator that a type declares from one type to another. -/
def conversion? (r : Registry) (declaring : TypeHash) (op : ConversionOperator)
    (source target : TypeHash) : Option FunctionDecl :=
  (r.operatorIndex declaring).conversion op source target >>= r.function?

/-- The constructor of a type with given parameter types. -/
def constructor? (r : Registry) (owner : TypeHash) (params : List TypeHash) :
    Option FunctionDecl :=
  (r.operatorIndex owner).constructor params >>= r.function?

end StackCode.Registry
