import StackCode.Context.Load

/-!
# Making symbols

Symbols are made in a setting, which refuses parts of other contexts and parts whose types do not
fit. Only a variable changes the body: it declares a local slot.
-/

namespace StackCode

/-- A variable of a type, in a local slot of its own. -/
def Emission.declareVariable (type : DataType) : Emission Symbol := do
  let c ← read
  if !c.registry.containsType type.hash then throw (.unknownType type.hash.text)
  return .localSlot c.id (← Emission.declareLocal type) type

namespace Setting

/-- The error of a member that a type does not have. -/
def noMember {α : Type} (type member : String) : Except EmitError α :=
  .error (.unknownMember type member)

/-- The error of a value that does not have the type that is needed. -/
def noConversion {α : Type} (c : Setting) (source target : DataType) : Except EmitError α :=
  .error (.noConversion (c.registry.describe source) (c.registry.describe target))

/-! ### Storage -/

/-- A parameter of the function. -/
def argument (c : Setting) (index : Nat) : Except EmitError Symbol :=
  match c.function.params[index]? with
  | some p =>
    .ok (.argument c.id (UInt16.ofNat (index + if c.isInstance then 1 else 0)) p.slotType)
  | none => noMember c.function.name s!"argument {index}"

/-- The receiver of the function; for a value type it is an address. -/
def this (c : Setting) : Except EmitError Symbol :=
  match c.function.owner, c.isInstance with
  | some owner, true =>
    let type := if c.registry.isValueType owner then DataType.byRef owner else .plain owner
    .ok (.argument c.id 0 type)
  | _, _ => noMember c.function.name "this"

/-- A constant. -/
def literal (c : Setting) (l : Literal) : Symbol := .literal c.id l

/-- An instance field of a symbol. -/
def field (c : Setting) (holder : Symbol) (name : String) : Except EmitError Symbol := do
  c.checkSymbol holder
  let owner := holder.valueType.hash
  match (c.registry.field? owner name).filter fun f => !f.isStatic with
  | some f => return .field c.id holder f
  | none => noMember (c.registry.typeName owner) name

/-- A static field of a type. -/
def staticField (c : Setting) (owner : TypeHash) (name : String) : Except EmitError Symbol :=
  match (c.registry.field? owner name).filter fun f => f.isStatic with
  | some f => .ok (.staticField c.id f)
  | none => noMember (c.registry.typeName owner) name

/-- Refuse a symbol that is no 32-bit integer. -/
def requireInt32 (c : Setting) (s : Symbol) : Except EmitError Unit :=
  if s.valueType.hash = .int32 then .ok () else c.noConversion s.valueType (.plain .int32)

/-- An element of an array. -/
def element (c : Setting) (array index : Symbol) : Except EmitError Symbol := do
  c.checkSymbol array
  c.checkSymbol index
  match c.registry.arrayElement? array.valueType.hash with
  | none => noMember (c.registry.describe array.valueType) "[]"
  | some h =>
    c.requireInt32 index
    return .element c.id array index (.plain h)

/-- A captured value of the function's owner. -/
def captured (c : Setting) (id : CapturedId) : Except EmitError Symbol :=
  if c.function.owner = some id.owner then .ok (.captured c.id id)
  else noMember (c.registry.typeName id.owner) s!"captured value {id.index.toNat}"

/-! ### Operations -/

/-- The numeric category of a type. -/
def category? (c : Setting) (h : TypeHash) : Option NumericCategory :=
  c.registry.primitive? h >>= Primitive.category

/-- Whether operands of a type can be combined. -/
def supportsBinary (c : Setting) (op : BinaryOp) (h : TypeHash) : Bool :=
  match op with
  | .compare .eq | .compare .ne => (c.category? h).isSome || c.registry.isReferenceType h
  | .arith .add => ((c.category? h).isSome && h != .bool) || h == .string
  | .arith .bitAnd | .arith .bitOr | .arith .bitXor => (c.category? h).any (· != .float)
  | _ => (c.category? h).isSome && h != .bool

/-- Whether an operator applies to operands of a type. -/
def supportsUnary (c : Setting) (op : UnaryOp) (h : TypeHash) : Bool :=
  match op with
  | .neg => (c.category? h).any (· != .unsigned)
  | .not => (c.category? h).any (· != .float)

/-- An operation on two symbols of one type. -/
def binary (c : Setting) (op : BinaryOp) (lhs rhs : Symbol) : Except EmitError Symbol := do
  c.checkSymbol lhs
  c.checkSymbol rhs
  if lhs.valueType ≠ rhs.valueType then c.noConversion rhs.valueType lhs.valueType
  if !c.supportsBinary op lhs.valueType.hash then
    noMember (c.registry.describe lhs.valueType) ("operator " ++ op.sign)
  return .binary c.id op lhs rhs (if op.isComparison then .plain .bool else lhs.valueType)

/-- An operation on one symbol. -/
def unary (c : Setting) (op : UnaryOp) (operand : Symbol) : Except EmitError Symbol := do
  c.checkSymbol operand
  if !c.supportsUnary op operand.valueType.hash then
    noMember (c.registry.describe operand.valueType) ("operator " ++ op.name)
  return .unary c.id op operand operand.valueType

/-- The registered function with a hash. -/
def lookup (c : Setting) (function : TypeHash) : Except EmitError FunctionDecl :=
  match c.registry.function? function with
  | some f => .ok f
  | none => noMember "<functions>" function.text

/-- Refuse arguments whose types do not fit the parameters. -/
def checkTypes (c : Setting) : List Symbol → List Param → Except EmitError Unit
  | arg :: args, p :: ps => do
    let target := p.type.dereferenced
    if !c.registry.assignable arg.valueType.hash target.hash then
      c.noConversion arg.valueType target
    checkTypes c args ps
  | _, _ => .ok ()

/-- Refuse arguments that do not fit the parameters of a function. -/
def checkArguments (c : Setting) (f : FunctionDecl) (args : List Symbol) :
    Except EmitError Unit := do
  if args.length ≠ f.params.length then
    throw (.invalidOperand (.argumentMismatch f.name f.params.length args.length))
  args.forM c.checkSymbol
  c.checkTypes args f.params

/-- Refuse a receiver that does not fit a function. -/
def checkReceiver (c : Setting) (f : FunctionDecl) (receiver : Symbol) :
    Except EmitError Unit := do
  c.checkSymbol receiver
  let owner := f.owner.getD .empty
  if !c.registry.assignable receiver.valueType.hash owner then
    c.noConversion receiver.valueType (.plain owner)

/-- A call of a function, with a receiver for an instance method. -/
def call (c : Setting) (function : TypeHash) (receiver : Option Symbol) (args : List Symbol) :
    Except EmitError Symbol := do
  let f ← c.lookup function
  if f.kind = .constructor then
    throw (.invalidOperand (.constructorCalled (c.registry.typeName (f.owner.getD .empty))))
  match receiver, f.isStatic with
  | some s, false =>
    c.checkReceiver f s
    c.checkArguments f args
    return .callOn c.id f s args
  | none, true =>
    c.checkArguments f args
    return .call c.id f args
  | none, false => throw (.invalidOperand (.missingReceiver f.name))
  | some _, true => throw (.invalidOperand (.unexpectedReceiver f.name))

/-- A new instance, made by a constructor. -/
def construct (c : Setting) (function : TypeHash) (args : List Symbol) :
    Except EmitError Symbol := do
  let f ← c.lookup function
  match f.kind, f.owner with
  | .constructor, some owner =>
    c.checkArguments f args
    return .construct c.id f owner args
  | _, _ => throw (.invalidOperand (.notConstructor f.name))

/-- A new array. -/
def newArray (c : Setting) (element : TypeHash) (length : Symbol) : Except EmitError Symbol := do
  c.checkSymbol length
  if !c.registry.containsType (.arrayOf element) then
    throw (.unknownType (c.registry.typeName element ++ "[]"))
  c.requireInt32 length
  return .newArray c.id element length

/-- The length of an array. -/
def arrayLength (c : Setting) (array : Symbol) : Except EmitError Symbol := do
  c.checkSymbol array
  if (c.registry.arrayElement? array.valueType.hash).isNone then
    noMember (c.registry.describe array.valueType) "length"
  return .arrayLength c.id array

/-- A symbol converted to a type. -/
def convert (c : Setting) (source : Symbol) (target : DataType) : Except EmitError Symbol := do
  c.checkSymbol source
  let k ← c.registry.resolve source.valueType.hash target.dereferenced.hash
  return .converted c.id source k

end Setting

end StackCode
