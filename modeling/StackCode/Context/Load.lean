import StackCode.Context.Basic

/-!
# Loading symbols

How a symbol is pushed depends on what its user needs: its value, its address, a receiver, or an
argument. The value of a by-reference symbol is loaded through the address it holds. The address of
a symbol without storage is that of a temporary that holds its value.
-/

namespace StackCode

/-- How values of a type are moved through an address: by width, or as a block. -/
inductive Indirect
  | scalar (width : LoadWidth)
  | block (type : TypeHash)
  deriving DecidableEq, Repr, Inhabited

/-- The width of a store that fits a load. -/
def LoadWidth.stored : LoadWidth → StoreWidth
  | .int8 | .uint8 => .int8
  | .int16 | .uint16 => .int16
  | .int32 | .uint32 => .int32
  | .int64 => .int64
  | .float32 => .float32
  | .float64 => .float64
  | .native => .native
  | .reference => .reference

/-- The width at which an integer kind is loaded. -/
def IntKind.loadWidth : IntKind → LoadWidth
  | .char => .uint16
  | .int8 => .int8
  | .int16 => .int16
  | .int32 => .int32
  | .int64 => .int64
  | .uint8 => .uint8
  | .uint16 => .uint16
  | .uint32 => .uint32
  | .uint64 => .int64
  | .nint | .nuint => .native

namespace Indirect

/-- How values of a type are moved. Values of `void` are not. -/
def ofType (r : Registry) (h : TypeHash) : Except EmitError Indirect :=
  match r.kind? h with
  | none => .error (.unknownType (r.typeName h))
  | some (.primitive .void) => .error (.unsupportedPrimitive Primitive.void.name)
  | some (.primitive .bool) => .ok (.scalar .uint8)
  | some (.primitive (.int k)) => .ok (.scalar k.loadWidth)
  | some (.primitive (.float .float32)) => .ok (.scalar .float32)
  | some (.primitive (.float .float64)) => .ok (.scalar .float64)
  | some (.value _ _) => .ok (.block h)
  | some .reference | some .object | some (.array _) => .ok (.scalar .reference)

/-- The opcode that loads. -/
def loadOp : Indirect → Opcode
  | .scalar w => .loadIndirect w
  | .block _ => .loadObject

/-- The opcode that stores. -/
def storeOp : Indirect → Opcode
  | .scalar w => .storeIndirect w.stored
  | .block _ => .storeObject

/-- Append an opcode for the type; blocks name their type. -/
def emitOp (k : Indirect) (op : Opcode) : Emission Unit :=
  match k with
  | .scalar _ => Emission.onEmitter (Emitter.emit op)
  | .block h => Emission.onEmitter (Emitter.emitHash op h)

/-- Append the load. -/
def emitLoad (k : Indirect) : Emission Unit := k.emitOp k.loadOp

/-- Append the store. -/
def emitStore (k : Indirect) : Emission Unit := k.emitOp k.storeOp

end Indirect

/-- What the user of a symbol needs. -/
inductive LoadIntent
  | value
  /-- An address, possibly of a temporary. -/
  | reference (allowTemporary : Bool)
  /-- A receiver: value types by address, reference types by value. -/
  | callTarget
  /-- An argument, as the parameter is passed. -/
  | parameter (passing : Passing)
  deriving DecidableEq, Repr, Inhabited

namespace Emission

/-- Push the value of a symbol; `emit` is the code of the symbol itself. -/
def loadValue (s : Symbol) (emit : Access → Emission Unit) : Emission Unit := do
  if s.dataType.isByRef then
    let k ← checking fun c => Indirect.ofType c.registry s.dataType.hash
    emit .get
    k.emitLoad
  else emit .get

/-- Push an address of a symbol; `emit` is the code of the symbol itself. -/
def loadReference (s : Symbol) (emit : Access → Emission Unit) (allowTemporary : Bool) :
    Emission Unit := do
  let r := (← read).registry
  if s.dataType.isByRef then emit .get
  else if s.capabilities.address && (allowTemporary || s.inPlace r) then emit .address
  else if !allowTemporary then
    throw (.missingCapability (r.describe s.dataType) .justAddress)
  else
    let slot ← acquireTemporary s.dataType
    emit .get
    accessLocal .set slot
    accessLocal .address slot

/-- Push a symbol as it is needed; `emit` is the code of the symbol itself. -/
def loadBy (s : Symbol) (emit : Access → Emission Unit) (intent : LoadIntent) :
    Emission Unit := do
  checking fun c => c.checkSymbol s
  match intent with
  | .value => loadValue s emit
  | .reference allowTemporary => loadReference s emit allowTemporary
  | .callTarget =>
    if (← read).registry.isValueType s.valueType.hash then loadReference s emit true
    else loadValue s emit
  | .parameter passing =>
    if passing.isReference then loadReference s emit true else loadValue s emit

/-- How the source of a conversion is pushed: a function that converts says how it takes it. -/
def sourceIntent (r : Registry) : ConversionRule → LoadIntent
  | .operator f _ _ | .constructor f =>
    match r.function? f with
    | some ⟨_, _, _, p :: _, _, _, _⟩ => .parameter p.passing
    | _ => .value
  | _ => .value

/-- The instruction that converts the value on the stack. -/
def emitConversion : ConversionRule → Emission Unit
  | .identity => pure ()
  | .box h => onEmitter (Emitter.emitHash .box h)
  | .unbox h => onEmitter (Emitter.emitHash .unbox h)
  | .operator f _ _ => onEmitter (Emitter.emitCall .call f 1)
  | .constructor f => onEmitter (Emitter.emitCall .new f 1)
  | .cast h => onEmitter (Emitter.emitHash .cast h)

/-- Refuse an access that a symbol does not offer. -/
def refuse (s : Symbol) : Access → Emission Unit
  | .get => pure ()
  | .set => do throw (.missingCapability ((← read).registry.describe s.dataType) .justAssign)
  | .address => do throw (.missingCapability ((← read).registry.describe s.dataType) .justAddress)

mutual

/-- The code of a symbol itself: push what it holds, pop a value into it, or push its address. A
field is not assigned to inside a copy of its instance. -/
def emitAccess : Symbol → Access → Emission Unit
  | .localSlot c slot _, a => do
    checking fun s => s.check c
    accessLocal a slot
  | .argument c slot _, a => do
    checking fun s => s.check c
    onEmitter (Emitter.emit16 (.argument a) slot)
  | .field c holder f, a => do
    checking fun s => s.check c
    let r := (← read).registry
    if a = .set && !(Symbol.field c holder f).inPlace r then
      throw (.missingCapability (r.describe f.type) .justAssign)
    loadBy holder (emitAccess holder) .callTarget
    onEmitter (Emitter.emitHash (.field a) f.hash)
  | .staticField c f, a => do
    checking fun s => s.check c
    onEmitter (Emitter.emitHash (.staticField a) f.hash)
  | .element c array index _, a => do
    checking fun s => s.check c
    loadBy array (emitAccess array) .value
    loadBy index (emitAccess index) .value
    onEmitter (Emitter.emit (.element a))
  | .captured c id, a => do
    checking fun s => s.check c
    match a with
    | .get => onEmitter (Emitter.emit16 .loadCaptured id.index)
    | .address => onEmitter (Emitter.emit16 .capturedAddress id.index)
    | .set => refuse (.captured c id) a
  | .literal c l, a => do
    checking fun s => s.check c
    refuse (.literal c l) a
    onEmitter (Emitter.emitLiteral l)
  | .binary c op lhs rhs t, a => do
    checking fun s => s.check c
    refuse (.binary c op lhs rhs t) a
    loadBy lhs (emitAccess lhs) .value
    loadBy rhs (emitAccess rhs) .value
    onEmitter (Emitter.emit op.opcode)
  | .unary c op operand t, a => do
    checking fun s => s.check c
    refuse (.unary c op operand t) a
    loadBy operand (emitAccess operand) .value
    onEmitter (Emitter.emit op.opcode)
  | .call c f args, a => do
    checking fun s => s.check c
    refuse (.call c f args) a
    emitArguments args f.params
    onEmitter (Emitter.emitCall .call f.hash args.length)
  | .callOn c f receiver args, a => do
    checking fun s => s.check c
    refuse (.callOn c f receiver args) a
    loadBy receiver (emitAccess receiver) .callTarget
    emitArguments args f.params
    onEmitter (Emitter.emitCall .callMethod f.hash args.length)
  | .construct c f t args, a => do
    checking fun s => s.check c
    refuse (.construct c f t args) a
    emitArguments args f.params
    onEmitter (Emitter.emitCall .new f.hash args.length)
  | .newArray c element length, a => do
    checking fun s => s.check c
    refuse (.newArray c element length) a
    loadBy length (emitAccess length) .value
    onEmitter (Emitter.emitHash .newArray element)
  | .arrayLength c array, a => do
    checking fun s => s.check c
    refuse (.arrayLength c array) a
    loadBy array (emitAccess array) .value
    onEmitter (Emitter.emit .arrayLength)
  | .converted c source k, a => do
    checking fun s => s.check c
    refuse (.converted c source k) a
    loadBy source (emitAccess source) (sourceIntent (← read).registry k.rule)
    emitConversion k.rule

/-- Push arguments, each as its parameter is passed. -/
def emitArguments : List Symbol → List Param → Emission Unit
  | [], _ => pure ()
  | _ :: _, [] => pure ()
  | arg :: args, p :: ps => do
    loadBy arg (emitAccess arg) (.parameter p.passing)
    emitArguments args ps

end

/-- Push a symbol as it is needed. -/
def emitLoad (s : Symbol) (intent : LoadIntent) : Emission Unit := loadBy s (emitAccess s) intent

/-- Push a symbol as it is needed, or leave no trace. -/
def load (s : Symbol) (intent : LoadIntent) : Emission Unit := do
  checking fun c => c.checkSymbol s
  atomically (emitLoad s intent)

end Emission

end StackCode
