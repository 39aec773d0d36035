import StackCode.Machine.Operator
import StackCode.Machine.Place

/-!
# One step

The machine decodes the instruction at the offset of the innermost frame, moves the offset behind it
and executes it. A call adds a frame; a return removes one and resumes whoever called.
-/

namespace StackCode

/-- A decoded instruction: its offset, its opcode, its operand and, for calls, the number of
arguments. -/
structure Instr where
  offset : Nat
  op : Opcode
  operand : Nat
  argc : Nat
  deriving DecidableEq, Repr, Inhabited

/-- The offset behind an instruction. -/
def Instr.next (i : Instr) : Nat := i.offset + 1 + i.op.operandSize

/-- The instruction at an offset, if it is there with all its operand bytes. -/
def Method.fetch? (m : Method) (offset : Nat) : Option Instr := do
  let op ← m.chunk.op? offset
  let operand ← m.chunk.operand? offset op
  let argc ← if op.operandSize = 3 then (m.chunk.byte? (offset + 3)).map UInt8.toNat else some 0
  return ⟨offset, op, operand, argc⟩

/-- Whether the machine goes on, or hands a result to the host. -/
inductive Progress
  | running
  | done (result : Value)
  deriving DecidableEq, Repr, Inhabited

/-- What an indirect load calls the value it expects, and whether a value is one. -/
def LoadWidth.accepts : LoadWidth → Value → String × Bool
  | .int8, v => ("int8", v matches .lit (.int .int8 _))
  | .uint8, v => ("uint8", v matches .lit (.int .uint8 _) | .bool _)
  | .int16, v => ("int16", v matches .lit (.int .int16 _))
  | .uint16, v => ("uint16", v matches .lit (.int .uint16 _) | .lit (.int .char _))
  | .int32, v => ("int32", v matches .lit (.int .int32 _))
  | .uint32, v => ("uint32", v matches .lit (.int .uint32 _))
  | .int64, v => ("64-bit integer", v matches .lit (.int .int64 _) | .lit (.int .uint64 _))
  | .float32, v => ("float32", v matches .lit (.float .float32 _))
  | .float64, v => ("float64", v matches .lit (.float .float64 _))
  | .native, v => ("native integer", v matches .lit (.int .nint _) | .lit (.int .nuint _))
  | .reference, v => ("reference", v matches .null | .ref _ | .lit (.str _))

/-- What an indirect store calls the value it expects, and whether a value is one. -/
def StoreWidth.accepts : StoreWidth → Value → String × Bool
  | .int8, v =>
    ("8-bit value", v matches .lit (.int .int8 _) | .lit (.int .uint8 _) | .bool _)
  | .int16, v =>
    ("16-bit value",
      v matches .lit (.int .int16 _) | .lit (.int .uint16 _) | .lit (.int .char _))
  | .int32, v => ("32-bit integer", v matches .lit (.int .int32 _) | .lit (.int .uint32 _))
  | .int64, v => ("64-bit integer", v matches .lit (.int .int64 _) | .lit (.int .uint64 _))
  | .float32, v => ("float32", v matches .lit (.float .float32 _))
  | .float64, v => ("float64", v matches .lit (.float .float64 _))
  | .native, v => ("native integer", v matches .lit (.int .nint _) | .lit (.int .nuint _))
  | .reference, v => ("reference", v matches .null | .ref _ | .lit (.str _))

/-- Whether a value is an aggregate, as block loads, stores and copies expect. -/
def Value.acceptedAsBlock (v : Value) : String × Bool := ("aggregate", v matches .aggregate _)

namespace Exec

/-- Refuse a value that an indirect access does not accept. -/
def checkWidth (accepted : String × Bool) (v : Value) : Exec Unit :=
  if accepted.2 then pure () else throw (.mismatch accepted.1 v)

/-! ### Calls -/

/-- Run a native function. -/
def callNative (native : Native) (args : List Value) : Exec Value := do
  let (result, heap) := native (← get).heap args
  modify fun s => { s with heap }
  MonadExcept.ofExcept result

/-- Begin a call of a method: check the number of values and the depth, and add a frame. -/
def enter (function : TypeHash) (args : List Value) (resume : Resume) : Exec Unit := do
  let p ← read
  match p.methods[function]? with
  | none => throw (.unknownFunction function)
  | some m =>
    let arity := m.function.stackArity
    if args.length ≠ arity then throw (.arityMismatch m.function.name arity args.length)
    if p.maxDepth ≤ (← get).depth then throw (.stackOverflow p.maxDepth)
    let frame : Frame :=
      { method := m
        args := args.toArray
        locals := m.locals.map p.registry.defaultSlot
        stack := []
        offset := 0
        resume }
    modify fun s => { s with frames := frame :: s.frames }

/-- Put the result of a call on the operand stack, unless there is none. -/
def pushResult (v : Value) : Exec Unit := if v.isVoid then pure () else push v

/-- End the innermost call with a result. -/
def leave (result : Value) : Exec Progress := do
  let frame ← top
  modify fun s => { s with frames := s.frames.tail }
  match frame.resume with
  | .host => return .done result
  | .caller => pushResult result; return .running
  | .built v => push v; return .running
  | .cell id => push (← object id).value; return .running

/-- Call a function from code. -/
def call (function : TypeHash) (args : List Value) : Exec Unit := do
  match (← read).natives[function]? with
  | some native => pushResult (← callNative native args)
  | none => enter function args .caller

/-! ### Instances -/

/-- The fields of a fresh instance of a reference type, those of its bases included. -/
def objectLayout (r : Registry) (h : TypeHash) : Value :=
  let fields := inOrder ((r.baseChain h).flatMap TypeDecl.instanceFields)
  .aggregate (fields.map fun f => r.defaultValue f.type.hash)

/-- A fresh instance of a type. Reference types are allocated on the heap. -/
def instantiate (h : TypeHash) : Exec Value := do
  let r := (← read).registry
  match r.kind? h with
  | some .reference => return .ref (← alloc h (objectLayout r h))
  | _ => return r.defaultValue h

/-- Construct an instance from code. A native constructor makes the instance itself; a constructor
with a body fills a fresh instance, or a cell for an instance that is no reference. -/
def construct (function : TypeHash) (args : List Value) : Exec Unit := do
  let p ← read
  match p.natives[function]? with
  | some native => push (← callNative native args)
  | none =>
    match p.registry.function? function >>= FunctionDecl.owner with
    | none => throw (.unknownFunction function)
    | some owner =>
      match ← instantiate owner with
      | .ref id => enter function (.ref id :: args) (.built (.ref id))
      | v =>
        let id ← alloc owner v
        enter function (.address (.ofRoot (.heap id)) :: args) (.cell id)

/-! ### Instructions -/

/-- The hash that the operand of an instruction refers to. -/
def hashOperand (m : Method) (i : Instr) : Exec TypeHash :=
  match m.constants.typeHash? i.operand with
  | some h => pure h
  | none => throw (.invalidBytecode i.offset)

/-- The literal that the operand of an instruction refers to. -/
def literalOperand (m : Method) (i : Instr) : Exec Literal :=
  match m.constants.literal? i.operand with
  | some l => pure l
  | none => throw (.invalidBytecode i.offset)

/-- Push the value of a root, pop a value into it, or push its address. -/
def accessRoot (i : Instr) (root : Root) : Access → Exec Unit
  | .get => do push (← fetch (.ofRoot root))
  | .set => do store (.ofRoot root) (← pop i.offset)
  | .address => push (.address (.ofRoot root))

/-- Access a field of an instance that is popped. The value of a field can also be taken out of an
aggregate on the stack. -/
def accessField (i : Instr) (index : UInt16) : Access → Exec Unit
  | .get => do
    let holder ← pop i.offset
    match holder with
    | .aggregate items =>
      match items[index.toNat]? with
      | some v => push v
      | none => push (← fetch (← memberAddress holder index))
    | _ => push (← fetch (← memberAddress holder index))
  | .set => do
    let holder ← pop i.offset
    let v ← pop i.offset
    store (← memberAddress holder index) v
  | .address => do
    let holder ← pop i.offset
    push (.address (← memberAddress holder index))

/-- Access an element of an array that is popped with its index. -/
def accessElement (i : Instr) : Access → Exec Unit
  | .get => do
    let index ← pop i.offset
    let array ← pop i.offset
    push (← fetch (← elementAddress array index))
  | .set => do
    let index ← pop i.offset
    let array ← pop i.offset
    let v ← pop i.offset
    store (← elementAddress array index) v
  | .address => do
    let index ← pop i.offset
    let array ← pop i.offset
    push (.address (← elementAddress array index))

/-- Access a static field. A value to be stored is popped before the operand is looked up. -/
def accessStatic (m : Method) (i : Instr) : Access → Exec Unit
  | .get => do push (← fetch (.ofRoot (.static (← hashOperand m i))))
  | .set => do
    let v ← pop i.offset
    store (.ofRoot (.static (← hashOperand m i))) v
  | .address => do push (.address (.ofRoot (.static (← hashOperand m i))))

/-- Allocate an array whose length is popped. -/
def newArray (i : Instr) (element : TypeHash) : Exec Unit := do
  match (← pop i.offset).int32? with
  | none => throw (.indexOutOfBounds (-1) 0)
  | some n =>
    if n.toInt < 0 then throw (.indexOutOfBounds n.toInt 0)
    let items := List.replicate n.toNat ((← read).registry.defaultValue element)
    push (.ref (← alloc (.arrayOf element) (.aggregate items)))

/-- The root of a captured value of the method's owner. -/
def capturedRoot (m : Method) (i : Instr) : Exec Root :=
  match m.function.owner with
  | some owner => pure (.captured owner (UInt16.ofNat i.operand))
  | none => throw (.invalidBytecode i.offset)

/-- Load through an address that is popped. -/
def loadThrough (i : Instr) (accepts : Value → String × Bool) : Exec Unit := do
  let v ← fetch (← popAddress i.offset)
  checkWidth (accepts v) v
  push v

/-- Store through an address below the value. -/
def storeThrough (i : Instr) (accepts : Value → String × Bool) : Exec Unit := do
  let v ← pop i.offset
  let a ← popAddress i.offset
  checkWidth (accepts v) v
  store a v

/-- Copy an aggregate between two addresses. -/
def copyBlock (i : Instr) : Exec Unit := do
  let source ← popAddress i.offset
  let target ← popAddress i.offset
  let v ← fetch source
  checkWidth v.acceptedAsBlock v
  store target v

/-- The value in a box of the given type. -/
def unbox (i : Instr) (target : TypeHash) : Exec Unit := do
  let id ← expectRef (← pop i.offset)
  let o ← object id
  let r := (← read).registry
  if o.type ≠ target then throw (.invalidCast (r.typeName o.type) (r.typeName target))
  push o.value

/-- Check that a reference is null or refers to an object of the given type. -/
def checkedCast (i : Instr) (target : TypeHash) : Exec Unit := do
  let v ← pop i.offset
  if !v.isNull then
    let actual ← dynamicType v
    let r := (← read).registry
    if !r.assignable actual target then
      throw (.invalidCast (r.typeName actual) (r.typeName target))
  push v

/-- Call a function with popped arguments, and a popped receiver for a method. -/
def callInstr (m : Method) (i : Instr) (hasReceiver : Bool) : Exec Unit := do
  let args ← popMany i.offset i.argc
  if hasReceiver then
    let receiver ← pop i.offset
    if receiver.isNull then throw .nullReference
    call (← hashOperand m i) (receiver :: args)
  else call (← hashOperand m i) args

/-- Jump if the popped truth value is the expected one. -/
def jumpIf (i : Instr) (expected : Bool) : Exec Unit := do
  let v ← pop i.offset
  match v.bool? with
  | none => throw (.mismatch "bool" v)
  | some b => if b = expected then goto i.operand else pure ()

/-- The effect of an instruction that stays in its method or calls another. -/
def effect (m : Method) (i : Instr) : Exec Unit := do
  match i.op with
  | .constant _ => push (.lit (← literalOperand m i))
  | .pushNull => push .null
  | .pushBool b => push (.bool b)
  | .nop => pure ()
  | .pop => let _ ← pop i.offset
  | .dup =>
    let v ← pop i.offset
    push v
    push v
  | .swap =>
    let b ← pop i.offset
    let a ← pop i.offset
    push b
    push a
  | .localSlot _ a => accessRoot i (.localSlot (← level) (UInt16.ofNat i.operand)) a
  | .argument a => accessRoot i (.argument (← level) (UInt16.ofNat i.operand)) a
  | .field a => accessField i (← fieldIndex (← hashOperand m i)) a
  | .staticField a => accessStatic m i a
  | .element a => accessElement i a
  | .newArray => newArray i (← hashOperand m i)
  | .arrayLength =>
    let id ← expectRef (← pop i.offset)
    push (.int32 (← arrayLength id))
  | .loadCaptured => push (← fetch (.ofRoot (← capturedRoot m i)))
  | .capturedAddress => push (.address (.ofRoot (← capturedRoot m i)))
  | .loadIndirect w => loadThrough i w.accepts
  | .loadObject => loadThrough i Value.acceptedAsBlock
  | .storeIndirect w => storeThrough i w.accepts
  | .storeObject => storeThrough i Value.acceptedAsBlock
  | .copyObject => copyBlock i
  | .box =>
    let v ← pop i.offset
    push (.ref (← alloc (← hashOperand m i) v))
  | .unbox => unbox i (← hashOperand m i)
  | .cast => checkedCast i (← hashOperand m i)
  | .new =>
    let args ← popMany i.offset i.argc
    construct (← hashOperand m i) args
  | .call => callInstr m i false
  | .callMethod => callInstr m i true
  | .ret | .retVoid => pure ()
  | .arith op =>
    let rhs ← pop i.offset
    let lhs ← pop i.offset
    push (← MonadExcept.ofExcept (Value.arith op lhs rhs))
  | .neg => push (← MonadExcept.ofExcept (← pop i.offset).negate)
  | .not => push (← MonadExcept.ofExcept (← pop i.offset).complement)
  | .compare op =>
    let rhs ← pop i.offset
    let lhs ← pop i.offset
    push (.bool (← MonadExcept.ofExcept (Value.compare op lhs rhs)))
  | .jump => goto i.operand
  | .jumpIf b => jumpIf i b

/-- Execute an instruction. -/
def execute (m : Method) (i : Instr) : Exec Progress := do
  goto i.next
  match i.op with
  | .ret => leave (← pop i.offset)
  | .retVoid => leave .void
  | _ =>
    effect m i
    return .running

/-- Execute the instruction at the offset of the innermost frame. -/
def step : Exec Progress := do
  let frame ← top
  match frame.method.fetch? frame.offset with
  | some i => execute frame.method i
  | none => throw (.invalidBytecode frame.offset)

end Exec

end StackCode
