import StackCode.Code.Constant
import StackCode.Code.Label

/-!
# The emitter

The code of one body together with its constants, its labels and the current source line. The
emitter chooses between narrow and wide operands. An operation that fails may already have added a
constant; code and labels can be taken back to a checkpoint.
-/

namespace StackCode

/-- A body under construction: code, constants, labels, and the line of what comes next. -/
structure Emitter where
  chunk : Chunk
  constants : Pool
  labels : LabelTable
  line : Nat
  deriving Inhabited

/-- A place in the code to which an emitter can go back. -/
structure Checkpoint where
  offset : Nat
  marks : Nat
  deriving DecidableEq, Repr, Inhabited

/-- Operations on an emitter. A failure keeps the emitter as it is when the failure occurs. -/
abbrev Emitting := ExceptT EmitError (StateM Emitter)

namespace Emitter

/-- The emitter of an empty body. -/
def start (context : ContextId) (line : Nat) : Emitter := ⟨.empty, .empty, .empty context, line⟩

/-- The length of the code. -/
def offset (e : Emitter) : Nat := e.chunk.size

/-- Change the code. -/
def onChunk (f : Chunk → Nat → Chunk) : Emitting Unit :=
  modify fun e => { e with chunk := f e.chunk e.line }

/-- Set the source line of what comes next. -/
def setLine (line : Nat) : Emitting Unit := modify fun e => { e with line }

/-! ### Instructions -/

/-- Append an opcode without operands. -/
def emit (op : Opcode) : Emitting Unit := onChunk fun c line => c.writeOp op line

/-- Append an opcode with a one-byte operand. -/
def emitByte (op : Opcode) (operand : UInt8) : Emitting Unit :=
  onChunk fun c line => (c.writeOp op line).writeByte operand line

/-- Append an opcode with a two-byte operand. -/
def emit16 (op : Opcode) (operand : UInt16) : Emitting Unit :=
  onChunk fun c line => (c.writeOp op line).write16 operand line

/-- Add a constant to the pool. -/
def addConstant (c : Constant) : Emitting Nat :=
  modifyGet fun e =>
    let (i, constants) := e.constants.add c
    (i, { e with constants })

/-- The two-byte operand for an index of the pool. -/
def poolOperand (i : Nat) : Emitting UInt16 :=
  if i < 65536 then pure (UInt16.ofNat i) else throw (.invalidOperand (.constantIndex i))

/-- Push a literal. The null reference and the truth values have opcodes of their own. -/
def emitLiteral : Literal → Emitting Unit
  | .null => emit .pushNull
  | .bool b => emit (.pushBool b)
  | l => do
    let i ← addConstant (.literal l)
    if i < 256 then emitByte (.constant false) (UInt8.ofNat i)
    else emit16 (.constant true) (← poolOperand i)

/-- Append an opcode whose operand is a hash. -/
def emitHash (op : Opcode) (h : TypeHash) : Emitting Unit := do
  let i ← addConstant (.hash h)
  emit16 op (← poolOperand i)

/-- Append a call of a function with a number of arguments. -/
def emitCall (op : Opcode) (function : TypeHash) (argc : Nat) : Emitting Unit := do
  if 255 < argc then throw (.invalidOperand (.argumentCount argc))
  emitHash op function
  onChunk fun c line => c.writeByte (UInt8.ofNat argc) line

/-- Append an access to a slot, in the narrow form if the slot number has one byte. -/
def emitLocal (narrow wide : Opcode) (slot : UInt16) : Emitting Unit :=
  if slot.toNat < 256 then emitByte narrow (UInt8.ofNat slot.toNat) else emit16 wide slot

/-! ### Labels -/

/-- A new label. -/
def defineLabel : Emitting Label :=
  modifyGet fun e =>
    let (l, labels) := e.labels.define
    (l, { e with labels })

/-- Change labels and code together. -/
def onLabels (f : LabelTable → Chunk → Nat → Except EmitError Unit × LabelTable × Chunk) :
    Emitting Unit :=
  ExceptT.mk (modifyGet fun e =>
    let (r, labels, chunk) := f e.labels e.chunk e.line
    (r, { e with labels, chunk }))

/-- Mark a label at the current end of the code. -/
def markLabel (l : Label) : Emitting Unit := onLabels fun t c _ => t.mark l c

/-- Append a jump to a label. -/
def emitJump (op : Opcode) (l : Label) : Emitting Unit :=
  onLabels fun t c line => t.jump op l c line

/-! ### Going back -/

/-- The current place in the code. -/
def checkpoint (e : Emitter) : Checkpoint := ⟨e.chunk.size, e.labels.markCount⟩

/-- Drop code, marks and fix-ups that came after a checkpoint. Constants stay. -/
def rollback (e : Emitter) (k : Checkpoint) : Emitter :=
  { e with chunk := e.chunk.truncate k.offset, labels := e.labels.rollback k.offset k.marks }

end Emitter

end StackCode
