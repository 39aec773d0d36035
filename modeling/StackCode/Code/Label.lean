import StackCode.Code.Chunk
import StackCode.Error

/-!
# Labels

Targets of jumps inside one body. A jump to a marked label is written with its target; a jump to an
unmarked label is written without one and noted as a fix-up of the label, to be patched when the
label is marked. Marks and fix-ups can be taken back together with the code they belong to.

Operations that can fail return the table and the chunk as the failure leaves them.
-/

namespace StackCode

/-- A label of a context. -/
structure Label where
  context : ContextId
  index : Nat
  deriving DecidableEq, Repr, Inhabited

/-- Where a label is marked, and the operands of the jumps that were written before it was. -/
structure LabelState where
  position : Option UInt32
  fixups : List Nat
  deriving DecidableEq, Repr, Inhabited

/-- The labels of a context, and the marked ones among them, the latest mark first. -/
structure LabelTable where
  context : ContextId
  labels : Array LabelState
  marked : List Nat
  deriving DecidableEq, Repr, Inhabited

namespace LabelTable

/-- The table without labels. -/
def empty (context : ContextId) : LabelTable := ⟨context, #[], []⟩

/-- A new label, not marked yet. -/
def define (t : LabelTable) : Label × LabelTable :=
  (⟨t.context, t.labels.size⟩, { t with labels := t.labels.push ⟨none, []⟩ })

/-- The state of a label of this table. -/
def state (t : LabelTable) (l : Label) : Except EmitError LabelState :=
  if l.context ≠ t.context then .error (.crossContext t.context l.context)
  else
    match t.labels[l.index]? with
    | some s => .ok s
    | none => .error (.labelMisuse (.unknownLabel l.index))

/-- Where a label is marked. -/
def position (t : LabelTable) (l : Label) : Except EmitError (Option UInt32) :=
  (t.state l).map LabelState.position

/-- Write `target` over the operands at the given offsets, up to the first that lies outside. -/
def patchAll (target : UInt32) : List Nat → Chunk → Except EmitError Unit × Chunk
  | [], c => (.ok (), c)
  | offset :: rest, c =>
    match c.patch32? offset target with
    | some c => patchAll target rest c
    | none => (.error (.labelMisuse (.operandOutside offset)), c)

/-- Mark a label at the end of the chunk and fill in the jumps that wait for it. -/
def mark (t : LabelTable) (l : Label) (c : Chunk) : Except EmitError Unit × LabelTable × Chunk :=
  match t.state l with
  | .error e => (.error e, t, c)
  | .ok s =>
    if s.position.isSome then (.error (.labelMisuse (.markedTwice l.index)), t, c)
    else if 4294967296 ≤ c.size then (.error (.invalidOperand (.jumpTarget c.size)), t, c)
    else
      let target := UInt32.ofNat c.size
      match patchAll target s.fixups c with
      | (.error e, c) => (.error e, t, c)
      | (.ok (), c) =>
        let labels := t.labels.setIfInBounds l.index { s with position := some target }
        (.ok (), { t with labels, marked := l.index :: t.marked }, c)

/-- Append a jump to a label. -/
def jump (t : LabelTable) (op : Opcode) (l : Label) (c : Chunk) (line : Nat) :
    Except EmitError Unit × LabelTable × Chunk :=
  match t.state l with
  | .error e => (.error e, t, c)
  | .ok s =>
    match s.position with
    | some target => (.ok (), t, (c.writeOp op line).write32 target line)
    | none =>
      let (operand, c) := c.writeJump op line
      let labels := t.labels.setIfInBounds l.index { s with fixups := s.fixups ++ [operand] }
      (.ok (), { t with labels }, c)

/-- Whether some label is marked at the offset or behind it. -/
def hasTargetAt (t : LabelTable) (offset : Nat) : Bool :=
  t.labels.any fun s => s.position.any fun p => decide (offset ≤ p.toNat)

/-- The number of labels that jumps wait for. -/
def unresolved (t : LabelTable) : Nat :=
  (t.labels.filter fun s => s.position.isNone && !s.fixups.isEmpty).size

/-- The number of marked labels. -/
def markCount (t : LabelTable) : Nat := t.marked.length

/-- Take back the mark of a label. -/
def unmark (labels : Array LabelState) (index : Nat) : Array LabelState :=
  labels.modify index fun s => { s with position := none }

/-- Take back all marks but the first `marks`, and forget the fix-ups from `offset` on. -/
def rollback (t : LabelTable) (offset marks : Nat) : LabelTable :=
  let undone := t.marked.length - marks
  let labels := (t.marked.take undone).foldl unmark t.labels
  { t with
    labels := labels.map fun s => { s with fixups := s.fixups.filter fun f => decide (f < offset) }
    marked := t.marked.drop undone }

end LabelTable

end StackCode
