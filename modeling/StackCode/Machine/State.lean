import StackCode.Code.Method
import StackCode.Machine.Native
import StackCode.Registry.Lookup

/-!
# Programs and machine states

A program is everything that stays fixed while code is run: the registry, the methods, the native
functions and the limit on the call depth. A state is everything that changes: the frames of the
calls in progress, the heap, the static fields and the captured values.
-/

namespace StackCode

/-- What stays fixed while code is run. -/
structure Program where
  registry : Registry
  methods : Std.TreeMap TypeHash Method
  natives : Std.TreeMap TypeHash Native
  maxDepth : Nat
  deriving Inhabited

/-- What becomes of the result of a call. -/
inductive Resume
  /-- The host called and gets the result. -/
  | host
  /-- The caller's operand stack gets the result, if there is one. -/
  | caller
  /-- A constructor ran: the caller's operand stack gets the instance. -/
  | built (instance_ : Value)
  /-- A constructor filled a cell: the caller's operand stack gets its content. -/
  | cell (object : ObjectId)
  deriving DecidableEq, Repr, Inhabited

/-- A call in progress. The operand stack has its top first. -/
structure Frame where
  method : Method
  args : Array Value
  locals : Array Value
  stack : List Value
  offset : Nat
  resume : Resume
  deriving Inhabited

/-- What changes while code is run. The innermost frame comes first. -/
structure State where
  frames : List Frame
  heap : Heap
  statics : Std.TreeMap TypeHash Value
  captured : Std.TreeMap TypeHash (Array Value)
  deriving Inhabited

/-- Computations on a state under a program. A fault keeps the state as it is when it occurs. -/
abbrev Exec := ReaderT Program (ExceptT Fault (StateM State))

namespace State

/-- The state in which nothing has happened yet. -/
def initial : State := ⟨[], .empty, ∅, ∅⟩

/-- The number of calls in progress. -/
def depth (s : State) : Nat := s.frames.length

/-- The frame with a number, counted from the outermost. -/
def frame? (s : State) (n : Nat) : Option Frame :=
  if n < s.depth then s.frames[s.depth - 1 - n]? else none

/-- Change the frame with a number. -/
def modifyFrame (s : State) (n : Nat) (f : Frame → Frame) : State :=
  if n < s.depth then { s with frames := s.frames.modify (s.depth - 1 - n) f } else s

/-- Change the innermost frame. -/
def modifyTop (s : State) (f : Frame → Frame) : State :=
  match s.frames with
  | [] => s
  | top :: rest => { s with frames := f top :: rest }

end State

namespace Exec

/-- The innermost frame. -/
def top : Exec Frame := do
  match (← get).frames with
  | f :: _ => pure f
  | [] => throw (.invalidBytecode 0)

/-- The number of the innermost frame. -/
def level : Exec Nat := return (← get).depth - 1

/-- Push a value. -/
def push (v : Value) : Exec Unit :=
  modify fun s => s.modifyTop fun f => { f with stack := v :: f.stack }

/-- Pop a value, for the instruction at an offset. -/
def pop (offset : Nat) : Exec Value := do
  match (← top).stack with
  | v :: rest =>
    modify fun s => s.modifyTop fun f => { f with stack := rest }
    pure v
  | [] => throw (.stackUnderflow offset)

/-- Pop an address. -/
def popAddress (offset : Nat) : Exec Address := do
  match ← pop offset with
  | .address a => pure a
  | v => throw (.mismatch "address" v)

/-- Pop a number of values; the first of them is the lowest. -/
def popMany (offset count : Nat) : Exec (List Value) := do
  let stack := (← top).stack
  if stack.length < count then throw (.stackUnderflow offset)
  modify fun s => s.modifyTop fun f => { f with stack := f.stack.drop count }
  pure (stack.take count).reverse

/-- Continue at an offset. -/
def goto (offset : Nat) : Exec Unit := modify fun s => s.modifyTop fun f => { f with offset }

/-- Allocate a heap object. -/
def alloc (type : TypeHash) (value : Value) : Exec ObjectId :=
  modifyGet fun s =>
    let (id, heap) := s.heap.alloc type value
    (id, { s with heap })

/-- The heap object with an identity. -/
def object (id : ObjectId) : Exec HeapObject := do
  MonadExcept.ofExcept ((← get).heap.get id)

end Exec

end StackCode
