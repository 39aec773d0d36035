import StackCode.Machine.Step

/-!
# Running

A machine is a program and a state. The host loads methods and native functions, calls functions,
and looks at heap and static fields. A call from the host runs step by step until its frame is left
or a fault occurs; either way the frames of the call are gone afterwards. Runs are counted: `none`
says that a run did not end within the given number of steps.
-/

namespace StackCode

/-- Run a computation. -/
def Exec.exec {α : Type} (x : Exec α) (p : Program) (s : State) : Except Fault α × State :=
  (x.run p).run.run s

/-- At most `fuel` steps, until a result reaches the host or a fault occurs. -/
def Exec.run (p : Program) : (fuel : Nat) → State → Option (Except Fault Value × State)
  | 0, _ => none
  | fuel + 1, s =>
    match Exec.step.exec p s with
    | (.ok .running, s) => run p fuel s
    | (.ok (.done v), s) => some (.ok v, s)
    | (.error e, s) => some (.error e, s)

/-- A program with the state of its run. -/
structure Machine where
  program : Program
  state : State
  deriving Inhabited

namespace Machine

/-- The call depth that a machine allows unless told otherwise. -/
def defaultMaxDepth : Nat := 256

/-- A machine over a registry, with nothing loaded. -/
def start (registry : Registry) (maxDepth : Nat) : Machine :=
  ⟨⟨registry, ∅, ∅, maxDepth⟩, .initial⟩

/-- Change the program. -/
def onProgram (m : Machine) (f : Program → Program) : Machine := { m with program := f m.program }

/-- Make a method callable. -/
def loadMethod (m : Machine) (method : Method) : Machine :=
  m.onProgram fun p => { p with methods := p.methods.insert method.function.hash method }

/-- Make the methods of a type callable, and keep its captured values. -/
def loadType (m : Machine) (t : BuiltType) : Machine :=
  { program :=
      { m.program with
        methods := t.methods.foldl (fun ms e => ms.insert e.1 e.2) m.program.methods }
    state :=
      { m.state with
        captured := m.state.captured.insert t.type (t.captured.map Value.lit).toArray } }

/-- Make a native function callable; it takes precedence over a method. -/
def registerNative (m : Machine) (function : TypeHash) (native : Native) : Machine :=
  m.onProgram fun p => { p with natives := p.natives.insert function native }

/-- Run a computation on the state of a machine. -/
def exec {α : Type} (m : Machine) (x : Exec α) : Except Fault α × Machine :=
  let (r, state) := x.exec m.program m.state
  (r, { m with state })

/-- The state without the frames above the first `depth`. -/
def unwind (depth : Nat) (s : State) : State :=
  { s with frames := s.frames.drop (s.frames.length - depth) }

/-- Call a function with its arguments, a receiver first, for at most `fuel` steps. -/
def invoke (m : Machine) (fuel : Nat) (function : TypeHash) (args : List Value) :
    Option (Except Fault Value × Machine) :=
  match m.program.natives[function]? with
  | some native => some (m.exec (Exec.callNative native args))
  | none =>
    match (Exec.enter function args .host).exec m.program m.state with
    | (.error e, state) => some (.error e, { m with state })
    | (.ok (), state) =>
      (Exec.run m.program fuel state).map fun (r, state) =>
        (r, { m with state := unwind m.state.depth state })

/-- Allocate a cell that holds a value; its address is returned. -/
def allocCell (m : Machine) (type : TypeHash) (value : Value) : Value × Machine :=
  let (id, heap) := m.state.heap.alloc type value
  (.address (.ofRoot (.heap id)), { m with state := { m.state with heap } })

/-- The value at an address. -/
def read (m : Machine) (a : Address) : Except Fault Value × Machine := m.exec (Exec.fetch a)

/-- Put a value at an address. -/
def write (m : Machine) (a : Address) (v : Value) : Except Fault Unit × Machine :=
  m.exec (Exec.store a v)

/-- The value of a static field. -/
def staticValue (m : Machine) (field : TypeHash) : Except Fault Value × Machine :=
  m.read (.ofRoot (.static field))

/-- A fresh instance of a type. -/
def instantiate (m : Machine) (type : TypeHash) : Except Fault Value × Machine :=
  m.exec (Exec.instantiate type)

/-- Replace the value of a heap object. -/
def setObject (m : Machine) (id : ObjectId) (v : Value) : Except Fault Unit × Machine :=
  match m.state.heap.get id with
  | .error e => (.error e, m)
  | .ok _ => (.ok (), { m with state := { m.state with heap := m.state.heap.setValue id v } })

/-- The sizes of a machine as text. -/
def text (m : Machine) : String :=
  s!"Machine \x7b methods: {m.program.methods.size}, natives: {m.program.natives.size}, " ++
    s!"heap: {m.state.heap.size}, depth: {m.state.depth} \x7d"

end Machine

end StackCode
