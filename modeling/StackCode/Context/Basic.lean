import StackCode.Code.Emitter
import StackCode.Symbol

/-!
# Contexts

A context is one method body under construction. Its setting is fixed: the registry, the function,
the options. Its body grows: code, local slots, temporaries, open scopes. An operation that is run
`atomically` leaves no trace in the body when it fails, constants apart.

Temporaries are local slots for intermediate values. They are live until the statement ends; then
they go back to the pool, and a later statement takes the one released last of the type it needs.
-/

namespace StackCode

/-- Options of a context. -/
structure EmitOptions where
  reuseTemporaries : Bool
  maxLocals : UInt16
  initialLine : Nat
  deriving DecidableEq, Repr, Inhabited

/-- Temporaries are used again, slots are limited by their encoding only, lines start at one. -/
def EmitOptions.default : EmitOptions := ⟨true, 65535, 1⟩

/-- What stays fixed while a body is built. -/
structure Setting where
  id : ContextId
  registry : Registry
  function : FunctionDecl
  options : EmitOptions
  deriving Inhabited

/-- A scope that has not been closed: its number, its sort, and the labels at its two ends. -/
structure OpenScope where
  id : Nat
  kind : ScopeKind
  entry : Label
  exit : Label
  deriving DecidableEq, Repr, Inhabited

/-- The open scopes, innermost first, and for every scope ever opened whether it is closed. -/
structure ScopeStack where
  opened : List OpenScope
  closed : Array Bool
  deriving DecidableEq, Repr, Inhabited

/-- A temporary: a local slot with the type it was declared with. -/
structure Temporary where
  type : DataType
  slot : UInt16
  deriving DecidableEq, Repr, Inhabited

/-- What grows while a body is built. The latest temporary comes first, live or pooled. -/
structure Body where
  emitter : Emitter
  locals : Array DataType
  pooled : List Temporary
  live : List Temporary
  scopes : ScopeStack
  deriving Inhabited

/-- A method body under construction. -/
structure Context where
  setting : Setting
  body : Body
  deriving Inhabited

/-- Operations on a body. A failure keeps the body as it is when the failure occurs. -/
abbrev Emission := ReaderT Setting (ExceptT EmitError (StateM Body))

namespace Body

/-- The empty body of a setting. -/
def start (c : Setting) : Body where
  emitter := .start c.id c.options.initialLine
  locals := #[]
  pooled := []
  live := []
  scopes := ⟨[], #[]⟩

/-- Everything that a failed operation takes back. -/
structure Savepoint where
  code : Checkpoint
  locals : Nat
  live : Nat
  pooled : List Temporary

/-- The current place, to go back to. -/
def savepoint (b : Body) : Savepoint :=
  ⟨b.emitter.checkpoint, b.locals.size, b.live.length, b.pooled⟩

/-- Go back to a place. -/
def restore (b : Body) (k : Savepoint) : Body :=
  { b with
    emitter := b.emitter.rollback k.code
    locals := b.locals.take k.locals
    live := b.live.drop (b.live.length - k.live)
    pooled := k.pooled }

/-- End a statement: its temporaries go back to the pool if they may be used again. -/
def release (b : Body) (options : EmitOptions) : Body :=
  { b with
    live := []
    pooled := if options.reuseTemporaries then b.live ++ b.pooled else b.pooled }

/-- Take the temporary of a type that was released last. -/
def takePooled (type : DataType) : List Temporary → Option (Temporary × List Temporary)
  | [] => none
  | t :: ts =>
    if t.type = type then some (t, ts)
    else (takePooled type ts).map fun (found, rest) => (found, t :: rest)

end Body

namespace Setting

/-- Refuse what belongs to another context. -/
def check (c : Setting) (other : ContextId) : Except EmitError Unit :=
  if other = c.id then .ok () else .error (.crossContext c.id other)

/-- Refuse a symbol of another context. -/
def checkSymbol (c : Setting) (s : Symbol) : Except EmitError Unit := c.check s.context

/-- Whether the body has a receiver. -/
def isInstance (c : Setting) : Bool := !c.function.isStatic

end Setting

namespace Emission

/-- Run an operation on the emitter of the body. -/
def onEmitter {α : Type} (x : Emitting α) : Emission α := fun _ =>
  ExceptT.mk fun b =>
    match b with
    | ⟨emitter, locals, pooled, live, scopes⟩ =>
      let (r, emitter) := x.run.run emitter
      (r, ⟨emitter, locals, pooled, live, scopes⟩)

/-- Run a check that depends on the setting only. -/
def checking {α : Type} (f : Setting → Except EmitError α) : Emission α := do
  MonadExcept.ofExcept (f (← read))

/-- Take everything back if the operation fails, constants apart. -/
def atomically {α : Type} (x : Emission α) : Emission α := fun c =>
  ExceptT.mk fun b =>
    let k := b.savepoint
    match (x c).run.run b with
    | (.ok a, b) => (.ok a, b)
    | (.error e, b) => (.error e, b.restore k)

/-- End the statement after the operation, whether it fails or not. -/
def releasing {α : Type} (x : Emission α) : Emission α := fun c =>
  ExceptT.mk fun b =>
    let (r, b) := (x c).run.run b
    (r, b.release c.options)

/-- End the statement. -/
def release : Emission Unit := do
  let c ← read
  modify fun b => b.release c.options

/-- Declare a local slot. -/
def declareLocal (type : DataType) : Emission UInt16 := do
  let limit := (← read).options.maxLocals
  let slot := (← get).locals.size
  if limit.toNat ≤ slot then throw (.tooManyLocals limit.toNat)
  modify fun b => { b with locals := b.locals.push type }
  pure (UInt16.ofNat slot)

/-- A temporary of a type, live from now on: a pooled one if there is one, or else a new slot. -/
def acquireTemporary (type : DataType) : Emission UInt16 := do
  let reuse := (← read).options.reuseTemporaries
  let pooled := (← get).pooled
  match if reuse then Body.takePooled type pooled else none with
  | some (t, rest) =>
    modify fun b => { b with pooled := rest, live := t :: b.live }
    pure t.slot
  | none =>
    let slot ← declareLocal type
    modify fun b => { b with live := ⟨type, slot⟩ :: b.live }
    pure slot

/-- Append an access to a local slot. -/
def accessLocal (access : Access) (slot : UInt16) : Emission Unit :=
  onEmitter (Emitter.emitLocal (.localSlot false access) (.localSlot true access) slot)

end Emission

namespace Context

/-- The context of a function. -/
def start (id : ContextId) (registry : Registry) (function : FunctionDecl)
    (options : EmitOptions) : Context :=
  let setting : Setting := ⟨id, registry, function, options⟩
  ⟨setting, .start setting⟩

/-- Run an operation on the body. -/
def run {α : Type} (c : Context) (x : Emission α) : Except EmitError α × Context :=
  match c with
  | ⟨setting, body⟩ =>
    let (r, body) := (x setting).run.run body
    (r, ⟨setting, body⟩)

/-- The code emitted so far. -/
def chunk (c : Context) : Chunk := c.body.emitter.chunk

end Context

end StackCode
