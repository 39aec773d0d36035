import StackCode.Proofs.Outcome
import Mathlib.Logic.Relation

/-!
# Sessions

A session is a context with what its user holds: the symbols, labels and scopes that the context has
handed out. The user performs operations one after the other, any of which may fail. An operation
can be given what the user holds, or what belongs to other contexts; nothing can be made up.
-/

namespace StackCode

/-- The ways of making a symbol from others without touching the body. -/
inductive Factory
  | argument (index : Nat)
  | this
  | literal (value : Literal)
  | field (holder : Symbol) (name : String)
  | staticField (owner : TypeHash) (name : String)
  | element (array index : Symbol)
  | captured (id : CapturedId)
  | binary (op : BinaryOp) (lhs rhs : Symbol)
  | unary (op : UnaryOp) (operand : Symbol)
  | call (function : TypeHash) (receiver : Option Symbol) (args : List Symbol)
  | construct (function : TypeHash) (args : List Symbol)
  | newArray (type : TypeHash) (length : Symbol)
  | arrayLength (array : Symbol)
  | convert (source : Symbol) (target : DataType)

namespace Factory

/-- What a factory makes in a context. -/
def make (c : Setting) : Factory → Except EmitError Symbol
  | .argument index => c.argument index
  | .this => c.this
  | .literal l => .ok (c.literal l)
  | .field holder name => c.field holder name
  | .staticField owner name => c.staticField owner name
  | .element array index => c.element array index
  | .captured id => c.captured id
  | .binary op lhs rhs => c.binary op lhs rhs
  | .unary op operand => c.unary op operand
  | .call function receiver args => c.call function receiver args
  | .construct function args => c.construct function args
  | .newArray type length => c.newArray type length
  | .arrayLength array => c.arrayLength array
  | .convert source target => c.convert source target

/-- The symbols that the new one is made of. -/
def parts : Factory → List Symbol
  | .argument _ | .this | .literal _ | .staticField _ _ | .captured _ => []
  | .field s _ | .unary _ s | .newArray _ s | .arrayLength s | .convert s _ => [s]
  | .element s s' | .binary _ s s' => [s, s']
  | .call _ receiver args => receiver.toList ++ args
  | .construct _ args => args

end Factory

/-- What a user can do with a context. -/
inductive Operation
  | make (factory : Factory)
  | declare (type : DataType)
  | load (s : Symbol) (intent : LoadIntent)
  | assign (dest source : Symbol)
  | assignStackMediated (dest source : Symbol)
  | statement (s : Symbol)
  | returnValue (value : Option Symbol)
  | defineLabel
  | markLabel (l : Label)
  | jump (l : Label)
  | openScope (kind : ScopeKind) (condition : Option Symbol)
  | closeScope (h : ScopeHandle)
  | breakScope (h : ScopeHandle)
  | continueLoop (h : ScopeHandle)
  | breakIfFalse (h : ScopeHandle) (condition : Symbol)
  | acquireTemporary (type : DataType)
  | release
  | setLine (line : Nat)

/-- What a user gets. -/
inductive Answer
  | done
  | symbol (s : Symbol)
  | label (l : Label)
  | scope (h : ScopeHandle)
  | slot (number : UInt16)

namespace Operation

/-- What an operation does with the body of a context. -/
def emission : Operation → Emission Answer
  | .make f => do return .symbol (← Emission.checking f.make)
  | .declare type => do return .symbol (← Emission.declareVariable type)
  | .load s intent => do Emission.load s intent; return .done
  | .assign dest source => do Emission.assign dest source; return .done
  | .assignStackMediated dest source => do
    Emission.assignStackMediated dest source
    return .done
  | .statement s => do Emission.statement s; return .done
  | .returnValue value => do Emission.returnValue value; return .done
  | .defineLabel => do return .label (← Emission.defineLabel)
  | .markLabel l => do Emission.markLabel l; return .done
  | .jump l => do Emission.jump l; return .done
  | .openScope kind condition => do return .scope (← Emission.openScope kind condition)
  | .closeScope h => do Emission.closeScope h; return .done
  | .breakScope h => do Emission.breakScope h; return .done
  | .continueLoop h => do Emission.continueLoop h; return .done
  | .breakIfFalse h condition => do Emission.breakIfFalse h condition; return .done
  | .acquireTemporary type => do return .slot (← Emission.acquireTemporary type)
  | .release => do Emission.release; return .done
  | .setLine line => do Emission.onEmitter (Emitter.setLine line); return .done

/-- The symbols that the operation is given. -/
def symbols : Operation → List Symbol
  | .make f => f.parts
  | .load s _ | .statement s | .breakIfFalse _ s => [s]
  | .assign dest source | .assignStackMediated dest source => [dest, source]
  | .returnValue s | .openScope _ s => s.toList
  | _ => []

/-- The labels that the operation is given. -/
def labels : Operation → List Label
  | .markLabel l | .jump l => [l]
  | _ => []

/-- The scopes that the operation is given. -/
def scopes : Operation → List ScopeHandle
  | .closeScope h | .breakScope h | .continueLoop h | .breakIfFalse h _ => [h]
  | _ => []

end Operation

/-- A context with what its user holds. -/
structure Session where
  context : Context
  symbols : List Symbol
  labels : List Label
  scopes : List ScopeHandle

namespace Session

/-- The session of a new context. -/
def start (id : ContextId) (registry : Registry) (function : FunctionDecl) (options : EmitOptions) :
    Session :=
  ⟨.start id registry function options, [], [], []⟩

/-- What is fixed about the context. -/
def setting (s : Session) : Setting := s.context.setting

/-- The body that the context works on. -/
def body (s : Session) : Body := s.context.body

/-- Keep what the context hands out. -/
def keep (s : Session) : Answer → Session
  | .symbol x => { s with symbols := x :: s.symbols }
  | .label l => { s with labels := l :: s.labels }
  | .scope h => { s with scopes := h :: s.scopes }
  | .done | .slot _ => s

/-- The operation is performed; what the context hands out is kept. -/
def perform (s : Session) (op : Operation) : Except EmitError Answer × Session :=
  match s.context.run op.emission with
  | (.ok a, context) => (.ok a, { s with context }.keep a)
  | (.error e, context) => (.error e, { s with context })

/-- The operation is given what the user holds, or what belongs to other contexts. -/
structure Permits (s : Session) (op : Operation) : Prop where
  symbols : ∀ x ∈ op.symbols, x ∈ s.symbols ∨ x.context ≠ s.setting.id
  labels : ∀ l ∈ op.labels, l ∈ s.labels ∨ l.context ≠ s.setting.id
  scopes : ∀ h ∈ op.scopes, h ∈ s.scopes ∨ h.context ≠ s.setting.id

/-- One step of a session whose user keeps to a rule. -/
def Step (rule : Operation → Prop) (s s' : Session) : Prop :=
  ∃ op, s.Permits op ∧ rule op ∧ s' = (s.perform op).2

/-- Steps one after the other. -/
abbrev Steps (rule : Operation → Prop) : Session → Session → Prop :=
  Relation.ReflTransGen (Step rule)

/-- The session after operations one after the other. -/
def performAll (s : Session) : List Operation → Session
  | [] => s
  | op :: ops => (s.perform op).2.performAll ops

/-- Each operation is permitted when its turn comes. -/
def PermitsAll (s : Session) : List Operation → Prop
  | [] => True
  | op :: ops => s.Permits op ∧ (s.perform op).2.PermitsAll ops

/-- An operation that is given held symbols, by their numbers, the last one handed out being 0. -/
theorem Permits.of_numbers {s : Session} {op : Operation} (ns : List Nat)
    (hsyms : op.symbols.map some = ns.map fun n => s.symbols[n]?)
    (hlabels : op.labels = [] := by rfl) (hscopes : op.scopes = [] := by rfl) : s.Permits op where
  symbols x hx := by
    obtain ⟨n, -, hn⟩ := List.mem_map.mp (hsyms ▸ List.mem_map_of_mem hx)
    exact .inl (List.mem_of_getElem? hn)
  labels := by simp [hlabels]
  scopes := by simp [hscopes]

theorem steps_performAll {rule : Operation → Prop} {s : Session} {ops : List Operation}
    (hpermit : s.PermitsAll ops) (hrule : ∀ op ∈ ops, rule op) :
    Steps rule s (s.performAll ops) := by
  induction ops generalizing s with
  | nil => exact .refl
  | cons op ops ih =>
    obtain ⟨hop, hops⟩ := hpermit
    obtain ⟨hrule, hrules⟩ := List.forall_mem_cons.mp hrule
    exact .head ⟨op, hop, hrule, rfl⟩ (ih hops hrules)

theorem outcome_load (x : Symbol) (intent : LoadIntent) (c : Setting) (b : Body) :
    (Operation.load x intent).emission.outcome c b = match (Emission.load x intent).outcome c b with
      | (.ok _, b') => (.ok .done, b')
      | (.error e, b') => (.error e, b') := by
  have hload : (Operation.load x intent).emission.outcome c b =
      (Emission.load x intent >>= fun _ => pure Answer.done).outcome c b := rfl
  rw [hload, Emission.outcome_bind]
  rcases (Emission.load x intent).outcome c b with ⟨_ | _, _⟩ <;> rfl

/-- What an operation answers and leaves, in terms of the body. -/
theorem perform_eq (s : Session) (op : Operation) :
    s.perform op = match op.emission.outcome s.setting s.body with
      | (.ok a, b) => (.ok a, { s with context := ⟨s.setting, b⟩ }.keep a)
      | (.error e, b) => (.error e, { s with context := ⟨s.setting, b⟩ }) := by
  have hrun : s.context.run op.emission =
      ((op.emission.outcome s.setting s.body).1,
        ⟨s.setting, (op.emission.outcome s.setting s.body).2⟩) :=
    rfl
  rw [perform, hrun]
  rcases op.emission.outcome s.setting s.body with ⟨_ | _, _⟩ <;> rfl

end Session

end StackCode
