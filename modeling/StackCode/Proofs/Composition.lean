import StackCode.Proofs.Scopes

/-!
# Properties of composed operations

The code of symbols is emitted by small operations one after the other: checks, instructions,
temporaries that are acquired. A relation between operations that holds of these and is kept by
sequencing holds between the code of a symbol and itself, whatever the symbol is made of: the two
runs may be given different slots and labels, but they take the same branches.
-/

namespace StackCode

open Emission

namespace Emission

/-- A relation that holds of the smallest operations and is kept by sequencing. What is read and
what is checked is the same on both sides; slots and labels may differ. -/
structure Composes (P : (α : Type) → Emission α → Emission α → Prop) : Prop where
  pure : ∀ {α : Type} (a a' : α), P α (Pure.pure a) (Pure.pure a')
  throw : ∀ {α : Type} (e : EmitError), P α (MonadExcept.throw e) (MonadExcept.throw e)
  bind : ∀ {α β : Type} {x y : Emission α} {f g : α → Emission β}, P α x y →
    (∀ a a', P β (f a) (g a')) → P β (x >>= f) (y >>= g)
  read : ∀ {β : Type} {f g : Setting → Emission β}, (∀ c, P β (f c) (g c)) →
    P β (MonadReader.read >>= f) (MonadReader.read >>= g)
  checking : ∀ {α β : Type} {check : Setting → Except EmitError α} {f g : α → Emission β},
    (∀ a, P β (f a) (g a)) → P β (Emission.checking check >>= f) (Emission.checking check >>= g)
  onEmitter : ∀ {α : Type} (x y : Emitting α), P α (Emission.onEmitter x) (Emission.onEmitter y)
  acquire : ∀ type, P UInt16 (acquireTemporary type) (acquireTemporary type)

namespace Composes

variable {P : (α : Type) → Emission α → Emission α → Prop} (h : Composes P)
include h

theorem indirect (k : Indirect) (op : Opcode) : P Unit (k.emitOp op) (k.emitOp op) := by
  unfold Indirect.emitOp
  cases k <;> exact h.onEmitter _ _

section Load

variable {s : Symbol} {emit : Access → Emission Unit} (hemit : ∀ a, P Unit (emit a) (emit a))
include hemit

theorem loadValue : P Unit (loadValue s emit) (loadValue s emit) := by
  unfold Emission.loadValue
  split
  · exact h.checking fun k => h.bind (hemit .get) fun _ _ => h.indirect k k.loadOp
  · exact hemit .get

theorem loadReference (allow : Bool) :
    P Unit (loadReference s emit allow) (loadReference s emit allow) := by
  refine h.read fun setting => ?_
  dsimp only
  split
  · exact hemit .get
  split
  · exact hemit .address
  split
  · exact h.throw _
  refine h.bind (h.acquire _) fun slot slot' => h.bind (hemit .get) fun _ _ => ?_
  exact h.bind (h.onEmitter _ _) fun _ _ => h.onEmitter _ _

theorem loadBy (intent : LoadIntent) : P Unit (loadBy s emit intent) (loadBy s emit intent) := by
  refine h.checking fun _ => ?_
  cases intent with
  | value => exact h.loadValue hemit
  | reference allow => exact h.loadReference hemit allow
  | callTarget =>
    refine h.read fun setting => ?_
    split
    · exact h.loadReference hemit true
    · exact h.loadValue hemit
  | parameter passing =>
    dsimp only
    split
    · exact h.loadReference hemit true
    · exact h.loadValue hemit

end Load

theorem refuse (s : Symbol) (a : Access) : P Unit (refuse s a) (refuse s a) := by
  cases a with
  | get => exact h.pure () ()
  | set => exact h.read fun _ => h.throw _
  | address => exact h.read fun _ => h.throw _

theorem valued {check : Setting → Except EmitError Unit} {x : Emission Unit} {s : Symbol}
    {a : Access}
    (hx : P Unit x x) : P Unit (do Emission.checking check; Emission.refuse s a; x)
      (do Emission.checking check; Emission.refuse s a; x) :=
  h.checking fun _ => h.bind (h.refuse s a) fun _ _ => hx

theorem conversion (k : ConversionRule) : P Unit (emitConversion k) (emitConversion k) := by
  unfold emitConversion
  cases k with
  | identity => exact h.pure () ()
  | _ => exact h.onEmitter _ _

end Composes

mutual

theorem Composes.access {P : (α : Type) → Emission α → Emission α → Prop} (h : Composes P) :
    (s : Symbol) → (a : Access) → P Unit (emitAccess s a) (emitAccess s a)
  | .localSlot _ _ _, _ | .argument _ _ _, _ | .staticField _ _, _ =>
    h.checking fun _ => h.onEmitter _ _
  | .field _ holder _, _ => by
    refine h.checking fun _ => h.read fun setting => ?_
    have hload := h.loadBy (s := holder) (h.access holder) .callTarget
    dsimp only
    split
    · exact h.throw _
    · exact h.bind hload fun _ _ => h.onEmitter _ _
  | .element _ array index _, _ =>
    h.checking fun _ => h.bind (h.loadBy (h.access array) .value) fun _ _ =>
      h.bind (h.loadBy (h.access index) .value) fun _ _ => h.onEmitter _ _
  | .captured _ _, a => by
    refine h.checking fun _ => ?_
    cases a with
    | set => exact h.refuse _ _
    | _ => exact h.onEmitter _ _
  | .literal _ _, _ => h.valued <| h.onEmitter _ _
  | .binary _ _ lhs rhs _, _ =>
    h.valued <| h.bind (h.loadBy (h.access lhs) .value) fun _ _ =>
      h.bind (h.loadBy (h.access rhs) .value) fun _ _ => h.onEmitter _ _
  | .unary _ _ operand _, _ =>
    h.valued <| h.bind (h.loadBy (h.access operand) .value) fun _ _ => h.onEmitter _ _
  | .call _ f args, _ =>
    h.valued <| h.bind (h.arguments args f.params) fun _ _ => h.onEmitter _ _
  | .callOn _ f receiver args, _ =>
    h.valued <| h.bind (h.loadBy (h.access receiver) .callTarget) fun _ _ =>
      h.bind (h.arguments args f.params) fun _ _ => h.onEmitter _ _
  | .construct _ f _ args, _ =>
    h.valued <| h.bind (h.arguments args f.params) fun _ _ => h.onEmitter _ _
  | .newArray _ _ length, _ =>
    h.valued <| h.bind (h.loadBy (h.access length) .value) fun _ _ => h.onEmitter _ _
  | .arrayLength _ array, _ =>
    h.valued <| h.bind (h.loadBy (h.access array) .value) fun _ _ => h.onEmitter _ _
  | .converted _ source k, _ =>
    h.valued <| h.read fun _ =>
      h.bind (h.loadBy (h.access source) _) fun _ _ => h.conversion k.rule

theorem Composes.arguments {P : (α : Type) → Emission α → Emission α → Prop} (h : Composes P) :
    (args : List Symbol) → (params : List Param) → P Unit (emitArguments args params)
    (emitArguments args params)
  | [], _ => h.pure () ()
  | _ :: _, [] => h.pure () ()
  | arg :: args, p :: ps =>
    h.bind (h.loadBy (h.access arg) (.parameter p.passing)) fun _ _ => h.arguments args ps

end

namespace Composes

variable {P : (α : Type) → Emission α → Emission α → Prop} (h : Composes P)
include h

theorem load (s : Symbol) (intent : LoadIntent) : P Unit (emitLoad s intent) (emitLoad s intent) :=
  h.loadBy (h.access s) intent

theorem copy (dest source : Symbol) (path : CopyPath) :
    P Unit (emitCopy dest source path) (emitCopy dest source path) := by
  cases path with
  | direct =>
    exact h.bind (h.load dest _) fun _ _ => h.bind (h.load source _) fun _ _ => h.onEmitter _ _
  | indirect =>
    exact h.checking fun k => h.bind (h.acquire _) fun _ _ => h.bind (h.acquire _) fun _ _ =>
      h.bind (h.access dest .get) fun _ _ => h.bind (h.onEmitter _ _) fun _ _ =>
      h.bind (h.load source .value) fun _ _ => h.bind (h.onEmitter _ _) fun _ _ =>
      h.bind (h.onEmitter _ _) fun _ _ => h.bind (h.onEmitter _ _) fun _ _ => h.indirect k k.storeOp
  | stack => exact h.bind (h.load source .value) fun _ _ => h.access dest .set

theorem guard (condition : Symbol) (exit exit' : Label) :
    P Unit (emitGuard condition exit) (emitGuard condition exit') :=
  h.bind (h.load condition .value) fun _ _ => h.onEmitter _ _

theorem scopeEntry (kind : ScopeKind) (condition : Option Symbol) :
    P (Label × Label) (scopeEntry kind condition) (scopeEntry kind condition) := by
  refine h.bind (h.onEmitter _ _) fun entry entry' => h.bind (h.onEmitter _ _) fun exit exit' => ?_
  have hmark : P Unit (markLabel entry) (markLabel entry') := h.onEmitter _ _
  have hend : P (Label × Label) (markLabel entry >>= fun _ => Pure.pure (entry, exit))
      (markLabel entry' >>= fun _ => Pure.pure (entry', exit')) :=
    h.bind hmark fun _ _ => h.pure _ _
  cases kind with
  | loop =>
    cases condition with
    | none => exact hend
    | some s => exact h.bind (h.guard s exit exit') fun _ _ => hend
  | branch | block =>
    cases condition with
    | none => exact hend
    | some s => exact h.bind hmark fun _ _ => h.bind (h.guard s exit exit') fun _ _ => h.pure _ _

end Composes

end Emission

end StackCode
