import StackCode.Proofs.Composition

/-!
# What operations do to slots

A body keeps the types of its local slots, a pool of temporaries that may be used again, and the
temporaries of the current statement. What an operation does to them is little: it draws
temporaries, ends a statement, declares a variable. Whatever is asked of a body comes down to these,
also when it fails.
-/

namespace StackCode

open Emission List Body

/-- What a body keeps about its slots. -/
structure Slots where
  locals : Array DataType
  pooled : List Temporary
  live : List Temporary

/-- The slots of a body, with the temporaries among them. -/
def Body.slots (b : Body) : Slots := ⟨b.locals, b.pooled, b.live⟩

namespace Slots

/-- The slots at the end of a statement. -/
def release (s : Slots) (options : EmitOptions) : Slots :=
  ⟨s.locals, if options.reuseTemporaries then s.live ++ s.pooled else s.pooled, []⟩

/-- One more slot. -/
def declare (s : Slots) (type : DataType) : Slots := ⟨s.locals.push type, s.pooled, s.live⟩

/-- One more temporary: from the pool if there is one of the type, or else in a new slot. -/
inductive Draw (options : EmitOptions) (s : Slots) : Slots → Prop
  | again {type t rest} (hreuse : options.reuseTemporaries)
      (htake : Body.takePooled type s.pooled = some (t, rest)) :
      Draw options s ⟨s.locals, rest, t :: s.live⟩
  | fresh {type} (hroom : s.locals.size < options.maxLocals.toNat)
      (hnone : options.reuseTemporaries → Body.takePooled type s.pooled = none) :
      Draw options s ⟨s.locals.push type, s.pooled, ⟨type, .ofNat s.locals.size⟩ :: s.live⟩

/-- Temporaries one after the other. -/
abbrev Draws (options : EmitOptions) : Slots → Slots → Prop := Relation.ReflTransGen (Draw options)

variable {options : EmitOptions} {s m : Slots}

/-- Declared slots stay, and so do the temporaries of the statement. -/
theorem Draws.grows (h : Draws options s m) :
    s.locals.toList <+: m.locals.toList ∧ s.live <:+ m.live := by
  induction h with
  | refl => exact ⟨prefix_refl _, suffix_refl _⟩
  | tail _ hdraw ih =>
    cases hdraw with
    | again => exact ⟨ih.1, ih.2.trans (suffix_cons ..)⟩
    | fresh => exact ⟨ih.1.trans (by simp), ih.2.trans (suffix_cons ..)⟩

end Slots

theorem Body.slots_restore {options : EmitOptions} {b b' : Body}
    (h : Slots.Draws options b.slots b'.slots) : (b'.restore b.savepoint).slots = b.slots := by
  obtain ⟨hlocs, hlive⟩ := h.grows
  have hlocs' : b'.locals.take b.locals.size = b.locals := by
    apply Array.toList_inj.mp
    have htake := prefix_iff_eq_take.mp hlocs
    simpa [slots] using htake.symm
  have hlive' : b'.live.drop (b'.live.length - b.live.length) = b.live :=
    (suffix_iff_eq_drop.mp hlive).symm
  simp [slots, restore, savepoint, hlocs', hlive']

/-! ### Operations draw temporaries -/

namespace Emission

variable {α β γ : Type} {c : Setting}

/-- An operation that leaves the slots alone. -/
def Still (x : Emission α) : Prop := ∀ c b, (x.outcome c b).2.slots = b.slots

theorem still_checking (f : Setting → Except EmitError α) : (checking f).Still :=
  fun c b => by rw [outcome_checking]

theorem Still.bind {x : Emission α} {f : α → Emission β} (hx : x.Still) (hf : ∀ a, (f a).Still) :
    (x >>= f).Still := by
  intro c b
  have hb := hx c b
  rw [outcome_bind]
  rcases hout : x.outcome c b with ⟨e | a, m⟩
  · rwa [hout] at hb
  · rw [hout] at hb
    exact (hf a c m).trans hb

theorem still_findScope (h : ScopeHandle) : (findScope h).Still := by
  refine (still_checking _).bind fun _ => Still.bind (fun _ _ => rfl) fun b c b' => ?_
  rw [outcome_ofExcept]

theorem still_closeScope (h : ScopeHandle) : (closeScope h).Still := by
  refine (still_findScope h).bind fun scope => Still.bind (fun _ _ => rfl) fun b => ?_
  have hrest : (do
      markLabel scope.exit
      modify fun b => { b with scopes := b.scopes.pop h.id } : Emission Unit).Still :=
    Still.bind (fun _ _ => rfl) fun _ _ _ => rfl
  dsimp only
  split
  · exact fun _ _ => rfl
  · cases scope.kind with
    | branch => exact hrest
    | _ => exact Still.bind (fun _ _ => rfl) fun _ => hrest

theorem still_continueLoop (h : ScopeHandle) : (continueLoop h).Still := by
  refine (still_findScope h).bind fun scope => ?_
  split <;> exact fun _ _ => rfl

/-- A relation that also holds of what leaves the slots alone and is kept by taking back
failures. -/
structure Covers (P : (α : Type) → Emission α → Emission α → Prop) : Prop extends Composes P where
  still : ∀ {α : Type} {x y : Emission α}, x.Still → y.Still → P α x y
  atomically : ∀ {α : Type} {x y : Emission α}, P α x y →
    P α (Emission.atomically x) (Emission.atomically y)

/-- Whatever becomes of an operation, all that it does to the slots is to draw temporaries. -/
def Draws (c : Setting) (x : Emission α) : Prop :=
  ∀ b : Body, Slots.Draws c.options b.slots (x.outcome c b).2.slots

theorem Still.draws {x : Emission α} (h : x.Still) : x.Draws c := fun b => by rw [h c b]

theorem Draws.bind {x : Emission α} {f : α → Emission β} (hx : x.Draws c)
    (hf : ∀ a, (f a).Draws c) : (x >>= f).Draws c := by
  intro b
  have hb := hx b
  rw [outcome_bind]
  rcases hout : x.outcome c b with ⟨e | a, b'⟩
  · rwa [hout] at hb
  · rw [hout] at hb
    exact hb.trans (hf a b')

theorem draws_acquireTemporary (type : DataType) : (acquireTemporary type).Draws c := by
  intro b
  rw [outcome_acquireTemporary]
  split
  · rename_i t rest htake
    split at htake
    · rename_i hreuse
      exact .single (.again hreuse htake)
    · cases htake
  · rename_i hnone
    by_cases hfull : c.options.maxLocals.toNat ≤ b.locals.size
    · rw [if_pos hfull]
    · rw [if_neg hfull]
      refine .single (.fresh (Nat.lt_of_not_le hfull) fun hreuse => ?_)
      rwa [if_pos hreuse] at hnone

theorem live_acquireTemporary {type : DataType} {b m : Body} {slot : UInt16}
    (h : (acquireTemporary type).outcome c b = (.ok slot, m)) :
    m.live = ⟨type, slot⟩ :: b.live := by
  rw [outcome_acquireTemporary] at h
  split at h
  · rename_i t rest htake
    cases h
    split at htake
    · obtain ⟨rfl, -⟩ := takePooled_some htake
      rfl
    · cases htake
  · split at h <;> cases h
    rfl

/-- A failure that is taken back draws nothing. -/
theorem Draws.atomically {x : Emission α} (h : x.Draws c) : (atomically x).Draws c := by
  intro b
  have hb := h b
  rw [outcome_atomically]
  rcases hout : x.outcome c b with ⟨e | a, b'⟩
  · rw [hout] at hb
    rw [slots_restore hb]
  · rwa [hout] at hb

theorem covers_draws (c : Setting) : Covers fun _ x _ => x.Draws c where
  pure _ _ := Still.draws fun _ _ => rfl
  throw _ := Still.draws fun _ _ => rfl
  bind hx hf := hx.bind fun a => hf a a
  read hf := Draws.bind (Still.draws fun _ _ => rfl) hf
  checking hf := (still_checking _).draws.bind hf
  onEmitter _ _ := Still.draws fun _ _ => rfl
  acquire type := draws_acquireTemporary type
  still hx _ := hx.draws
  atomically hx := hx.atomically

/-! ### Operations that end a statement -/

/-- What comes of an operation, compared to what came of it up to the end of its statement. A
failure may end the statement or not. -/
inductive Closing (options : EmitOptions) (ends : Bool) :
    Except EmitError α × Body → Except EmitError β × Body → Prop
  | done {a a' m b} (h : b.slots = if ends then m.slots.release options else m.slots) :
      Closing options ends (.ok a, m) (.ok a', b)
  | failed {e e' m b} (h : b.slots = m.slots ∨ b.slots = m.slots.release options) :
      Closing options ends (.error e, m) (.error e', b)

/-- `y` does what `x` does, and `ends` says whether it ends the statement then. -/
def Closes (c : Setting) (ends : Bool) (x : Emission α) (y : Emission β) : Prop :=
  ∀ b, Closing c.options ends (x.outcome c b) (y.outcome c b)

variable {ends : Bool}

theorem closes_releasing (x : Emission α) : x.Closes c true (releasing x) := by
  intro b
  rw [outcome_releasing]
  rcases x.outcome c b with ⟨e | a, m⟩
  · exact .failed (.inr rfl)
  · exact .done rfl

theorem closes_throw (e : EmitError) (f : α → Emission β) (g : α → Emission γ) :
    Closes c ends ((throw e : Emission α) >>= f) ((throw e : Emission α) >>= g) :=
  fun _ => .failed (.inl rfl)

theorem Closes.after {f : α → Emission β} {g : α → Emission γ} (x : Emission α)
    (h : ∀ a, (f a).Closes c ends (g a)) : (x >>= f).Closes c ends (x >>= g) := by
  intro b
  rw [outcome_bind, outcome_bind]
  rcases x.outcome c b with ⟨e | a, m⟩
  · exact .failed (.inl rfl)
  · exact h a m

theorem Closes.before {x : Emission α} {y : Emission β} (h : x.Closes c ends y)
    {f : β → Emission γ} (hf : ∀ a b, ∃ a' b', (f a).outcome c b = (.ok a', b') ∧
      b'.slots = b.slots) :
    x.Closes c ends (y >>= f) := by
  intro b
  have hb := h b
  rw [outcome_bind]
  generalize x.outcome c b = before at hb
  generalize y.outcome c b = out at hb
  cases hb with
  | failed h => exact .failed h
  | @done _ a' m b' h =>
    obtain ⟨a'', b'', hout, hslots⟩ := hf a' b'
    show Closing c.options ends _ ((f a').outcome c b')
    rw [hout]
    exact .done (hslots.trans h)

theorem Closes.answer {x : Emission α} {y : Emission β} (h : x.Closes c ends y) (f : β → γ) :
    x.Closes c ends (y >>= fun a => pure (f a)) :=
  h.before fun a b => ⟨f a, b, rfl, rfl⟩

theorem closes_discard (y : Emission α) : Closes c false (y >>= fun _ => pure ()) y := by
  intro b
  rw [outcome_bind]
  rcases y.outcome c b with ⟨e | a, m⟩
  · exact .failed (.inl rfl)
  · exact .done rfl

/-- An assignment up to the end of its statement. -/
def assignWork (forceStack : Bool) (dest source : Symbol) : Emission Unit := do
  let c ← read
  checking fun c => c.checkSymbol dest
  checking fun c => c.checkSymbol source
  if !dest.capabilities.assign then
    throw (.missingCapability (c.registry.describe dest.dataType) .justAssign)
  if !c.compatible dest source then
    throw (.assignmentMismatch (c.registry.describe dest.valueType)
      (c.registry.describe source.valueType))
  atomically (emitCopy dest source (c.copyPath dest source forceStack))

/-- The evaluation of a symbol up to the end of its statement. -/
def statementWork (s : Symbol) : Emission Unit := do
  checking fun c => c.checkSymbol s
  atomically do
    emitLoad s .value
    if !s.dataType.isVoid then onEmitter (Emitter.emit .pop)

/-- A return up to the end of its statement. -/
def returnWork (value : Option Symbol) : Emission Unit := do
  let c ← read
  let returns := c.function.returns
  match value with
  | none =>
    if !returns.isVoid then throw (missingResult c)
    onEmitter (Emitter.emit .retVoid)
  | some s =>
    checking fun c => c.checkSymbol s
    if returns.isVoid || !c.registry.assignable s.valueType.hash returns.hash then
      throw (.assignmentMismatch (c.registry.describe returns) (c.registry.describe s.valueType))
    atomically do
      emitLoad s .value
      onEmitter (Emitter.emit .ret)

/-- The opening of a scope up to the end of its statement. -/
def openWork (kind : ScopeKind) (condition : Option Symbol) : Emission Unit := do
  if let some s := condition then checkCondition s
  let _ ← atomically (scopeEntry kind condition)

/-- A guarded way out up to the end of its statement. -/
def breakWork (h : ScopeHandle) (condition : Symbol) : Emission Unit := do
  let scope ← findScope h
  checkCondition condition
  atomically (emitGuard condition scope.exit)

theorem closes_assign (forceStack : Bool) (dest source : Symbol) :
    (assignWork forceStack dest source).Closes c true (assignBy forceStack dest source) := by
  refine .after _ fun setting => .after _ fun _ => .after _ fun _ => ?_
  dsimp only
  split
  · exact closes_throw _ _ _
  split
  · exact closes_throw _ _ _
  · exact closes_releasing _

theorem closes_return (value : Option Symbol) :
    (returnWork value).Closes c true (returnValue value) := by
  refine .after _ fun setting => ?_
  cases value with
  | none => exact closes_releasing _
  | some s =>
    refine .after _ fun _ => ?_
    split
    · exact closes_throw _ _ _
    · exact closes_releasing _

theorem closes_open (kind : ScopeKind) (condition : Option Symbol) :
    (openWork kind condition).Closes c true (openScope kind condition) := by
  have hrest : Closes c true ((atomically (scopeEntry kind condition)) >>= fun _ => pure ())
      (releasing (atomically (scopeEntry kind condition)) >>= pushScope kind) := by
    refine Closes.before (fun b => ?_) fun labels b => ⟨_, _, rfl, rfl⟩
    rw [outcome_bind, outcome_releasing]
    rcases (atomically (scopeEntry kind condition)).outcome c b with ⟨e | a, m⟩
    · exact .failed (.inr rfl)
    · exact .done rfl
  cases condition with
  | none => exact hrest
  | some s => exact .after _ fun _ => hrest

end Emission

namespace Operation

/-- Whether an operation ends the statement when it succeeds. -/
def endsStatement : Operation → Bool
  | .assign _ _ | .assignStackMediated _ _ | .statement _ | .returnValue _ | .openScope _ _
  | .breakIfFalse _ _ | .release => true
  | _ => false

/-- An operation up to the end of its statement. -/
def work : Operation → Emission Unit
  | .assign dest source => Emission.assignWork false dest source
  | .assignStackMediated dest source => Emission.assignWork true dest source
  | .statement s => Emission.statementWork s
  | .returnValue value => Emission.returnWork value
  | .openScope kind condition => Emission.openWork kind condition
  | .breakIfFalse h condition => Emission.breakWork h condition
  | .release => pure ()
  | op => do let _ ← op.emission

/-- An operation is its work, and then the end of the statement. -/
theorem closes_work (op : Operation) (c : Setting) :
    op.work.Closes c op.endsStatement op.emission := by
  open Emission in
  cases op with
  | assign dest source => exact (closes_assign false dest source).answer _
  | assignStackMediated dest source => exact (closes_assign true dest source).answer _
  | statement s => exact Closes.answer (.after _ fun _ => closes_releasing _) _
  | returnValue value => exact (closes_return value).answer _
  | openScope kind condition => exact (closes_open kind condition).answer _
  | breakIfFalse h condition =>
    exact Closes.answer (.after _ fun _ => .after _ fun _ => closes_releasing _) _
  | release => exact fun _ => .done rfl
  | _ => exact closes_discard _

/-- The operation declares a variable. -/
def Declares (op : Operation) : Prop := ∃ type, op = .declare type

/-- What covers the smallest operations covers every operation up to the end of its statement. -/
theorem covers_work {P : (α : Type) → Emission α → Emission α → Prop} (h : Emission.Covers P)
    {op : Operation} (hop : ¬op.Declares) : P Unit op.work op.work := by
  open Emission in
  have hend {x y : Emission Answer} (hxy : P Answer x y) :
      P Unit (x >>= fun _ => pure ()) (y >>= fun _ => pure ()) := h.bind hxy fun _ _ => h.pure () ()
  have hans {α : Type} {x y : Emission α} (f : α → Answer) (hxy : P α x y) :
      P Answer (x >>= fun a => pure (f a)) (y >>= fun a => pure (f a)) :=
    h.bind hxy fun a a' => h.pure (f a) (f a')
  cases op with
  | declare type => exact absurd ⟨type, rfl⟩ hop
  | make f => exact hend (h.checking fun x => h.pure (Answer.symbol x) (Answer.symbol x))
  | load s intent =>
    exact hend (hans (fun _ => .done) (h.checking fun _ => h.atomically (h.load s intent)))
  | assign dest source | assignStackMediated dest source =>
    refine h.read fun setting => h.checking fun _ => h.checking fun _ => ?_
    dsimp only
    split
    · exact h.throw _
    split
    · exact h.throw _
    · exact h.atomically (h.copy _ _ _)
  | statement s =>
    refine h.checking fun _ => h.atomically (h.bind (h.load s .value) fun _ _ => ?_)
    split
    · exact h.onEmitter _ _
    · exact h.pure _ _
  | returnValue value =>
    refine h.read fun setting => ?_
    cases value with
    | none =>
      dsimp only
      split
      · exact h.throw _
      · exact h.onEmitter _ _
    | some s =>
      refine h.checking fun _ => ?_
      split
      · exact h.throw _
      · exact h.atomically (h.bind (h.load s .value) fun _ _ => h.onEmitter _ _)
  | openScope kind condition =>
    have hrest : P Unit (atomically (scopeEntry kind condition) >>= fun _ => pure ())
        (atomically (scopeEntry kind condition) >>= fun _ => pure ()) :=
      h.bind (h.atomically (h.scopeEntry kind condition)) fun _ _ => h.pure () ()
    cases condition with
    | none => exact hrest
    | some s => exact h.checking fun _ => hrest
  | closeScope handle =>
    exact hend (hans (fun _ => .done) (h.still (still_closeScope handle) (still_closeScope handle)))
  | breakScope handle =>
    have hbreak : (Emission.breakScope handle).Still :=
      (still_findScope handle).bind fun _ _ _ => rfl
    exact hend (hans (fun _ => .done) (h.still hbreak hbreak))
  | continueLoop handle =>
    have hcontinue := still_continueLoop handle
    exact hend (hans (fun _ => .done) (h.still hcontinue hcontinue))
  | breakIfFalse handle condition =>
    have hfind := still_findScope handle
    exact h.bind (h.still hfind hfind) fun scope scope' => h.checking fun _ =>
      h.atomically (h.guard condition scope.exit scope'.exit)
  | acquireTemporary type => exact hend (hans .slot (h.acquire type))
  | release => exact h.pure () ()
  | defineLabel => exact hend (hans .label (h.onEmitter _ _))
  | markLabel _ | jump _ | setLine _ => exact hend (hans (fun _ => .done) (h.onEmitter _ _))

/-- What an operation does to the slots: it declares a variable, or it draws temporaries and then
may end the statement. -/
theorem slots_cases (op : Operation) (c : Setting) (b : Body) :
    (∃ type, b.locals.size < c.options.maxLocals.toNat ∧
      (op.emission.outcome c b).2.slots = b.slots.declare type) ∨
    ∃ m, Slots.Draws c.options b.slots m ∧
      ((op.emission.outcome c b).2.slots = m ∨
        (op.emission.outcome c b).2.slots = m.release c.options) := by
  by_cases hop : op.Declares
  · obtain ⟨type, rfl⟩ := hop
    have hout : (declare type).emission.outcome c b =
        (declareVariable type >>= fun x => pure (Answer.symbol x)).outcome c b := rfl
    rw [hout, outcome_bind]
    rcases declareVariable_cases type c b with ⟨e, hcase⟩ | ⟨hroom, hcase⟩ <;> rw [hcase]
    · exact .inr ⟨_, .refl, .inl rfl⟩
    · exact .inl ⟨type, hroom, rfl⟩
  -- What the work draws is all there is: the rest of the operation at most ends the statement.
  · have hdraws := op.covers_work (covers_draws c) hop b
    have hcloses := op.closes_work c b
    refine .inr ⟨_, hdraws, ?_⟩
    generalize op.work.outcome c b = before at hcloses ⊢
    generalize op.emission.outcome c b = after at hcloses ⊢
    cases hcloses with
    | failed h => exact h
    | done h =>
      split at h
      · exact .inr h
      · exact .inl h

theorem locals_grow (op : Operation) (c : Setting) (b : Body) :
    b.locals.toList <+: (op.emission.outcome c b).2.locals.toList := by
  show b.slots.locals.toList <+: (op.emission.outcome c b).2.slots.locals.toList
  rcases op.slots_cases c b with ⟨type, -, hslots⟩ | ⟨m, hdraws, hslots | hslots⟩ <;> rw [hslots]
  · simp [Slots.declare]
  · exact hdraws.grows.1
  · exact hdraws.grows.1

end Operation

end StackCode
