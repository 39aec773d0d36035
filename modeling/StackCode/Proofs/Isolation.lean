import StackCode.Proofs.Operations

/-!
# Contexts side by side

Several contexts over one registry are worked on in any order, and what one of them hands out may be
given to another. A context refuses what is not its own before it does anything, so nothing of one
context gets into the body or into the symbols of another.
-/

namespace StackCode

open Emission List Emitter LabelTable Emitting Answer

variable {k : Call} {id : ContextId} {c : Setting} {b : Body} {s : Session} {e : EmitError}

/-- An emitter of a context, with its pool in order. -/
structure Emitter.Owned (id : ContextId) (e : Emitter) : Prop where
  context : e.labels.context = id
  pool : e.constants.Valid

/-- An operation that leaves an emitter with its context. -/
def Emitting.Loyal {α : Type} (x : Emitting α) : Prop :=
  ∀ id e, e.Owned id → (x.outcome e).2.Owned id

/-- Everything that can be asked of a context: an operation, the code of a symbol by itself, a jump
with any opcode, or something of the emitter that is given neither symbols nor labels. -/
inductive Call
  | operation (op : Operation)
  | access (x : Symbol) (a : Access)
  | rawJump (op : Opcode) (l : Label)
  | raw (x : Emitting Unit) (loyal : x.Loyal)

namespace Call

/-- What a call does with the body of a context. -/
def emission : Call → Emission Answer
  | .operation op => op.emission
  | .access x a => do Emission.emitAccess x a; return .done
  | .rawJump op l => do Emission.onEmitter (Emitter.emitJump op l); return .done
  | .raw x _ => do Emission.onEmitter x; return .done

/-- The symbols that the call is given. -/
def symbols : Call → List Symbol
  | .operation op => op.symbols
  | .access x _ => [x]
  | .rawJump _ _ | .raw _ _ => []

/-- The labels that the call is given. -/
def labels : Call → List Label
  | .operation op => op.labels
  | .rawJump _ l => [l]
  | .access _ _ | .raw _ _ => []

/-- The scopes that the call is given. -/
def scopes : Call → List ScopeHandle
  | .operation op => op.scopes
  | .access _ _ | .rawJump _ _ | .raw _ _ => []

end Call

namespace Session

/-- The call is made; what the context hands out is kept. -/
def call (s : Session) (k : Call) : Except EmitError Answer × Session :=
  match s.context.run k.emission with
  | (.ok a, context) => (.ok a, { s with context }.keep a)
  | (.error e, context) => (.error e, { s with context })

/-- A call that is refused by the body leaves everything as it was. -/
theorem call_refused (h : k.emission.outcome s.setting s.body = (.error e, s.body)) :
    s.call k = (.error e, s) := by
  have hrun : s.context.run k.emission = (.error e, s.context) := by
    show ((k.emission.outcome s.setting s.body).1, Context.mk s.setting
      (k.emission.outcome s.setting s.body).2) = _
    rw [h]
    rfl
  rw [call, hrun]

theorem call_cases (s : Session) (k : Call) :
    (∃ e b, k.emission.outcome s.setting s.body = (.error e, b) ∧
      (s.call k).2 = { s with context := ⟨s.setting, b⟩ }) ∨
    ∃ a b, k.emission.outcome s.setting s.body = (.ok a, b) ∧
      (s.call k).2 = { s with context := ⟨s.setting, b⟩ }.keep a := by
  have hrun : s.context.run k.emission = ((k.emission.outcome s.setting s.body).1,
      ⟨s.setting, (k.emission.outcome s.setting s.body).2⟩) := rfl
  rw [call, hrun]
  rcases k.emission.outcome s.setting s.body with ⟨e | a, b⟩
  · exact .inl ⟨e, b, rfl, rfl⟩
  · exact .inr ⟨a, b, rfl, rfl⟩

/-- Something that the call is given was handed out by the session. -/
def Lends (s : Session) (k : Call) : Prop :=
  (∃ x ∈ k.symbols, x ∈ s.symbols) ∨ (∃ l ∈ k.labels, l ∈ s.labels) ∨
    ∃ h ∈ k.scopes, h ∈ s.scopes

end Session

/-! ### Contexts side by side -/

namespace Workshop

/-- Everything that the call is given was handed out by one of the contexts. -/
structure Offers (w : List Session) (k : Call) : Prop where
  symbols : ∀ x ∈ k.symbols, ∃ s ∈ w, x ∈ s.symbols
  labels : ∀ l ∈ k.labels, ∃ s ∈ w, l ∈ s.labels
  scopes : ∀ h ∈ k.scopes, ∃ s ∈ w, h ∈ s.scopes

/-- One more context, with a number that no other has, or a call on one of them. -/
inductive Step (r : Registry) : List Session → List Session → Prop
  | enter {w : List Session} (id : ContextId) (function : FunctionDecl) (options : EmitOptions)
      (fresh : ∀ s ∈ w, s.setting.id ≠ id) : Step r w (w ++ [.start id r function options])
  | call (before : List Session) (s : Session) (after : List Session) (k : Call)
      (offered : Offers (before ++ s :: after) k) :
      Step r (before ++ s :: after) (before ++ (s.call k).2 :: after)

/-- Calls to contexts one after the other. -/
abbrev Steps (r : Registry) : List Session → List Session → Prop := Relation.ReflTransGen (Step r)

end Workshop

/-! ### Emitters stay with their context -/

theorem Emitter.Owned.rollback {e : Emitter} (h : e.Owned id) (k : Checkpoint) :
    (e.rollback k).Owned id :=
  ⟨h.context, h.pool⟩

namespace Emitting

theorem loyal_markLabel (l : Label) : (Emitter.markLabel l).Loyal := by
  intro id e h
  have hctx : (e.labels.mark l e.chunk).2.1.context = e.labels.context := by
    unfold mark
    split
    · rfl
    · split
      · rfl
      · split
        · rfl
        · dsimp only
          split <;> rfl
  exact ⟨hctx.trans h.context, h.pool⟩

theorem loyal_emitJump (op : Opcode) (l : Label) : (emitJump op l).Loyal := by
  intro id e h
  have hctx : (e.labels.jump op l e.chunk e.line).2.1.context = e.labels.context := by
    unfold LabelTable.jump
    split
    · rfl
    · split <;> rfl
  exact ⟨hctx.trans h.context, h.pool⟩

end Emitting

namespace Emission

variable {α β : Type}

/-- An operation that leaves the emitter of a body with its context. -/
def Loyal (x : Emission α) : Prop :=
  ∀ c b id, b.emitter.Owned id → (x.outcome c b).2.emitter.Owned id

theorem loyal_of_emits {x : Emission α} {C : Setting → α → List Temporary → List Command → Prop}
    (h : ∀ c, x.Emits c (C c)) : x.Loyal := by
  intro c b id hb
  obtain ⟨hgrows, -⟩ := h c b hb.pool
  exact ⟨by rw [hgrows.emitter.labels, hb.context], hgrows.emitter.valid hb.pool⟩

theorem loyal_of_emitter_eq {x : Emission α} (h : ∀ c b, (x.outcome c b).2.emitter = b.emitter) :
    x.Loyal := by
  intro c b id hb
  rwa [h]

theorem loyal_pure (a : α) : (pure a : Emission α).Loyal := loyal_of_emitter_eq fun _ _ => rfl

theorem loyal_throw (e : EmitError) : (throw e : Emission α).Loyal :=
  loyal_of_emitter_eq fun _ _ => rfl

theorem loyal_read : (read : Emission Setting).Loyal := loyal_of_emitter_eq fun _ _ => rfl

theorem loyal_checking (f : Setting → Except EmitError α) : (checking f).Loyal :=
  loyal_of_emitter_eq fun c b => by rw [outcome_checking]

theorem loyal_onEmitter {x : Emitting α} (h : x.Loyal) : (onEmitter x).Loyal := by
  intro c b id hb
  rw [outcome_onEmitter]
  exact h id b.emitter hb

theorem Loyal.bind {x : Emission α} {f : α → Emission β} (hx : x.Loyal) (hf : ∀ a, (f a).Loyal) :
    (x >>= f).Loyal := by
  intro c b id hb
  have hb' := hx c b id hb
  rw [outcome_bind]
  rcases hout : x.outcome c b with ⟨e | a, b'⟩
  · rwa [hout] at hb'
  · rw [hout] at hb'
    exact hf a c b' id hb'

theorem Loyal.atomically {x : Emission α} (hx : x.Loyal) : (atomically x).Loyal := by
  intro c b id hb
  have hb' := hx c b id hb
  rw [outcome_atomically]
  rcases hout : x.outcome c b with ⟨e | a, b'⟩
  · rw [hout] at hb'
    exact hb'.rollback _
  · rwa [hout] at hb'

theorem Loyal.releasing {x : Emission α} (hx : x.Loyal) : (releasing x).Loyal := by
  intro c b id hb
  rw [outcome_releasing]
  exact hx c b id hb

/-- Something in front that depends on a condition. -/
theorem Loyal.after {p : Prop} [Decidable p] {x : Emission α} {y : Emission Unit} (hx : x.Loyal)
    (hy : y.Loyal) : (if p then (do let _ ← y; x) else x).Loyal := by
  split
  · exact hy.bind fun _ => hx
  · exact hx

theorem Loyal.unless {p : Prop} [Decidable p] {x : Emission α} (hx : x.Loyal) :
    (if p then (do let _ ← (throw e : Emission Unit); x) else x).Loyal :=
  hx.after (loyal_throw e)

theorem loyal_emitLoad (s : Symbol) (intent : LoadIntent) : (emitLoad s intent).Loyal :=
  loyal_of_emits fun _ => emits_load s intent

theorem loyal_emit {op : Opcode} (hop : op.sort = .none) : (onEmitter (emit op)).Loyal :=
  loyal_of_emits fun _ => emits_onEmitter (emits_emit hop)

theorem loyal_defineLabel : defineLabel.Loyal := loyal_onEmitter fun _ _ h => ⟨h.context, h.pool⟩

theorem loyal_jump (l : Label) : (jump l).Loyal := loyal_onEmitter (loyal_emitJump .jump l)

theorem loyal_mark (l : Label) : (markLabel l).Loyal := loyal_onEmitter (loyal_markLabel l)

theorem loyal_emitGuard (s : Symbol) (l : Label) : (emitGuard s l).Loyal :=
  (loyal_emitLoad s .value).bind fun _ => loyal_onEmitter (loyal_emitJump _ l)

theorem loyal_findScope (h : ScopeHandle) : (findScope h).Loyal := (loyal_checking _).bind fun _ =>
    (loyal_of_emitter_eq fun _ _ => rfl).bind fun _ =>
      loyal_of_emitter_eq fun _ _ => by rw [outcome_ofExcept]

theorem loyal_assignBy (forceStack : Bool) (dest source : Symbol) :
    (assignBy forceStack dest source).Loyal := by
  refine loyal_read.bind fun c => (loyal_checking _).bind fun _ => (loyal_checking _).bind fun _ =>
    ?_
  have hcopy : ∀ path, (emitCopy dest source path).Loyal := fun path =>
    loyal_of_emits fun _ => emits_copy dest source path
  exact (hcopy _).atomically.releasing.unless.unless

theorem loyal_statement (s : Symbol) : (statement s).Loyal := by
  refine (loyal_checking _).bind fun _ => (Loyal.bind (loyal_emitLoad s .value) fun _ =>
    ?_).atomically.releasing
  split
  · exact loyal_emit rfl
  · exact loyal_pure ()

theorem loyal_returnValue (value : Option Symbol) : (returnValue value).Loyal := by
  refine loyal_read.bind fun c => ?_
  cases value with
  | none => exact (loyal_emit rfl).unless.releasing
  | some s =>
    have hreturn : (do emitLoad s .value; onEmitter (emit .ret) : Emission Unit).Loyal :=
      (loyal_emitLoad s .value).bind fun _ => loyal_emit rfl
    exact (loyal_checking _).bind fun _ => hreturn.atomically.releasing.unless

theorem loyal_openScope (kind : ScopeKind) (condition : Option Symbol) :
    (openScope kind condition).Loyal := by
  have hpush (ends : Label × Label) : (pushScope kind ends).Loyal :=
    loyal_of_emitter_eq fun _ _ => rfl
  have hent : ∀ entry exit : Label, (do
      if kind = .loop then markLabel entry
      pure (entry, exit) : Emission (Label × Label)).Loyal := fun entry _ =>
    (loyal_pure _).after (loyal_mark entry)
  cases condition with
  | none =>
    refine Loyal.bind (Loyal.releasing (Loyal.atomically ?_)) hpush
    refine loyal_defineLabel.bind fun entry => loyal_defineLabel.bind fun exit => ?_
    exact (hent entry exit).after (loyal_mark entry)
  | some s =>
    refine (loyal_checking _).bind fun _ => Loyal.bind (Loyal.releasing (Loyal.atomically ?_)) hpush
    refine loyal_defineLabel.bind fun entry => loyal_defineLabel.bind fun exit => ?_
    exact ((loyal_emitGuard s exit).bind fun _ => hent entry exit).after (loyal_mark entry)

theorem loyal_closeScope (h : ScopeHandle) : (closeScope h).Loyal := by
  refine (loyal_findScope h).bind fun scope => Loyal.bind (loyal_of_emitter_eq fun _ _ => rfl)
    fun b => Loyal.unless ?_
  have hend : (do
      markLabel scope.exit
      modify fun b => { b with scopes := b.scopes.pop h.id } : Emission Unit).Loyal :=
    (loyal_mark _).bind fun _ => loyal_of_emitter_eq fun _ _ => rfl
  cases scope.kind with
  | loop => exact (loyal_jump _).bind fun _ => hend
  | block => exact (loyal_emit rfl).bind fun _ => hend
  | branch => exact (loyal_pure ()).bind fun _ => hend

theorem loyal_continueLoop (h : ScopeHandle) : (continueLoop h).Loyal := by
  exact (loyal_findScope h).bind fun scope => (loyal_jump scope.entry).unless

theorem loyal_declareVariable (type : DataType) : (declareVariable type).Loyal := by
  refine loyal_of_emitter_eq fun c b => ?_
  rcases declareVariable_cases type c b with ⟨e, hout⟩ | ⟨-, hout⟩ <;> rw [hout]

end Emission

/-- Every call leaves the emitter with its context. -/
theorem Call.loyal (k : Call) : k.emission.Loyal := by
  have hdone : ∀ {x : Emission Unit}, x.Loyal → (do x; return done : Emission Answer).Loyal :=
    fun hx => hx.bind fun _ => loyal_pure _
  cases k with
  | access x a => exact hdone (loyal_of_emits fun c => emits_access c x a)
  | rawJump op l => exact hdone (loyal_onEmitter (loyal_emitJump op l))
  | raw x loyal => exact hdone (loyal_onEmitter loyal)
  | operation op =>
    cases op with
    | make f => exact (loyal_checking _).bind fun _ => loyal_pure _
    | declare type => exact (loyal_declareVariable type).bind fun _ => loyal_pure _
    | load s intent =>
      exact hdone ((loyal_checking _).bind fun _ =>
        (loyal_emitLoad s intent).atomically)
    | assign dest source | assignStackMediated dest source =>
      exact hdone (loyal_assignBy _ dest source)
    | statement s => exact hdone (loyal_statement s)
    | returnValue value => exact hdone (loyal_returnValue value)
    | defineLabel => exact loyal_defineLabel.bind fun _ => loyal_pure _
    | markLabel l => exact hdone (loyal_mark l)
    | jump l => exact hdone (loyal_jump l)
    | openScope kind condition =>
      exact (loyal_openScope kind condition).bind fun _ => loyal_pure _
    | closeScope h => exact hdone (loyal_closeScope h)
    | breakScope h => exact hdone ((loyal_findScope h).bind fun _ => loyal_jump _)
    | continueLoop h => exact hdone (loyal_continueLoop h)
    | breakIfFalse h s =>
      exact hdone ((loyal_findScope h).bind fun _ => (loyal_checking _).bind
        fun _ => (loyal_emitGuard s _).atomically.releasing)
    | acquireTemporary type =>
      exact (loyal_of_emits fun _ => emits_acquireTemporary type).bind fun _ => loyal_pure _
    | release => exact hdone (loyal_of_emitter_eq fun _ _ => rfl)
    | setLine line => exact hdone (loyal_onEmitter fun _ _ h => ⟨h.context, h.pool⟩)

/-! ### What is not the context's own is refused -/

/-- Everything that the call is given belongs to the context. -/
structure Call.Own (k : Call) (c : Setting) (b : Body) : Prop where
  symbols : ∀ x ∈ k.symbols, x.context = c.id
  labels : ∀ l ∈ k.labels, l.context = b.emitter.labels.context
  scopes : ∀ h ∈ k.scopes, h.context = c.id

namespace Emission

variable {α β : Type}

/-- The operation fails before it does anything. -/
def Refused (c : Setting) (b : Body) (x : Emission α) : Prop := ∃ e, x.outcome c b = (.error e, b)

theorem Refused.bind {x : Emission α} (h : x.Refused c b) (f : α → Emission β) :
    (x >>= f).Refused c b := by
  obtain ⟨e, hout⟩ := h
  refine ⟨e, ?_⟩
  rw [outcome_bind, hout]

theorem refused_of_outcome_eq {x y : Emission α} (hxy : x.outcome c b = y.outcome c b)
    (h : y.Refused c b) : x.Refused c b := by
  obtain ⟨e, hout⟩ := h
  exact ⟨e, hxy.trans hout⟩

theorem checkSymbol_bind (s : Symbol) (f : Unit → Emission α) :
    (checking (fun c => c.checkSymbol s) >>= f).Refused c b ∨ s.context = c.id ∧
        (checking (fun c => c.checkSymbol s) >>= f).outcome c b = (f ()).outcome c b := by
  have hout := outcome_checking_bind (c := c) (b := b) (fun c => c.checkSymbol s) f
  cases hcheck : c.checkSymbol s with
  | error e => exact .inl ⟨e, by rw [hout, hcheck]⟩
  | ok => exact .inr ⟨Setting.checkSymbol_ok hcheck, by rw [hout, hcheck]⟩

/-- The code of a symbol is emitted by its own context only. -/
theorem emitAccess_own (s : Symbol) (a : Access) :
    (emitAccess s a).Refused c b ∨ s.context = c.id := by
  have hcheck : ∀ f : Unit → Emission Unit,
      (checking (fun c => c.checkSymbol s) >>= f).Refused c b ∨ s.context = c.id := fun f =>
    (checkSymbol_bind s f).imp_right And.left
  cases s <;> (unfold emitAccess; exact hcheck _)

theorem load_own (s : Symbol) (intent : LoadIntent) :
    (load s intent).Refused c b ∨ s.context = c.id :=
  (checkSymbol_bind s _).imp_right And.left

theorem assignBy_own (forceStack : Bool) (dest source : Symbol) :
    (assignBy forceStack dest source).Refused c b ∨ dest.context = c.id ∧
    source.context = c.id := by
  have hread : ∀ f : Setting → Emission Unit, (read >>= f).outcome c b = (f c).outcome c b :=
    fun f => by
    rw [outcome_bind, outcome_read]
  rcases checkSymbol_bind dest _ with hrefused | ⟨hdest, hout⟩
  · exact .inl (refused_of_outcome_eq (hread _) hrefused)
  rcases checkSymbol_bind source _ with hrefused | ⟨hsrc, -⟩
  · exact .inl (refused_of_outcome_eq ((hread _).trans hout) hrefused)
  · exact .inr ⟨hdest, hsrc⟩

theorem returnValue_own (s : Symbol) : (returnValue (some s)).Refused c b ∨ s.context = c.id := by
  unfold returnValue
  rcases checkSymbol_bind s _ with hrefused | ⟨hs, -⟩
  · refine .inl (refused_of_outcome_eq ?_ hrefused)
    rw [outcome_bind, outcome_read]
  · exact .inr hs

theorem openScope_own (kind : ScopeKind) (s : Symbol) :
    (openScope kind (some s)).Refused c b ∨ s.context = c.id :=
  (checkCondition_bind s _).imp_right And.left

theorem findScope_own (h : ScopeHandle) (f : OpenScope → Emission α) :
    (findScope h >>= f).Refused c b ∨ h.context = c.id :=
  (findScope_bind h f).imp_right fun ⟨_, hctx, _⟩ => hctx

theorem breakIfFalse_own (h : ScopeHandle) (s : Symbol) :
    (breakIfFalse h s).Refused c b ∨ h.context = c.id ∧ s.context = c.id := by
  rcases findScope_bind h _ with hrefused | ⟨o, hctx, -, hout⟩
  · exact .inl hrefused
  rcases checkCondition_bind s _ with hrefused | ⟨hs, -, -⟩
  · exact .inl (refused_of_outcome_eq hout hrefused)
  · exact .inr ⟨hctx, hs⟩

/-- An operation on a label that fails with its table leaves everything as it was. -/
theorem onLabels_own {f : LabelTable → Chunk → Nat → Except EmitError Unit × LabelTable × Chunk}
    {l : Label} (hf : ∀ e, b.emitter.labels.state l = .error e →
      f b.emitter.labels b.emitter.chunk b.emitter.line =
        (.error e, b.emitter.labels, b.emitter.chunk)) :
    (onEmitter (onLabels f)).Refused c b ∨ l.context = b.emitter.labels.context := by
  cases hs : b.emitter.labels.state l with
  | error e =>
    refine .inl ⟨e, ?_⟩
    have hout : (onLabels f).outcome b.emitter = (.error e, b.emitter) := by
      show ((f b.emitter.labels b.emitter.chunk b.emitter.line).1, _) = _
      rw [hf e hs]
    rw [outcome_onEmitter, hout]
  | ok s => exact .inr (state_ok hs).1

theorem markLabel_own (l : Label) :
    (markLabel l).Refused c b ∨ l.context = b.emitter.labels.context :=
  onLabels_own fun e he => by simp only [mark, he]

theorem emitJump_own (op : Opcode) (l : Label) :
    (onEmitter (emitJump op l)).Refused c b ∨ l.context = b.emitter.labels.context :=
  onLabels_own fun e he => by simp only [LabelTable.jump, he]

end Emission

namespace Call

theorem own_of_nothing (hsyms : k.symbols = []) (hlabels : k.labels = [])
    (hscopes : k.scopes = []) : k.Own c b :=
  ⟨by simp [hsyms], by simp [hlabels], by simp [hscopes]⟩

/-- A call is refused before anything is done, or is given the context's own things only. -/
theorem refused_or_own (k : Call) (c : Setting) (b : Body) :
    k.emission.Refused c b ∨ k.Own c b := by
  cases k with
  | access x a =>
    refine (emitAccess_own x a).imp (Emission.Refused.bind · _) fun hx => ?_
    exact ⟨by simpa [symbols] using hx, by simp [labels], by simp [scopes]⟩
  | rawJump op l =>
    refine (emitJump_own op l).imp (Emission.Refused.bind · _) fun hl => ?_
    exact ⟨by simp [symbols], by simpa [labels] using hl, by simp [scopes]⟩
  | raw x loyal => exact .inr (own_of_nothing rfl rfl rfl)
  | operation op =>
    -- One symbol, one label or one scope: what is checked is what is given.
    have hone : ∀ {x : Emission Unit} {own : Prop}, (own → (Call.operation op).Own c b) →
      x.Refused c b ∨ own →
        (do x; return done : Emission Answer).Refused c b ∨ (Call.operation op).Own c b :=
      fun hown h => h.imp (Emission.Refused.bind · _) hown
    have hsym : ∀ {s : Symbol}, op.symbols = [s] → op.labels = [] → op.scopes = [] →
      s.context = c.id →
        (Call.operation op).Own c b := fun hs hl hh hx =>
      ⟨by simpa [symbols, hs] using hx, by simp [labels, hl], by simp [scopes, hh]⟩
    have hscope : ∀ {h : ScopeHandle}, op.symbols = [] → op.labels = [] → op.scopes = [h] →
      h.context = c.id →
        (Call.operation op).Own c b := fun hs hl hh hx =>
      ⟨by simp [symbols, hs], by simp [labels, hl], by simpa [scopes, hh] using hx⟩
    have hlabel : ∀ {l : Label}, op.symbols = [] → op.labels = [l] → op.scopes = [] →
        l.context = b.emitter.labels.context → (Call.operation op).Own c b := fun hs hl hh hx =>
      ⟨by simp [symbols, hs], by simpa [labels, hl] using hx, by simp [scopes, hh]⟩
    cases op with
    | make f =>
      have hout := outcome_checking_bind (c := c) (b := b) f.make fun s =>
        (pure (.symbol s) : Emission Answer)
      cases hmake : f.make c with
      | error e => exact .inl ⟨e, by rw [hmake] at hout; exact hout⟩
      | ok s => exact .inr ⟨(Factory.make_ok hmake).2.2, by simp [labels, Operation.labels],
          by simp [scopes, Operation.scopes]⟩
    | load s intent => exact hone (hsym rfl rfl rfl) (load_own s intent)
    | statement s =>
      exact hone (hsym rfl rfl rfl) ((checkSymbol_bind s _).imp_right And.left)
    | assign dest source | assignStackMediated dest source =>
      refine (assignBy_own _ dest source).imp (Emission.Refused.bind · _) fun h => ?_
      exact ⟨by simpa [symbols, Operation.symbols] using h, by simp [labels, Operation.labels],
        by simp [scopes, Operation.scopes]⟩
    | returnValue value =>
      cases value with
      | none => exact .inr (own_of_nothing rfl rfl rfl)
      | some s => exact hone (hsym rfl rfl rfl) (returnValue_own s)
    | openScope kind condition =>
      cases condition with
      | none => exact .inr (own_of_nothing rfl rfl rfl)
      | some s =>
        refine (openScope_own kind s).imp (Emission.Refused.bind · _) fun hs => ?_
        exact ⟨by simpa [symbols, Operation.symbols] using hs, by simp [labels, Operation.labels],
          by simp [scopes, Operation.scopes]⟩
    | markLabel l => exact hone (hlabel rfl rfl rfl) (markLabel_own l)
    | jump l => exact hone (hlabel rfl rfl rfl) (emitJump_own .jump l)
    | closeScope h | breakScope h | continueLoop h =>
      exact hone (hscope rfl rfl rfl) (findScope_own h _)
    | breakIfFalse h s =>
      refine (breakIfFalse_own h s).imp (Emission.Refused.bind · _) fun ⟨hh, hs⟩ => ?_
      exact ⟨by simpa [symbols, Operation.symbols] using hs, by simp [labels, Operation.labels],
        by simpa [scopes, Operation.scopes] using hh⟩
    | declare _ | defineLabel | acquireTemporary _ | release | setLine _ =>
      exact .inr (own_of_nothing rfl rfl rfl)

end Call

/-! ### What a context hands out is its own -/

namespace Symbol

/-- A symbol contains itself, its parts, their parts, and so on. -/
abbrev Contains : Symbol → Symbol → Prop := Relation.ReflTransGen fun s p => p ∈ s.parts

/-- All of a symbol belongs to one context. -/
def Within (id : ContextId) (s : Symbol) : Prop := ∀ p, s.Contains p → p.context = id

theorem Within.context {s : Symbol} (h : s.Within id) : s.context = id := h s .refl

theorem within_of_parts {s : Symbol} (hs : s.context = id) (hparts : ∀ p ∈ s.parts, p.Within id) :
    s.Within id := by
  intro p hp
  rcases hp.cases_head with rfl | ⟨q, hq, hp⟩
  · exact hs
  · exact hparts q hq p hp

end Symbol

/-- A scope that is opened gets the number of the context. -/
theorem Emission.openScope_context {kind : ScopeKind} {condition : Option Symbol} {b' : Body}
    {h : ScopeHandle} (hopen : (openScope kind condition).outcome c b = (.ok h, b')) :
    h.context = c.id := by
  have hlast : ∀ {x : Emission (Label × Label)} {b : Body},
      (x >>= pushScope kind).outcome c b = (.ok h, b') → h.context = c.id := by
    intro x b hx
    obtain ⟨_, _, -, hx⟩ := bind_ok hx
    cases hx
    rfl
  cases condition with
  | none => exact hlast hopen
  | some s =>
    obtain ⟨_, _, -, hopen⟩ := bind_ok hopen
    exact hlast hopen

/-- What an answer hands out belongs to a context. -/
def Answer.Owned (id : ContextId) : Answer → Prop
  | .symbol s => s.Within id
  | .label l => l.context = id
  | .scope h => h.context = id
  | .done | .slot _ => True

/-- A call hands out what belongs to the context, if this holds of the symbols that it is given
and that belong to the context themselves. -/
theorem Call.answer_owned {b' : Body} {a : Answer} (hb : b.emitter.Owned c.id)
    (hsyms : ∀ x ∈ k.symbols, x.context = c.id → x.Within c.id)
    (h : k.emission.outcome c b = (.ok a, b')) : a.Owned c.id := by
  have hdone : ∀ {x : Emission Unit},
      (do x; return done : Emission Answer).outcome c b = (.ok a, b') → a.Owned c.id := by
    intro x hx
    obtain ⟨_, _, -, hx⟩ := bind_ok hx
    cases hx
    trivial
  cases k with
  | access _ _ | rawJump _ _ | raw _ _ => exact hdone h
  | operation op =>
    cases op with
    | make f =>
      obtain ⟨s, b₁, hmake, hs⟩ := bind_ok h
      cases hs
      rw [outcome_checking] at hmake
      obtain ⟨hctx, hparts, hown⟩ := Factory.make_ok (congrArg Prod.fst hmake)
      refine Symbol.within_of_parts hctx fun p hp => ?_
      rw [hparts] at hp
      exact hsyms p hp (hown p hp)
    | declare type =>
      obtain ⟨s, b₁, hdecl, hs⟩ := bind_ok h
      cases hs
      rcases declareVariable_cases type c b with ⟨e, hout⟩ | ⟨-, hout⟩
      · rw [hdecl] at hout
        cases hout
      · rw [hdecl] at hout
        cases hout
        exact Symbol.within_of_parts rfl fun p hp => by cases hp
    | defineLabel =>
      obtain ⟨l, b₁, hdefine, hs⟩ := bind_ok h
      cases hs
      cases hdefine
      exact hb.context
    | openScope kind condition =>
      obtain ⟨o, b₁, hopen, hs⟩ := bind_ok h
      cases hs
      exact openScope_context hopen
    | acquireTemporary type =>
      obtain ⟨_, _, -, hs⟩ := bind_ok h
      cases hs
      trivial
    | load _ _ | assign _ _ | assignStackMediated _ _ | statement _ | returnValue _ | markLabel _
    | jump _ | closeScope _ | breakScope _ | continueLoop _ | breakIfFalse _ _ | release
    | setLine _ => exact hdone h

namespace Session

/-- A session that holds what its context has handed out, and nothing else. -/
structure Owned (s : Session) : Prop where
  emitter : s.body.emitter.Owned s.setting.id
  symbols : ∀ x ∈ s.symbols, x.Within s.setting.id
  labels : ∀ l ∈ s.labels, l.context = s.setting.id
  scopes : ∀ h ∈ s.scopes, h.context = s.setting.id

theorem owned_start (id : ContextId) (r : Registry) (function : FunctionDecl)
    (options : EmitOptions) : (start id r function options).Owned where
  emitter := ⟨rfl, Pool.valid_empty⟩
  symbols := by simp [start]
  labels := by simp [start]
  scopes := by simp [start]

theorem setting_call (s : Session) (k : Call) : (s.call k).2.setting = s.setting := by
  rcases s.call_cases k with ⟨e, b, -, hcall⟩ | ⟨a, b, -, hcall⟩
  · rw [hcall]
    rfl
  · rw [hcall]
    cases a <;> rfl

theorem Owned.keep (h : s.Owned) {a : Answer} (ha : a.Owned s.setting.id) : (s.keep a).Owned := by
  obtain ⟨hemitter, hsyms, hlabels, hscopes⟩ := h
  cases a with
  | symbol x => exact ⟨hemitter, forall_mem_cons.mpr ⟨ha, hsyms⟩, hlabels, hscopes⟩
  | label l => exact ⟨hemitter, hsyms, forall_mem_cons.mpr ⟨ha, hlabels⟩, hscopes⟩
  | scope h => exact ⟨hemitter, hsyms, hlabels, forall_mem_cons.mpr ⟨ha, hscopes⟩⟩
  | done | slot _ => exact ⟨hemitter, hsyms, hlabels, hscopes⟩

/-- A call that is given symbols of any contexts. -/
theorem Owned.call (h : s.Owned) (hsyms : ∀ x ∈ k.symbols, ∃ id, x.Within id) :
    (s.call k).2.Owned := by
  have hleft : ∀ b, b.emitter.Owned s.setting.id → Owned { s with context := ⟨s.setting, b⟩ } :=
    fun b hb =>
    ⟨hb, h.symbols, h.labels, h.scopes⟩
  have hloyal := k.loyal s.setting s.body s.setting.id h.emitter
  rcases s.call_cases k with ⟨e, b, hout, hcall⟩ | ⟨a, b, hout, hcall⟩
  · rw [hcall]
    rw [hout] at hloyal
    exact hleft b hloyal
  · rw [hcall]
    rw [hout] at hloyal
    refine (hleft b hloyal).keep (Call.answer_owned h.emitter (fun x hx hown => ?_) hout)
    obtain ⟨id, hid⟩ := hsyms x hx
    rwa [← hown, hid.context]

/-- A call with something of another context is refused. -/
theorem Owned.refuses (h : s.Owned) {other : Session} (hother : other.Owned)
    (hne : other.setting.id ≠ s.setting.id) (hlends : other.Lends k) :
    ∃ e, s.call k = (.error e, s) := by
  rcases k.refused_or_own s.setting s.body with ⟨e, hout⟩ | hown
  · exact ⟨e, call_refused hout⟩
  refine absurd ?_ hne
  rcases hlends with ⟨x, hx, hheld⟩ | ⟨l, hl, hheld⟩ | ⟨o, ho, hheld⟩
  · exact (hother.symbols x hheld).context.symm.trans (hown.symbols x hx)
  · exact (hother.labels l hheld).symm.trans ((hown.labels l hl).trans h.emitter.context)
  · exact (hother.scopes o hheld).symm.trans (hown.scopes o ho)

end Session

/-! ### Isolation -/

namespace Workshop

variable {r : Registry} {w w' : List Session}

/-- What holds of contexts side by side: each holds its own, and their numbers differ. -/
structure Inv (w : List Session) : Prop where
  owned : ∀ s ∈ w, s.Owned
  distinct : (w.map fun s => s.setting.id).Nodup

theorem Inv.step (h : Inv w) (hstep : Step r w w') : Inv w' := by
  cases hstep with
  | enter id function options fresh =>
    refine ⟨?_, ?_⟩
    · simpa [or_imp, forall_and] using ⟨h.owned, Session.owned_start id r function options⟩
    · rw [map_append, nodup_append]
      refine ⟨h.distinct, by simp, ?_⟩
      rintro _ hmem _ hid rfl
      obtain ⟨s, hs, rfl⟩ := mem_map.mp hmem
      exact fresh s hs (mem_singleton.mp hid)
  | call before s after k offered =>
    refine ⟨?_, ?_⟩
    · have hcall : (s.call k).2.Owned := by
        refine (h.owned s (by simp)).call fun x hx => ?_
        obtain ⟨s', hs', hheld⟩ := offered.symbols x hx
        exact ⟨_, (h.owned s' hs').symbols x hheld⟩
      intro s' hs'
      rcases mem_append.mp hs' with hs' | hs'
      · exact h.owned s' (mem_append_left _ hs')
      · rcases mem_cons.mp hs' with rfl | hs'
        · exact hcall
        · exact h.owned s' (mem_append_right _ (mem_cons_of_mem s hs'))
    · have hdist := h.distinct
      rw [map_append, map_cons] at hdist ⊢
      rwa [Session.setting_call]

theorem inv_of_steps (h : Steps r [] w) : Inv w := by
  induction h with
  | refl => exact ⟨by simp, by simp⟩
  | tail _ hstep ih => exact ih.step hstep

/-- However contexts over one registry are worked on side by side, all of a symbol belongs to the
context that made it, and a call on a context that is given anything of another one fails and
leaves everything that the context holds as it was. -/
theorem contexts_are_isolated (h : Steps r [] w) :
    (∀ s ∈ w, ∀ x ∈ s.symbols, x.context = s.setting.id ∧
      ∀ p, x.Contains p → p.context = x.context) ∧
    ∀ before s after k, w = before ++ s :: after → (∃ other ∈ before ++ after, other.Lends k) →
      ∃ e, s.call k = (.error e, s) := by
  have hinv := inv_of_steps h
  refine ⟨fun s hs x hx => ?_, ?_⟩
  · have hwithin := (hinv.owned s hs).symbols x hx
    refine ⟨hwithin.context, fun p hp => ?_⟩
    rw [hwithin p hp, hwithin.context]
  · rintro before s after k rfl ⟨other, hother, hlends⟩
    have hmem : other ∈ before ++ s :: after := by
      simp only [List.mem_append, List.mem_cons] at hother ⊢
      tauto
    refine (hinv.owned s (by simp)).refuses (hinv.owned other hmem) ?_ hlends
    have hdistinct := hinv.distinct
    rw [(List.perm_middle.map _).nodup_iff, List.map_cons, List.nodup_cons] at hdistinct
    intro heq
    exact hdistinct.1 (List.mem_map.mpr ⟨other, hother, heq⟩)

def empty : Session := .start ⟨0⟩ .empty (.staticMethod ⟨1⟩ "f" [] .void) .default

/-- The context after its user has got the symbol of a truth value. -/
def first : Session := (empty.call (.operation (.make (.literal (.bool true))))).2

/-- Another context over the same registry. -/
def second : Session := .start ⟨1⟩ .empty (.staticMethod ⟨1⟩ "g" [] .void) .default

/-- The truth value makes a statement where it was made, and nowhere else. -/
theorem neighbour_is_refused :
    (first.call (.operation (.statement (.literal ⟨0⟩ (.bool true))))).1 = .ok .done ∧
      ∃ e, second.call (.operation (.statement (.literal ⟨0⟩ (.bool true)))) =
        (.error e, second) := by
  have hempty : Step .empty [] [empty] := .enter ⟨0⟩ _ _ (by simp)
  have hsecond : Step .empty [empty] [empty, second] := .enter ⟨1⟩ _ _ (by
    simp [empty, Session.start, Session.setting, Context.start])
  have hfirst : Step .empty [empty, second] [first, second] := .call [] empty [second] _
    ⟨by simp [Call.symbols, Operation.symbols, Factory.parts],
      by simp [Call.labels, Operation.labels], by simp [Call.scopes, Operation.scopes]⟩
  have hsteps : Steps .empty [] [first, second] := .tail (.tail (.single hempty) hsecond) hfirst
  refine ⟨rfl, (contexts_are_isolated hsteps).2 [first] second [] _ rfl ?_⟩
  exact ⟨first, List.mem_singleton_self _,
    .inl ⟨_, List.mem_singleton_self _, List.mem_singleton_self _⟩⟩

end Workshop

end StackCode
