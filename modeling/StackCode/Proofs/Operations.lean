import StackCode.Proofs.Segments

/-!
# What operations do

Every operation on a sound body either fails, or does one of a few things to it. A failed operation
leaves code, slots, labels and scopes as they were; only constants may have been added, and the
temporaries of the statement may have been released.
-/

namespace StackCode

open Setting Emitter Emitting

variable {c : Setting} {d : Discipline} {segs : List Listing} {α : Type}

namespace Body

/-- What a failed operation leaves of a body. -/
def Failed (options : EmitOptions) (b b' : Body) : Prop :=
  ∃ k : Pool, b.emitter.constants.Extends k ∧ k.Valid ∧
    (b' = b.withConstants k ∨ b' = (b.withConstants k).release options)

variable {b b' : Body}

theorem Failed.refl (options : EmitOptions) (hpool : b.emitter.constants.Valid) :
    b.Failed options b :=
  ⟨b.emitter.constants, .refl _, hpool, .inl rfl⟩

theorem Failed.released (options : EmitOptions) (hpool : b.emitter.constants.Valid) :
    b.Failed options (b.release options) :=
  ⟨b.emitter.constants, .refl _, hpool, .inr rfl⟩

theorem Failed.sound {options : EmitOptions} (hb : b.Sound c d segs) (h : b.Failed options b') :
    b'.Sound c d segs := by
  obtain ⟨k, hpool, hvalid, rfl | rfl⟩ := h
  · exact hb.withConstants hpool hvalid
  · exact (hb.withConstants hpool hvalid).release options

end Body

namespace Emission

variable {b : Body} {C : α → List Temporary → List Command → Prop}

theorem Emits.releasing {x : Emission α} (h : x.Emits c C) (hb : b.Sound c d segs) :
    (∃ e b', (releasing (Emission.atomically x)).outcome c b = (.error e, b') ∧
      b.Failed c.options b') ∨
    ∃ a b' ts xs, (Emission.releasing (Emission.atomically x)).outcome c b =
        (.ok a, b'.release c.options) ∧ (Emission.atomically x).outcome c b = (.ok a, b') ∧
        C a ts xs ∧ b.Grows b' ∧ b.Emitted b' ts xs := by
  rw [outcome_releasing]
  rcases h.atomically hb.pool hb.restorable with ⟨e, k, hout, hpool, hvalid⟩ |
      ⟨a, b', ts, xs, hout, hC, hgrows, hemit⟩
  · rw [hout]
    exact .inl ⟨e, _, rfl, k, hpool, hvalid, .inr rfl⟩
  · rw [hout]
    exact .inr ⟨a, b', ts, xs, rfl, rfl, hC, hgrows, hemit⟩

theorem outcome_checking_bind {β : Type} (g : Setting → Except EmitError α) (f : α → Emission β) :
    (checking g >>= f).outcome c b = match g c with
      | .ok a => (f a).outcome c b
      | .error e => (.error e, b) := by
  rw [outcome_bind, outcome_checking]
  cases g c <;> rfl

theorem declareVariable_cases (type : DataType) (c : Setting) (b : Body) :
    (∃ e, (declareVariable type).outcome c b = (.error e, b)) ∨
    b.locals.size < c.options.maxLocals.toNat ∧ (declareVariable type).outcome c b =
      (.ok (.localSlot c.id (UInt16.ofNat b.locals.size) type),
        { b with locals := b.locals.push type }) := by
  unfold declareVariable
  rw [outcome_bind, outcome_read]
  dsimp only
  by_cases hknown : c.registry.containsType type.hash
  · rw [if_neg (by simpa using hknown), outcome_bind, outcome_declareLocal]
    by_cases hfull : c.options.maxLocals.toNat ≤ b.locals.size
    · rw [if_pos hfull]
      exact .inl ⟨_, rfl⟩
    · rw [if_neg hfull]
      exact .inr ⟨Nat.lt_of_not_le hfull, rfl⟩
  · rw [if_pos (by simpa using hknown)]
    exact .inl ⟨_, rfl⟩

/-- Loading fails and leaves no trace, or emits the code of the symbol. -/
theorem load_cases (hb : b.Sound c d segs) (s : Symbol) (intent : LoadIntent) :
    (∃ e k, (load s intent).outcome c b = (.error e, b.withConstants k) ∧
      b.emitter.constants.Extends k ∧ k.Valid) ∨
    ∃ b' ts xs, (load s intent).outcome c b = (.ok (), b') ∧ s.context = c.id ∧
      Code c.registry (.load s intent) ts xs ∧ b.Grows b' ∧ b.Emitted b' ts xs := by
  unfold load
  rw [outcome_checking_bind]
  cases hcheck : c.checkSymbol s with
  | error e => exact .inl ⟨e, b.emitter.constants, rfl, .refl _, hb.pool⟩
  | ok =>
    rcases (emits_load s intent).atomically hb.pool hb.restorable with hfail |
        ⟨a, b', ts, xs, hout, hcode, hgrows, hemit⟩
    · exact .inl hfail
    · exact .inr ⟨b', ts, xs, hout, checkSymbol_ok hcheck, hcode, hgrows, hemit⟩

theorem emits_copy (dest source : Symbol) (path : CopyPath) :
    (emitCopy dest source path).Emits c fun _ ts xs =>
      CopyCode c.registry dest source path ts xs := by
  cases path with
  | direct =>
    refine (emits_load dest _).bind fun _ ts xs hdest => ?_
    refine (emits_load source _).bind fun _ ts' xs' hsrc => ?_
    refine emits_last (emits_emitHash rfl dest.valueType.hash) fun _ hxs => ?_
    rw [hxs, List.append_nil]
    exact .direct hdest hsrc
  | indirect =>
    refine emits_checking_bind fun k hk => ?_
    refine (emits_acquireTemporary _).bind fun pointer _ _ ⟨hts₁, hxs₁⟩ => ?_
    refine (emits_acquireTemporary _).bind fun value _ _ ⟨hts₂, hxs₂⟩ => ?_
    refine (emits_access c dest .get).bind fun _ ts xs hdest => ?_
    refine (emits_accessLocal .set pointer).bind fun _ _ _ ⟨hts₃, hxs₃⟩ => ?_
    refine (emits_load source .value).bind fun _ ts' xs' hsrc => ?_
    refine (emits_accessLocal .set value).bind fun _ _ _ ⟨hts₄, hxs₄⟩ => ?_
    refine (emits_accessLocal .get pointer).bind fun _ _ _ ⟨hts₅, hxs₅⟩ => ?_
    refine (emits_accessLocal .get value).bind fun _ _ _ ⟨hts₆, hxs₆⟩ => ?_
    refine (emits_storeOp k).mono fun _ _ _ ⟨hts₇, hxs₇⟩ => ?_
    subst hts₁ hxs₁ hts₂ hxs₂ hts₃ hxs₃ hts₄ hxs₄ hts₅ hxs₅ hts₆ hxs₆ hts₇ hxs₇
    simp only [List.nil_append, List.append_nil, List.cons_append]
    exact .indirect hk hdest hsrc
  | stack =>
    refine (emits_load source .value).bind fun _ ts xs hsrc => ?_
    exact (emits_access c dest .set).mono fun _ ts' xs' hdest => .stack hsrc hdest

section

variable (hb : b.Sound c d segs)
include hb

/-- An assignment fails, or copies along its path. -/
theorem assignBy_cases (forceStack : Bool) (dest source : Symbol) :
    (∃ e b', (assignBy forceStack dest source).outcome c b = (.error e, b') ∧
      b.Failed c.options b') ∨
    ∃ b' ts xs, (assignBy forceStack dest source).outcome c b = (.ok (), b'.release c.options) ∧
      (atomically (emitCopy dest source (c.copyPath dest source forceStack))).outcome c b =
        (.ok (), b') ∧
      dest.context = c.id ∧ source.context = c.id ∧
      (dest.capabilities.assign ∧ c.compatible dest source) ∧
      CopyCode c.registry dest source (c.copyPath dest source forceStack) ts xs ∧
      b.Grows b' ∧ b.Emitted b' ts xs := by
  have hrefused : b.Failed c.options b := .refl _ hb.pool
  unfold assignBy
  rw [outcome_bind, outcome_read]
  simp only [outcome_checking_bind]
  cases hdest : c.checkSymbol dest with
  | error e => exact .inl ⟨e, b, rfl, hrefused⟩
  | ok =>
    cases hsrc : c.checkSymbol source with
    | error e => exact .inl ⟨e, b, rfl, hrefused⟩
    | ok =>
      by_cases hassign : dest.capabilities.assign
      · rw [if_neg (by simpa using hassign)]
        by_cases hcompatible : c.compatible dest source
        · rw [if_neg (by simpa using hcompatible)]
          rcases (emits_copy dest source _).releasing hb with hfail |
              ⟨_, b', ts, xs, hout, hcopy, hcode, hgrows, hemit⟩
          · exact .inl hfail
          · exact .inr ⟨b', ts, xs, hout, hcopy, checkSymbol_ok hdest,
              checkSymbol_ok hsrc, ⟨hassign, hcompatible⟩, hcode, hgrows, hemit⟩
        · rw [if_pos (by simpa using hcompatible)]
          exact .inl ⟨_, b, rfl, hrefused⟩
      · rw [if_pos (by simpa using hassign)]
        exact .inl ⟨_, b, rfl, hrefused⟩

/-- A statement fails, or evaluates its symbol and drops the value. -/
theorem statement_cases (s : Symbol) :
    (∃ e b', (statement s).outcome c b = (.error e, b') ∧ b.Failed c.options b') ∨
    ∃ b' ts xs, (statement s).outcome c b = (.ok (), b'.release c.options) ∧ s.context = c.id ∧
      Code c.registry (.load s .value) ts xs ∧ b.Grows b' ∧
      b.Emitted b' ts (xs ++ if s.dataType.isVoid then [] else [.plain .pop]) := by
  unfold statement
  rw [outcome_checking_bind]
  cases hcheck : c.checkSymbol s with
  | error e => exact .inl ⟨e, b, rfl, .refl _ hb.pool⟩
  | ok =>
    have hemits : (do
        emitLoad s .value
        if !s.dataType.isVoid then onEmitter (emit .pop) : Emission Unit).Emits c
          fun _ ts ys => ∃ xs, Code c.registry (.load s .value) ts xs ∧
            ys = xs ++ if s.dataType.isVoid then [] else [.plain .pop] := by
      cases s.dataType.isVoid with
      | true =>
        exact (emits_load s .value).bind fun _ ts xs hcode =>
          emits_pure () ⟨xs, by simpa using hcode, by simp⟩
      | false =>
        exact .last (emits_load s .value) (emits_emit rfl) fun ts xs hcode => ⟨xs, hcode, rfl⟩
    rcases hemits.releasing hb with
      hfail | ⟨_, b', ts, ys, hout, -, ⟨xs, hcode, rfl⟩, hgrows, hemit⟩
    · exact .inl hfail
    · exact .inr ⟨b', ts, xs, hout, checkSymbol_ok hcheck, hcode, hgrows, hemit⟩

/-- A return without value fails, or is emitted in a function without result. -/
theorem returnVoid_cases :
    (∃ e b', (returnValue none).outcome c b = (.error e, b') ∧ b.Failed c.options b') ∨
    ∃ b', (returnValue none).outcome c b = (.ok (), b'.release c.options) ∧
      c.function.returns.isVoid ∧ b.Grows b' ∧ b.Emitted b' [] [.plain .retVoid] := by
  unfold returnValue
  rw [outcome_bind, outcome_read]
  dsimp only
  rw [outcome_releasing]
  by_cases hvoid : c.function.returns.isVoid
  · rw [if_neg (by simpa using hvoid)]
    have hemit : (emit .retVoid).Emits _ := emits_emit rfl
    obtain ⟨hgrows, hok⟩ := emits_onEmitter (c := c) hemit b hb.pool
    obtain ⟨_, _, ⟨hts, hxs⟩, hemitted⟩ := hok () rfl
    subst hts hxs
    exact .inr ⟨_, rfl, hvoid, hgrows, hemitted⟩
  · rw [if_pos (by simpa using hvoid)]
    exact .inl ⟨_, _, rfl, .released _ hb.pool⟩

/-- A return with a value fails, or is emitted in a function with a fitting result. -/
theorem returnValue_cases (s : Symbol) :
    (∃ e b', (returnValue (some s)).outcome c b = (.error e, b') ∧ b.Failed c.options b') ∨
    ∃ b' ts xs, (returnValue (some s)).outcome c b = (.ok (), b'.release c.options) ∧
      s.context = c.id ∧ c.function.returns.isVoid = false ∧
      c.registry.assignable s.valueType.hash c.function.returns.hash ∧
      Code c.registry (.load s .value) ts xs ∧ b.Grows b' ∧
      b.Emitted b' ts (xs ++ [.plain .ret]) := by
  unfold returnValue
  rw [outcome_bind, outcome_read]
  simp only [outcome_checking_bind]
  cases hcheck : c.checkSymbol s with
  | error e => exact .inl ⟨e, b, rfl, .refl _ hb.pool⟩
  | ok =>
    by_cases hrefused : (c.function.returns.isVoid ||
        !c.registry.assignable s.valueType.hash c.function.returns.hash) = true
    · rw [if_pos hrefused]
      exact .inl ⟨_, b, rfl, .refl _ hb.pool⟩
    rw [if_neg hrefused]
    have hemits : (do
        emitLoad s .value
        onEmitter (emit .ret) : Emission Unit).Emits c
          fun _ ts ys => ∃ xs, Code c.registry (.load s .value) ts xs ∧ ys = xs ++ [.plain .ret] :=
      .last (emits_load s .value) (emits_emit rfl) fun ts xs hcode => ⟨xs, hcode, rfl⟩
    obtain ⟨hvalued, hassign⟩ : c.function.returns.isVoid = false ∧
        c.registry.assignable s.valueType.hash c.function.returns.hash = true := by
      simpa using hrefused
    rcases hemits.releasing hb with
      hfail | ⟨_, b', ts, ys, hout, -, ⟨xs, hcode, rfl⟩, hgrows, hemit⟩
    · exact .inl hfail
    · exact .inr ⟨b', ts, xs, hout, checkSymbol_ok hcheck, hvalued, hassign, hcode, hgrows, hemit⟩

end

/-! ### Jumps and guards -/

/-- A scope with its labels becomes the innermost one. -/
def pushScope (kind : ScopeKind) (ends : Label × Label) : Emission ScopeHandle := do
  let id := (← get).scopes.closed.size
  modify fun b => { b with scopes := b.scopes.push kind ends.1 ends.2 }
  return ⟨(← read).id, id, kind⟩

theorem jump_cases (l : Label) (c : Setting) (b : Body) :
    (∃ e, (jump l).outcome c b = (.error e, b)) ∨
    ∃ e, (jump l).outcome c b = (.ok (), { b with emitter := e }) ∧
      (emitJump .jump l).outcome b.emitter = (.ok (), e) := by
  unfold jump
  rw [outcome_onEmitter]
  rcases emitJump_outcome .jump rfl l b.emitter with ⟨err, -, hout⟩ | ⟨s, i, t, -, -, -, -, hout, -⟩
  · rw [hout]
    exact .inl ⟨err, rfl⟩
  · rw [hout]
    exact .inr ⟨_, rfl, rfl⟩

/-- A guard loads its condition and leaves for a label, or does not get that far. -/
theorem emitGuard_cases (hpool : b.emitter.constants.Valid) (condition : Symbol) (l : Label) :
    (∃ e b', (emitGuard condition l).outcome c b = (.error e, b') ∧ b.Grows b') ∨
    ∃ b' ts xs e, (emitGuard condition l).outcome c b = (.ok (), { b' with emitter := e }) ∧
      Code c.registry (.load condition .value) ts xs ∧ b.Grows b' ∧ b.Emitted b' ts xs ∧
      (emitJump (.jumpIf false) l).outcome b'.emitter = (.ok (), e) := by
  obtain ⟨hgrows, hok⟩ := emits_load (c := c) condition .value b hpool
  unfold emitGuard
  rw [outcome_bind]
  rcases hload : (emitLoad condition .value).outcome c b with ⟨e | _, b'⟩
  · rw [hload] at hgrows
    exact .inl ⟨e, b', rfl, hgrows⟩
  rw [hload] at hgrows hok
  obtain ⟨ts, xs, hcode, hemit⟩ := hok () rfl
  dsimp only
  rw [outcome_onEmitter]
  rcases emitJump_outcome (.jumpIf false) rfl l b'.emitter with ⟨err, -, hout⟩ | ⟨s, i, t, -, -, -,
    -, hout, -⟩
  · rw [hout]
    exact .inl ⟨err, b', rfl, hgrows⟩
  · rw [hout]
    exact .inr ⟨b', ts, xs, _, rfl, hcode, hgrows, hemit, hout⟩

theorem checkCondition_bind (s : Symbol) (f : Unit → Emission α) :
    (∃ e, (checkCondition s >>= f).outcome c b = (.error e, b)) ∨
    (s.context = c.id ∧ s.valueType.hash = .bool ∧
      (checkCondition s >>= f).outcome c b = (f ()).outcome c b) := by
  unfold checkCondition
  rw [outcome_checking_bind]
  cases hcheck : c.checkSymbol s with
  | error e => exact .inl ⟨e, rfl⟩
  | ok =>
    by_cases hbool : s.valueType.hash = .bool
    · refine .inr ⟨checkSymbol_ok hcheck, hbool, ?_⟩
      simp only [bind, Except.bind, hbool]
      rfl
    · refine .inl ⟨.noConversion (c.registry.describe s.valueType)
        (c.registry.describe (.plain .bool)), ?_⟩
      rw [if_pos hbool]
      rfl

theorem outcome_findScope (h : ScopeHandle) (c : Setting) (b : Body) : (findScope h).outcome c b =
    (c.check h.context >>= fun _ => b.scopes.find h.id, b) := by
  unfold findScope
  rw [outcome_checking_bind]
  cases c.check h.context with
  | error e => rfl
  | ok =>
    rw [outcome_bind, outcome_get]
    exact outcome_ofExcept _

theorem findScope_bind (h : ScopeHandle) (f : OpenScope → Emission α) :
    (∃ e, (findScope h >>= f).outcome c b = (.error e, b)) ∨
    ∃ o, h.context = c.id ∧ b.scopes.find h.id = .ok o ∧
    (findScope h >>= f).outcome c b = (f o).outcome c b := by
  rw [outcome_bind, outcome_findScope]
  cases hcheck : c.check h.context with
  | error e => exact .inl ⟨e, rfl⟩
  | ok =>
    have hctx : h.context = c.id := by
      unfold Setting.check at hcheck
      split at hcheck
      · assumption
      · cases hcheck
    cases ho : b.scopes.find h.id with
    | error e => exact .inl ⟨e, rfl⟩
    | ok o => exact .inr ⟨o, hctx, rfl, rfl⟩

theorem breakIfFalse_cases (hb : b.Sound c d segs) (h : ScopeHandle) (condition : Symbol) :
    (∃ e b', (breakIfFalse h condition).outcome c b = (.error e, b') ∧ b.Failed c.options b') ∨
    ∃ o b' ts xs e, b.scopes.find h.id = .ok o ∧ (breakIfFalse h condition).outcome c b =
        (.ok (), Body.release { b' with emitter := e } c.options) ∧
      condition.context = c.id ∧ condition.valueType.hash = .bool ∧
      Code c.registry (.load condition .value) ts xs ∧ b.Grows b' ∧ b.Emitted b' ts xs ∧
      (emitJump (.jumpIf false) o.exit).outcome b'.emitter = (.ok (), e) := by
  have hrefused : b.Failed c.options b := .refl _ hb.pool
  unfold breakIfFalse
  rcases findScope_bind h _ with ⟨e, hout⟩ | ⟨o, -, ho, hout⟩
  · exact .inl ⟨e, b, hout, hrefused⟩
  rw [hout]
  rcases checkCondition_bind condition _ with ⟨e, hout⟩ | ⟨hctx, hbool, hout⟩
  · exact .inl ⟨e, b, hout, hrefused⟩
  rw [hout, outcome_releasing, outcome_atomically]
  rcases emitGuard_cases hb.pool condition o.exit with ⟨e, b', hguard, hgrows⟩ |
      ⟨b', ts, xs, e, hguard, hcode, hgrows, hemit, hjump⟩
  · rw [hguard]
    refine .inl ⟨e, _, rfl, b'.emitter.constants, hgrows.emitter.constants,
      hgrows.emitter.valid hb.pool, .inr ?_⟩
    simp only [hgrows.restore hb.restorable]
  · rw [hguard]
    exact .inr ⟨o, b', ts, xs, e, ho, rfl, hctx, hbool, hcode, hgrows, hemit, hjump⟩

end Emission

end StackCode
