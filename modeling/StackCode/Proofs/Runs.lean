import StackCode.Proofs.Scopes

/-!
# Runs of sessions

Whatever a user does with a context, its body stays in order: its code consists of segments, of
which there only come to be more, its open scopes can be closed, and the symbols that the user holds
are made from slots that exist.
-/

namespace StackCode

open Emission List

variable {c : Setting} {d : Discipline} {held : List Label} {b : Body} {segs : List Listing}
  {op : Operation} {options : EmitOptions} {xs : List Command} {type : DataType} {s : Symbol}

namespace Body

/-- A body in order, when the user holds some labels. -/
structure Proper (c : Setting) (d : Discipline) (held : List Label) (b : Body)
    (segs : List Listing) : Prop where
  sound : b.Sound c d segs
  scopes : b.emitter.labels.Scoped b.scopes.opened held

/-- A body in order that has come of another: the segments are still there. -/
def Leads (c : Setting) (d : Discipline) (held : List Label) (b : Body) (segs : List Listing)
    (b' : Body) : Prop :=
  ∃ segs', b'.Proper c d held segs' ∧ segs.map Listing.commands <+: segs'.map Listing.commands ∧
    b.locals.toList <+: b'.locals.toList

variable {b' : Body}

theorem Proper.leads (hb : b.Proper c d held segs) : b.Leads c d held segs b :=
  ⟨segs, hb, prefix_refl _, prefix_refl _⟩

theorem Leads.release (h : b.Leads c d held segs b') (options : EmitOptions) :
    b.Leads c d held segs (b'.release options) := by
  obtain ⟨segs', hb, hsegs, hlocs⟩ := h
  exact ⟨segs', ⟨hb.sound.release options, hb.scopes⟩, hsegs, hlocs⟩

section

variable (hb : b.Proper c d held segs)
include hb

/-- A failed operation leaves the body in order. -/
theorem Proper.failed (h : b.Failed options b') : b.Leads c d held segs b' := by
  have hsound := h.sound hb.sound
  obtain ⟨k, -, -, rfl | rfl⟩ :=
    h <;> exact ⟨segs, ⟨hsound, hb.scopes⟩, prefix_refl _, prefix_refl _⟩

/-- Two labels that nobody knows do no harm. -/
theorem Proper.withScope : b.withScope.Proper c d held segs :=
  ⟨hb.sound.define.define, hb.scopes.mono LabelTable.sameMarks_opened rfl⟩

theorem Proper.gains (hgains : b.Gains c d xs b') :
    ∃ seg : Listing, seg.commands = xs ∧ b'.Proper c d held (segs ++ [seg]) := by
  obtain ⟨seg, hcmds, hsound⟩ := hb.sound.gains hgains
  refine ⟨seg, hcmds, hsound, ?_⟩
  cases hgains with
  | straight hgrows =>
    rw [hgrows.emitter.labels, hgrows.scopes]
    exact hb.scopes
  | jump hgrows _ _ hop hjump =>
    have hmarks := Emitter.sameMarks_jump hop hjump
    rw [hgrows.emitter.labels] at hmarks
    rw [hgrows.scopes]
    exact hb.scopes.mono hmarks (hsound.context.trans hb.sound.context.symm)

theorem Proper.leads_gains (hgains : b.Gains c d xs b') : b.Leads c d held segs b' := by
  obtain ⟨seg, -, hproper⟩ := hb.gains hgains
  refine ⟨_, hproper, by simp, ?_⟩
  cases hgains with
  | straight hgrows | jump hgrows => exact hgrows.locals

/-- A label is marked that is not the exit of an open scope. -/
theorem Proper.mark {index : Nat} {s : LabelState} (hs : b.emitter.labels.labels[index]? = some s)
    (hpos : s.position = none) (hsmall : b.emitter.offset < 4294967296)
    (hexit : ∀ o ∈ b.scopes.opened, index ≠ o.exit.index) :
    b.Leads c d held segs { b with emitter := b.emitter.withMark index s } := by
  refine ⟨_, ⟨hb.sound.mark hs hpos hsmall, hb.scopes.mark hs hexit⟩, ?_, prefix_refl _⟩
  simp only [map_map, Function.comp_def, Listing.commands_patched]
  exact prefix_refl _

end

end Body

namespace Answer

/-- The labels that an answer hands out. -/
def labels : Answer → List Label
  | .label l => [l]
  | _ => []

/-- The symbols that an answer hands out. -/
def symbols : Answer → List Symbol
  | .symbol s => [s]
  | _ => []

end Answer

/-! ### How operations end -/

namespace Operation

variable {b' : Body}

/-- How an operation can end. The one failure that is not as if nothing had happened is that of
closing a loop or a block where the code becomes too long. -/
def Ends (c : Setting) (d : Discipline) (held : List Label) (b : Body) (segs : List Listing)
    (op : Operation) : Except EmitError Answer × Body → Prop
  | (.error e, b') =>
    b.Failed c.options b' ∨ b.withScope.Failed c.options b' ∨
      b.Leads c d held segs b' ∧ ∃ h o rest bytes, op = .closeScope h ∧
        b.scopes.opened = o :: rest ∧ o.kind ≠ .branch ∧ bytes.length ≤ 5 ∧
        b' = { b with emitter := b.emitter.write bytes } ∧ 4294967296 ≤ b'.emitter.offset ∧
        e = .invalidOperand (.jumpTarget b'.emitter.offset)
  | (.ok a, b') =>
    b.Leads c d (a.labels ++ held) segs b' ∧ ∀ x ∈ a.symbols, c.Made d b'.locals x

theorem ends_done (h : b.Leads c d held segs b') : Ends c d held b segs op (.ok .done, b') :=
  ⟨h, by simp [Answer.symbols]⟩

theorem ends_of_cases {x : Emission Unit}
    (h : (∃ e b', x.outcome c b = (.error e, b') ∧ Ends c d held b segs op (.error e, b')) ∨
      ∃ b', x.outcome c b = (.ok (), b') ∧ b.Leads c d held segs b') :
    Ends c d held b segs op ((do x; return Answer.done : Emission Answer).outcome c b) := by
  rw [outcome_bind]
  rcases h with ⟨e, b', hout, hends⟩ | ⟨b', hout, hleads⟩
  · rwa [hout]
  · rw [hout]
    exact ends_done hleads

section Ends

variable (hb : b.Proper c d held segs)
include hb

theorem ends_refused (e : EmitError) : Ends c d held b segs op (.error e, b) :=
  .inl (.refl _ hb.sound.pool)

theorem ends_make {f : Factory} (hallow : d.make f)
    (hsyms : ∀ x ∈ f.parts, x.context = c.id → c.Made d b.locals x) :
    Ends c d held b segs (.make f) ((make f).emission.outcome c b) := by
  show Ends c d held b segs (.make f) ((Emission.checking f.make >>= _).outcome c b)
  rw [outcome_checking_bind]
  cases hmake : f.make c with
  | error e => exact ends_refused hb e
  | ok s =>
    refine ⟨hb.leads, fun x hx => ?_⟩
    rw [mem_singleton.mp hx]
    refine .factory hmake hallow fun p hp => hsyms p hp ?_
    exact (Factory.make_ok hmake).2.2 p hp

theorem ends_declare (hallow : d.type type) :
    Ends c d held b segs (.declare type) ((declare type).emission.outcome c b) := by
  show Ends c d held b segs _ ((Emission.declareVariable type >>= _).outcome c b)
  rw [outcome_bind]
  rcases declareVariable_cases type c b with ⟨e, hout⟩ | ⟨hroom, hout⟩
  · rw [hout]
    exact ends_refused hb e
  · rw [hout]
    have hlimit := c.options.maxLocals.toNat_lt
    refine ⟨⟨segs, ⟨hb.sound.declare hallow (by omega), hb.scopes⟩, prefix_refl _, by simp⟩,
      fun x hx => ?_⟩
    rw [mem_singleton.mp hx]
    refine .declared ?_
    rw [UInt16.toNat_ofNat', Nat.mod_eq_of_lt (by omega)]
    simp

theorem ends_load {intent : LoadIntent} (hallow : d.load s)
    (hs : s.context = c.id → c.Made d b.locals s) :
    Ends c d held b segs (.load s intent) ((Operation.load s intent).emission.outcome c b) := by
  refine ends_of_cases ?_
  rcases load_cases hb.sound s intent with ⟨e, k, hout, hpool, hvalid⟩ |
      ⟨b', ts, xs, hout, hctx, hcode, hgrows, hemit⟩
  · exact .inl ⟨e, _, hout, .inl ⟨k, hpool, hvalid, .inl rfl⟩⟩
  · exact .inr ⟨b', hout,
      hb.leads_gains (.straight hgrows hemit hcode.straight (.load (hs hctx) hallow hcode))⟩

theorem ends_assign {dest source : Symbol} (forceStack : Bool)
    (hallow : d.operand dest ∧ d.operand source)
    (hdest : dest.context = c.id → c.Made d b.locals dest)
    (hsrc : source.context = c.id → c.Made d b.locals source) :
    Ends c d held b segs op
      ((do Emission.assignBy forceStack dest source; return .done : Emission Answer).outcome
        c b) := by
  refine ends_of_cases ?_
  rcases assignBy_cases hb.sound forceStack dest source with ⟨e, b', hout, hfail⟩ |
      ⟨b', ts, xs, hout, -, hd, hs, hacc, hcode, hgrows, hemit⟩
  · exact .inl ⟨e, b', hout, .inl hfail⟩
  · exact .inr ⟨_, hout, (hb.leads_gains (.straight hgrows hemit hcode.straight
      (.copy (hdest hd) (hsrc hs) hallow hacc hcode))).release _⟩

theorem ends_statement (hallow : d.statement s) (hs : s.context = c.id → c.Made d b.locals s) :
    Ends c d held b segs (.statement s) ((statement s).emission.outcome c b) := by
  refine ends_of_cases ?_
  rcases statement_cases hb.sound s with ⟨e, b', hout, hfail⟩ | ⟨b', ts, xs, hout, hctx, hcode,
    hgrows, hemit⟩
  · exact .inl ⟨e, b', hout, .inl hfail⟩
  · refine .inr ⟨_, hout, (hb.leads_gains (.straight hgrows hemit (straight_append.mpr
      ⟨hcode.straight, ?_⟩) (.statement (hs hctx) hallow hcode))).release _⟩
    cases s.dataType.isVoid
    · exact straight_plain _
    · exact straight_nil

theorem ends_returnValue {value : Option Symbol} (hallow : ∀ s ∈ value, d.operand s)
    (hval : ∀ s ∈ value, s.context = c.id → c.Made d b.locals s) :
    Ends c d held b segs (.returnValue value) ((returnValue value).emission.outcome c b) := by
  refine ends_of_cases ?_
  cases value with
  | none =>
    rcases returnVoid_cases hb.sound with ⟨e, b', hout, hfail⟩ | ⟨b', hout, hret, hgrows, hemit⟩
    · exact .inl ⟨e, b', hout, .inl hfail⟩
    · exact .inr ⟨_, hout, (hb.leads_gains (.straight hgrows hemit (straight_plain _)
        (.returnVoid hret))).release _⟩
  | some s =>
    rcases returnValue_cases hb.sound s with ⟨e, b', hout, hfail⟩ |
        ⟨b', ts, xs, hout, hctx, hret, hassign, hcode, hgrows, hemit⟩
    · exact .inl ⟨e, b', hout, .inl hfail⟩
    · exact .inr ⟨_, hout, (hb.leads_gains (.straight hgrows hemit
        (straight_append.mpr ⟨hcode.straight, straight_plain _⟩)
        (.returnValue (hval s rfl hctx) (hallow s rfl) hret hassign hcode))).release _⟩

/-- A label is marked that the user holds, so it is not the exit of an open scope. -/
theorem ends_markLabel {l : Label} (hl : l.context = c.id → l ∈ held) :
    Ends c d held b segs (.markLabel l) ((markLabel l).emission.outcome c b) := by
  refine ends_of_cases ?_
  unfold Emission.markLabel
  rw [outcome_onEmitter, (hb.sound.linked.fillable l).markLabel_outcome]
  cases hs : b.emitter.labels.state l with
  | error e => exact .inl ⟨e, b, rfl, ends_refused hb e⟩
  | ok s =>
    obtain ⟨hctx, hlabel⟩ := LabelTable.state_ok hs
    have hexit := (hb.scopes.held l (hl (hctx.trans hb.sound.context))).2
    obtain ⟨_ | p, fixups⟩ := s
    · by_cases hlarge : 4294967296 ≤ b.emitter.offset
      · exact .inl ⟨.invalidOperand (.jumpTarget b.emitter.offset), b, by simp [hlarge],
          ends_refused hb _⟩
      · exact .inr ⟨_, by simp [hlarge], hb.mark hlabel rfl (by omega) hexit⟩
    · exact .inl ⟨_, b, rfl, ends_refused hb _⟩

theorem leads_jump (l : Label) : (∃ e, (Emission.jump l).outcome c b = (.error e, b)) ∨
    ∃ b', (Emission.jump l).outcome c b = (.ok (), b') ∧ b.Leads c d held segs b' := by
  rcases jump_cases l c b with hrefused | ⟨e, hout, hjump⟩
  · exact .inl hrefused
  · exact .inr ⟨_, hout, hb.leads_gains (.jump (.refl b) (.refl b) straight_nil rfl hjump .jump)⟩

theorem ends_jump (l : Label) : Ends c d held b segs (.jump l) ((jump l).emission.outcome c b) := by
  refine ends_of_cases ?_
  rcases leads_jump hb l with ⟨e, hout⟩ | hok
  · exact .inl ⟨e, b, hout, ends_refused hb e⟩
  · exact .inr hok

/-- A scope is opened: its entry is marked, and nobody holds its exit. -/
theorem ends_openScope (kind : ScopeKind) {condition : Option Symbol}
    (hallow : ∀ s ∈ condition, d.operand s)
    (hcond : ∀ s ∈ condition, s.context = c.id → c.Made d b.locals s) :
    Ends c d held b segs (.openScope kind condition)
      ((openScope kind condition).emission.outcome c b) := by
  show Ends c d held b segs _ ((Emission.openScope kind condition >>= _).outcome c b)
  rw [outcome_bind]
  rcases openScope_cases hb.sound kind hcond hallow with
    ⟨e, b', hout, hfail | hfail⟩ | ⟨b', hout, hopen⟩
  · rw [hout]
    exact .inl hfail
  · rw [hout]
    exact .inr (.inl hfail)
  · rw [hout]
    obtain ⟨⟨p, fixups, henter, -⟩, segs', hsound, hsegs, -⟩ := hopen
    refine ⟨⟨segs', ⟨(hsound.release c.options).withScopes _, ?_⟩, hsegs, henter.locals⟩,
      by simp [Answer.symbols]⟩
    show b'.emitter.labels.Scoped (_ :: b.scopes.opened) held
    rw [henter.labels, ← hb.sound.context]
    exact hb.scopes.push p fixups _ kind

theorem ends_closeScope (h : ScopeHandle) :
    Ends c d held b segs (.closeScope h) ((closeScope h).emission.outcome c b) := by
  refine ends_of_cases ?_
  rcases closeScope_cases hb.sound hb.scopes h with ⟨e, hout⟩ |
      ⟨o, rest, bytes, segs', hopen, ⟨hlen, hsound, hsegs, -⟩, hend⟩
  · exact .inl ⟨e, b, hout, ends_refused hb e⟩
  have hscopes : b.emitter.labels.Scoped (o :: rest) held := hopen ▸ hb.scopes
  rcases hend with ⟨hlarge, hkind, hout⟩ | ⟨s, hs, hpos, hsmall, hout⟩
  · refine .inl ⟨_, _, hout, .inr (.inr ⟨⟨segs', ⟨hsound, hb.scopes⟩, hsegs, prefix_refl _⟩, ?_⟩)⟩
    exact ⟨h, o, rest, bytes, rfl, hopen, hkind, hlen ▸ o.kind.closingSize_le, rfl, hlarge, rfl⟩
  · refine .inr ⟨_, hout, _, ⟨(hsound.mark hs hpos hsmall).withScopes _, ?_⟩, ?_, prefix_refl _⟩
    · show LabelTable.Scoped _ b.scopes.opened.tail held
      rw [hopen]
      exact hscopes.tail.mark hs fun o' ho => hscopes.exit_ne ho
    · simpa only [map_map, Function.comp_def, Listing.commands_patched] using hsegs

theorem ends_breakScope (h : ScopeHandle) :
    Ends c d held b segs (.breakScope h) ((breakScope h).emission.outcome c b) := by
  refine ends_of_cases ?_
  unfold Emission.breakScope
  rcases findScope_bind h _ with ⟨e, hout⟩ | ⟨o, -, -, hout⟩
  · exact .inl ⟨e, b, hout, ends_refused hb e⟩
  rw [hout]
  rcases leads_jump hb o.exit with ⟨e, hout⟩ | hok
  · exact .inl ⟨e, b, hout, ends_refused hb e⟩
  · exact .inr hok

theorem ends_continueLoop (h : ScopeHandle) :
    Ends c d held b segs (.continueLoop h) ((continueLoop h).emission.outcome c b) := by
  refine ends_of_cases ?_
  unfold Emission.continueLoop
  rcases findScope_bind h _ with ⟨e, hout⟩ | ⟨o, -, -, hout⟩
  · exact .inl ⟨e, b, hout, ends_refused hb e⟩
  rw [hout]
  by_cases hloop : h.kind = .loop
  · rw [if_neg (by simpa using hloop)]
    rcases leads_jump hb o.entry with ⟨e, hout⟩ | hok
    · exact .inl ⟨e, b, hout, ends_refused hb e⟩
    · exact .inr hok
  · rw [if_pos hloop]
    exact .inl ⟨_, b, rfl, ends_refused hb _⟩

theorem ends_breakIfFalse (h : ScopeHandle) (hallow : d.operand s)
    (hs : s.context = c.id → c.Made d b.locals s) :
    Ends c d held b segs (.breakIfFalse h s) ((breakIfFalse h s).emission.outcome c b) := by
  refine ends_of_cases ?_
  rcases breakIfFalse_cases hb.sound h s with ⟨e, b', hout, hfail⟩ |
      ⟨o, b', ts, xs, e, -, hout, hctx, hbool, hcode, hgrows, hemit, hjump⟩
  · exact .inl ⟨e, b', hout, .inl hfail⟩
  · exact .inr ⟨_, hout, (hb.leads_gains (.jump hgrows hemit hcode.straight rfl hjump
      (.guard (hs hctx) hallow hbool hcode))).release _⟩

theorem ends_acquireTemporary (hallow : d.type type) : Ends c d held b segs (.acquireTemporary type)
      ((acquireTemporary type).emission.outcome c b) := by
  obtain ⟨hgrows, hok⟩ := emits_acquireTemporary (c := c) type b hb.sound.pool
  show Ends c d held b segs _ ((Emission.acquireTemporary type >>= _).outcome c b)
  rw [outcome_bind]
  have hkept : ∀ e b', (Emission.acquireTemporary type).outcome c b = (.error e, b') → b' = b := by
    intro e b' hout
    rw [outcome_acquireTemporary] at hout
    split at hout
    · cases hout
    · split at hout <;> cases hout
      rfl
  have hemitter : ((Emission.acquireTemporary type).outcome c b).2.emitter = b.emitter := by
    rw [outcome_acquireTemporary]
    split
    · rfl
    · split <;> rfl
  rcases hout : (Emission.acquireTemporary type).outcome c b with ⟨e | slot, b'⟩
  · rw [hkept e b' hout]
    exact ends_refused hb e
  · rw [hout] at hgrows hok hemitter
    obtain ⟨_, _, ⟨rfl, rfl⟩, hemit⟩ := hok slot rfl
    refine ⟨⟨segs, ⟨hb.sound.acquired hgrows hallow hemit hemitter, ?_⟩, prefix_refl _,
      hgrows.locals⟩, by simp [Answer.symbols]⟩
    rw [hemitter, hgrows.scopes]
    exact hb.scopes

theorem ends (hallow : d.Allows op) (hsyms : ∀ x ∈ op.symbols, x.context = c.id →
    c.Made d b.locals x)
    (hlabels : ∀ l ∈ op.labels, l.context = c.id → l ∈ held) :
    Ends c d held b segs op (op.emission.outcome c b) := by
  cases op with
  | make f => exact ends_make hb hallow hsyms
  | declare type => exact ends_declare hb hallow
  | load s intent => exact ends_load hb hallow (hsyms s (by simp [symbols]))
  | assign dest source | assignStackMediated dest source =>
    exact ends_assign hb _ hallow (hsyms dest (by simp [symbols]))
      (hsyms source (by simp [symbols]))
  | statement s => exact ends_statement hb hallow (hsyms s (by simp [symbols]))
  | returnValue value =>
    exact ends_returnValue hb hallow fun s hs => hsyms s (by simpa [symbols] using hs)
  | defineLabel =>
    exact ⟨⟨segs, ⟨hb.sound.define, hb.scopes.define⟩, prefix_refl _, prefix_refl _⟩,
      by simp [Answer.symbols]⟩
  | markLabel l => exact ends_markLabel hb (hlabels l (by simp [labels]))
  | jump l => exact ends_jump hb l
  | openScope kind condition =>
    exact ends_openScope hb kind hallow fun s hs => hsyms s (by simpa [symbols] using hs)
  | closeScope h => exact ends_closeScope hb h
  | breakScope h => exact ends_breakScope hb h
  | continueLoop h => exact ends_continueLoop hb h
  | breakIfFalse h s => exact ends_breakIfFalse hb h hallow (hsyms s (by simp [symbols]))
  | acquireTemporary type => exact ends_acquireTemporary hb hallow
  | release => exact ends_done (hb.leads.release c.options)
  | setLine line =>
    exact ends_done ⟨segs, ⟨hb.sound.setLine line, hb.scopes⟩, prefix_refl _, prefix_refl _⟩

end Ends

end Operation

namespace Session

variable {s s' : Session}

/-- What holds of every session whose user keeps to a discipline. -/
structure Inv (d : Discipline) (s : Session) (segs : List Listing) : Prop where
  body : s.body.Proper s.setting d s.labels segs
  symbols : ∀ x ∈ s.symbols, s.setting.Made d s.body.locals x

theorem inv_start (id : ContextId) (registry : Registry) (function : FunctionDecl)
    (options : EmitOptions) (d : Discipline) : (start id registry function options).Inv d [] where
  body := ⟨Body.sound_start _ d, ⟨by simp [start, body, Context.start, Body.start],
    by simp [start, body, Context.start, Body.start],
    by simp [start, body, Context.start, Body.start], by simp [start]⟩⟩
  symbols := by simp [start]

/-- How an operation that is permitted can end. -/
theorem Inv.ends (h : s.Inv d segs) (hpermit : s.Permits op) (hallow : d.Allows op) :
    Operation.Ends s.setting d s.labels s.body segs op (op.emission.outcome s.setting s.body) := by
  refine Operation.ends h.body hallow (fun x hx hctx => ?_) fun l hl hctx => ?_
  · exact h.symbols x ((hpermit.symbols x hx).resolve_right fun hne => hne hctx)
  · exact (hpermit.labels l hl).resolve_right fun hne => hne hctx

theorem Inv.leads (h : s.Inv d segs) (a : Answer)
    (hleads : s.body.Leads s.setting d (a.labels ++ s.labels) segs b)
    (hsyms : ∀ x ∈ a.symbols, s.setting.Made d b.locals x) :
    ∃ segs', ({ s with context := ⟨s.setting, b⟩ }.keep a).Inv d segs' ∧
    Listing.Begins segs segs' := by
  obtain ⟨segs', hproper, hsegs, hlocs⟩ := hleads
  have hkept : ∀ x ∈ s.symbols, s.setting.Made d b.locals x := fun x hx =>
    (h.symbols x hx).mono hlocs
  refine ⟨segs', ?_, hsegs⟩
  cases a with
  | symbol x =>
    refine ⟨hproper, forall_mem_cons.mpr ⟨hsyms x (by simp [Answer.symbols]), hkept⟩⟩
  | done | label _ | scope _ | slot _ => exact ⟨hproper, hkept⟩

theorem Inv.step (h : s.Inv d segs) (hstep : Step d.Allows s s') :
    ∃ segs', s'.Inv d segs' ∧ Listing.Begins segs segs' ∧ s'.setting = s.setting := by
  obtain ⟨op, hpermit, hallow, rfl⟩ := hstep
  have hends := h.ends hpermit hallow
  rw [perform_eq]
  rcases hout : op.emission.outcome s.setting s.body with ⟨e | a, b⟩ <;> rw [hout] at hends
  · have hleads : s.body.Leads s.setting d s.labels segs b := by
      rcases hends with hfail | hfail | ⟨hleads, -⟩
      · exact h.body.failed hfail
      · exact h.body.withScope.failed hfail
      · exact hleads
    obtain ⟨segs', hinv, hsegs⟩ := h.leads .done hleads (by simp [Answer.symbols])
    exact ⟨segs', hinv, hsegs, rfl⟩
  · obtain ⟨segs', hinv, hsegs⟩ := h.leads a hends.1 hends.2
    exact ⟨segs', hinv, hsegs, by cases a <;> rfl⟩

theorem Inv.steps (h : s.Inv d segs) (hsteps : Steps d.Allows s s') :
    ∃ segs', s'.Inv d segs' ∧ Listing.Begins segs segs' ∧ s'.setting = s.setting := by
  induction hsteps with
  | refl => exact ⟨segs, h, prefix_refl _, rfl⟩
  | tail _ hstep ih =>
    obtain ⟨segs₁, hinv, hsegs, hsetting⟩ := ih
    obtain ⟨segs₂, hinv', hsegs', hsetting'⟩ := hinv.step hstep
    exact ⟨segs₂, hinv', hsegs.trans hsegs', hsetting'.trans hsetting⟩

/-- Whatever was done with a context, its session is in order. -/
theorem inv_of_steps {id : ContextId} {registry : Registry} {function : FunctionDecl}
    (hsteps : Steps (fun _ => True) (start id registry function options) s) :
    ∃ segs, s.Inv .free segs ∧ s.setting = ⟨id, registry, function, options⟩ := by
  have hfree : Steps Discipline.free.Allows (start id registry function options) s :=
    hsteps.lift (fun s => s) fun _ _ ⟨op, hpermit, _, hperf⟩ =>
      ⟨op, hpermit, Discipline.free_allows op, hperf⟩
  obtain ⟨segs, hinv, -, hsetting⟩ := (inv_start id registry function options .free).steps hfree
  exact ⟨segs, hinv, hsetting⟩

end Session

end StackCode
