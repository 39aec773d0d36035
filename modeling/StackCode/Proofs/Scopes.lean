import StackCode.Proofs.Operations

/-!
# Scopes and their labels

The entry of an open scope is marked and its exit is not; the exits of open scopes are different
labels, and none of them is in the hands of the user. So a scope can always be closed, unless the
code has become too long for a jump.
-/

namespace StackCode

open LabelTable List Listing Emitter Option

variable {t : LabelTable} {index : Nat} {s : LabelState} {o : OpenScope} {segs segs' : List Listing}
  {held : List Label} {entry m : Option UInt32} {fixups : List Nat} {b b' : Body} {c : Setting}
  {d : Discipline} {e : Emitter} {op : Opcode} {condition : Option Symbol}

namespace Listing

/-- The last segment of a listing ends in a command. -/
def EndsIn (segs : List Listing) (x : Command) : Prop :=
  ∃ before xs, segs.map commands = before ++ [xs ++ [x]]

variable {x : Command}

theorem EndsIn.congr (h : EndsIn segs x) (hsegs : segs'.map commands = segs.map commands) :
    EndsIn segs' x := by
  obtain ⟨before, xs, hxs⟩ := h
  exact ⟨before, xs, hsegs.trans hxs⟩

theorem endsIn_snoc {seg : Listing} {xs : List Command} (h : seg.commands = xs ++ [x]) :
    EndsIn (segs ++ [seg]) x :=
  ⟨segs.map commands, xs, by rw [map_append, map_singleton, h]⟩

/-- The segments of a listing are the first ones of another, up to the targets of jumps. -/
abbrev Begins (segs segs' : List Listing) : Prop := segs.map commands <+: segs'.map commands

theorem begins_append (segs more : List Listing) : Begins segs (segs ++ more) := by simp [Begins]

theorem begins_of_eq (h : segs'.map commands = segs.map commands) : Begins segs segs' := by
  rw [Begins, h]

end Listing

namespace LabelTable

/-- Whether and where a label is marked, if it is one of the table. -/
def mark? (t : LabelTable) (l : Nat) : Option (Option UInt32) :=
  t.labels[l]?.map LabelState.position

/-- The labels of a table are the first labels of another, with the same marks. -/
def SameMarks (t t' : LabelTable) : Prop := ∀ l m, t.mark? l = some m → t'.mark? l = some m

theorem SameMarks.refl (t : LabelTable) : t.SameMarks t := fun _ _ h => h

theorem mark?_lt {l : Nat} (h : t.mark? l = some m) : l < t.labels.size := by
  obtain ⟨s, hs, -⟩ := map_eq_some_iff.mp h
  exact (Array.getElem?_eq_some_iff.mp hs).1

theorem mark?_set (s' : LabelState) (hs : t.labels[index]? = some s) (l : Nat) :
    (t.set index s').mark? l = if l = index then some s'.position else t.mark? l := by
  rw [mark?, labels_set s' hs]
  split <;> rfl

theorem mark?_define (t : LabelTable) (l : Nat) :
    t.define.2.mark? l = if l = t.labels.size then some none else t.mark? l := by
  rw [mark?, define, Array.getElem?_push]
  split <;> rfl

theorem sameMarks_define (t : LabelTable) : t.SameMarks t.define.2 := by
  intro l m h
  rwa [mark?_define, if_neg (Nat.ne_of_lt (mark?_lt h))]

theorem sameMarks_wait {f : Nat} (hs : t.labels[index]? = some s) :
    t.SameMarks (t.wait index s f) := by
  intro l m h
  rw [wait, mark?_set _ hs]
  split
  · rename_i hl
    subst hl
    rwa [mark?, hs] at h
  · exact h

end LabelTable

theorem Emitter.sameMarks_jump {e' : Emitter} (hop : op.sort = .label) {l : Label}
    (h : (emitJump op l).outcome e = (.ok (), e')) : e.labels.SameMarks e'.labels := by
  rcases emitJump_outcome op (Opcode.operandSize_of_sort_label hop) l e with
    ⟨err, -, herr⟩ | ⟨s, i, t, hs, -, -, -, hok, ht⟩
  · rw [h] at herr
    cases herr
  · rw [h] at hok
    cases hok
    rcases ht with ⟨p, -, -, rfl⟩ | ⟨-, rfl⟩
    · exact .refl _
    · exact sameMarks_wait (state_ok hs).2

/-- What is known of the open scopes of a table, and of the labels that the user holds. -/
structure LabelTable.Scoped (t : LabelTable) (opened : List OpenScope) (held : List Label) :
    Prop where
  entries : ∀ o ∈ opened, o.entry.context = t.context ∧ ∃ p, t.mark? o.entry.index = some (some p)
  exits : ∀ o ∈ opened, o.exit.context = t.context ∧ t.mark? o.exit.index = some none
  distinct : (opened.map fun o => o.exit.index).Nodup
  held : ∀ l ∈ held, l.index < t.labels.size ∧ ∀ o ∈ opened, l.index ≠ o.exit.index

namespace LabelTable.Scoped

variable {t' : LabelTable} {opened : List OpenScope}

theorem mono (h : t.Scoped opened held) (hmarks : t.SameMarks t') (hctx : t'.context = t.context) :
    t'.Scoped opened held where
  entries o ho := by
    obtain ⟨hent, p, hp⟩ := h.entries o ho
    exact ⟨hctx ▸ hent, p, hmarks _ _ hp⟩
  exits o ho := by
    obtain ⟨hexit, hmark⟩ := h.exits o ho
    exact ⟨hctx ▸ hexit, hmarks _ _ hmark⟩
  distinct := h.distinct
  held l hl := by
    obtain ⟨hlt, hne⟩ := h.held l hl
    refine ⟨?_, hne⟩
    have hmark : t.mark? l.index = some t.labels[l.index].position := by
      rw [mark?, Array.getElem?_eq_getElem hlt]
      rfl
    exact mark?_lt (hmarks _ _ hmark)

theorem define (h : t.Scoped opened held) : t.define.2.Scoped opened (t.define.1 :: held) := by
  have hkept := h.mono (sameMarks_define t) rfl
  refine ⟨hkept.entries, hkept.exits, h.distinct, fun l hl => ?_⟩
  rcases mem_cons.mp hl with rfl | hl
  · refine ⟨by simp [LabelTable.define], fun o ho heq => ?_⟩
    have hlt := mark?_lt (h.exits o ho).2
    rw [← heq] at hlt
    exact Nat.lt_irrefl _ hlt
  · exact hkept.held l hl

/-- The table with a label marked that is no exit of an open scope. -/
theorem mark (h : t.Scoped opened held) {p : UInt32} {marked : List Nat}
    (hs : t.labels[index]? = some s)
    (hexit : ∀ o ∈ opened, index ≠ o.exit.index) :
    Scoped { t.set index { s with position := some p } with marked } opened held := by
  have hmark : ∀ l, mark? { t.set index { s with position := some p } with marked } l =
      if l = index then some (some p) else t.mark? l := mark?_set _ hs
  refine ⟨fun o ho => ?_, fun o ho => ?_, h.distinct, fun l hl => ?_⟩
  · obtain ⟨hent, q, hq⟩ := h.entries o ho
    refine ⟨hent, ?_⟩
    rw [hmark]
    split
    · exact ⟨p, rfl⟩
    · exact ⟨q, hq⟩
  · obtain ⟨hctx, hnone⟩ := h.exits o ho
    refine ⟨hctx, ?_⟩
    rwa [hmark, if_neg (hexit o ho).symm]
  · obtain ⟨hlt, hne⟩ := h.held l hl
    exact ⟨by simpa [LabelTable.set] using hlt, hne⟩

theorem tail (h : t.Scoped (o :: opened) held) : t.Scoped opened held where
  entries o' ho := h.entries o' (mem_cons_of_mem o ho)
  exits o' ho := h.exits o' (mem_cons_of_mem o ho)
  distinct := (nodup_cons.mp h.distinct).2
  held l hl := ⟨(h.held l hl).1, fun o' ho => (h.held l hl).2 o' (mem_cons_of_mem o ho)⟩

theorem exit_ne {o' : OpenScope} (h : t.Scoped (o :: opened) held) (ho : o' ∈ opened) :
    o.exit.index ≠ o'.exit.index := by
  intro heq
  exact (nodup_cons.mp h.distinct).1 (mem_map.mpr ⟨o', ho, heq.symm⟩)

end LabelTable.Scoped

/-! ### Opening -/

namespace LabelTable

/-- The table with the two labels of one more scope: where its entry is marked, and the jumps that
wait for its exit. -/
def opened (t : LabelTable) (entry : Option UInt32) (fixups : List Nat) : LabelTable where
  context := t.context
  labels := (t.labels.push ⟨entry, []⟩).push ⟨none, fixups⟩
  marked := if entry.isSome then t.labels.size :: t.marked else t.marked

theorem opened_entry : (t.opened entry fixups).labels[t.labels.size]? = some ⟨entry, []⟩ := by
  rw [opened, Array.getElem?_push, if_neg (by simp), Array.getElem?_push, if_pos rfl]

theorem opened_exit : (t.opened entry fixups).labels[t.labels.size + 1]? = some ⟨none, fixups⟩ := by
  rw [opened, Array.getElem?_push, if_pos (by simp)]

theorem opened_mark (p : UInt32) : { (t.opened none fixups).set t.labels.size ⟨some p, []⟩ with
      marked := t.labels.size :: t.marked } = t.opened (some p) fixups := by
  have hset : ((t.labels.push ⟨none, []⟩).push ⟨none, fixups⟩).setIfInBounds t.labels.size
      ⟨some p, []⟩ = (t.labels.push ⟨some p, []⟩).push ⟨none, fixups⟩ := by
    apply Array.ext'
    simp
  simp [opened, set, hset]

theorem opened_wait (f : Nat) : (t.opened entry fixups).wait (t.labels.size + 1) ⟨none, fixups⟩ f =
      t.opened entry (fixups ++ [f]) := by
  have hset : ((t.labels.push ⟨entry, []⟩).push ⟨none, fixups⟩).setIfInBounds (t.labels.size + 1)
      ⟨none, fixups ++ [f]⟩ = (t.labels.push ⟨entry, []⟩).push ⟨none, fixups ++ [f]⟩ := by
    apply Array.ext'
    simp
  simp only [wait, opened, set, hset]

theorem sameMarks_opened : t.SameMarks (t.opened entry fixups) := by
  intro l m h
  have hlt := mark?_lt h
  rw [mark?] at h ⊢
  simp only [opened, Array.getElem?_push, Array.size_push, if_neg (Nat.ne_of_lt hlt),
    if_neg (Nat.ne_of_lt (Nat.lt_succ_of_lt hlt))]
  exact h

theorem Scoped.push {opened : List OpenScope} (h : t.Scoped opened held) (p : UInt32)
    (fixups : List Nat)
    (id : Nat) (kind : ScopeKind) :
    (t.opened (some p) fixups).Scoped
      (⟨id, kind, ⟨t.context, t.labels.size⟩, ⟨t.context, t.labels.size + 1⟩⟩ :: opened) held := by
  have hkept : (t.opened (some p) fixups).Scoped opened held := h.mono sameMarks_opened rfl
  refine ⟨?_, ?_, ?_, fun l hl => ⟨(hkept.held l hl).1, ?_⟩⟩
  · refine forall_mem_cons.mpr ⟨⟨rfl, p, ?_⟩, hkept.entries⟩
    simp only [mark?, opened_entry, map_some]
  · refine forall_mem_cons.mpr ⟨⟨rfl, ?_⟩, hkept.exits⟩
    simp only [mark?, opened_exit, map_some]
  · refine nodup_cons.mpr ⟨fun hmem => ?_, h.distinct⟩
    obtain ⟨o, ho, heq⟩ := mem_map.mp hmem
    have hlt := mark?_lt (h.exits o ho).2
    dsimp only at heq
    omega
  · refine forall_mem_cons.mpr ⟨?_, (hkept.held l hl).2⟩
    have hlt := (h.held l hl).1
    dsimp only
    omega

/-- Going back leaves two labels that nothing was done with. -/
theorem rollback_opened {n : Nat} (h : t.FixupsBelow n) (hfixups : ∀ f ∈ fixups, n ≤ f) :
    (t.opened entry fixups).rollback n t.markCount = t.opened none [] := by
  have hdrop : fixups.filter (fun f => decide (f < n)) = [] := by
    refine filter_eq_nil_iff.mpr fun f hf => ?_
    have := hfixups f hf
    simp
    omega
  cases entry with
  | none => simp [rollback, opened, markCount, h.map_filter, hdrop]
  | some p =>
    have hunmark : unmark ((t.labels.push ⟨some p, []⟩).push ⟨none, fixups⟩) t.labels.size =
        (t.labels.push ⟨none, []⟩).push ⟨none, fixups⟩ := by
      apply Array.ext'
      simp only [unmark, Array.toList_modify, Array.toList_push, append_assoc]
      rw [← Array.length_toList, modify_eq_take_cons_drop (by simp)]
      simp [drop_append]
    simp [rollback, opened, markCount, h.map_filter, hdrop, hunmark]

end LabelTable

namespace Body

/-- The body with the labels of one more scope, which nothing was done with. -/
def withScope (b : Body) : Body :=
  { b with emitter := { b.emitter with labels := b.emitter.labels.opened none [] } }

/-- What has become of a body while a scope is being opened: code was added, and the labels of the
scope are there. -/
structure Entering (b b' : Body) (entry : Option UInt32) (fixups : List Nat) : Prop where
  chunk : ∃ bytes, b'.emitter.chunk = b.emitter.chunk.writeBytes bytes b.emitter.line
  constants : b.emitter.constants.Extends b'.emitter.constants
  line : b'.emitter.line = b.emitter.line
  labels : b'.emitter.labels = b.emitter.labels.opened entry fixups
  fixups : ∀ f ∈ fixups, b.emitter.offset ≤ f
  locals : b.locals.toList <+: b'.locals.toList
  live : b.live <:+ b'.live
  scopes : b'.scopes = b.scopes

namespace Entering

variable {b'' : Body}

theorem start (b : Body) : b.Entering b.withScope none [] where
  chunk := ⟨[], rfl⟩
  constants := .refl _
  line := rfl
  labels := rfl
  fixups := by simp
  locals := prefix_refl _
  live := suffix_refl _
  scopes := rfl

theorem grows (h : b.Entering b' entry fixups) (hgrows : b'.Grows b'') :
    b.Entering b'' entry fixups where
  chunk := by
    obtain ⟨bytes, hbytes⟩ := h.chunk
    obtain ⟨more, hmore⟩ := hgrows.emitter.chunk
    exact ⟨bytes ++ more, by rw [hmore, h.line, hbytes, Chunk.writeBytes_append]⟩
  constants := h.constants.trans hgrows.emitter.constants
  line := hgrows.emitter.line.trans h.line
  labels := hgrows.emitter.labels.trans h.labels
  fixups := h.fixups
  locals := h.locals.trans hgrows.locals
  live := h.live.trans hgrows.live
  scopes := hgrows.scopes.trans h.scopes

theorem offset_le (h : b.Entering b' entry fixups) : b.emitter.offset ≤ b'.emitter.offset := by
  obtain ⟨bytes, hchunk⟩ := h.chunk
  rw [offset, offset, hchunk, Chunk.size_writeBytes]
  omega

theorem mark (h : b.Entering b' none fixups) :
    b.Entering { b' with emitter := b'.emitter.withMark b.emitter.labels.labels.size ⟨none, []⟩ }
      (some (UInt32.ofNat b'.emitter.offset)) fixups where
  chunk := h.chunk
  constants := h.constants
  line := h.line
  labels := by
    simp only [withMark, h.labels]
    exact opened_mark _
  fixups := h.fixups
  locals := h.locals
  live := h.live
  scopes := h.scopes

theorem jump (h : b.Entering b' entry fixups) (hop : op.sort = .label)
    (hjump : (emitJump op ⟨b.emitter.labels.context, b.emitter.labels.labels.size + 1⟩).outcome
      b'.emitter = (.ok (), e)) :
    b.Entering { b' with emitter := e } entry (fixups ++ [b'.emitter.offset + 1]) := by
  rcases emitJump_outcome op (Opcode.operandSize_of_sort_label hop) _ b'.emitter with
    ⟨err, -, herr⟩ | ⟨s, i, t, hs, -, -, -, hok, ht⟩
  · rw [hjump] at herr
    cases herr
  rw [hjump] at hok
  cases hok
  have hexit := (state_ok hs).2
  rw [h.labels, opened_exit] at hexit
  cases hexit
  rcases ht with ⟨p, hp, -, -⟩ | ⟨-, rfl⟩
  · cases hp
  refine ⟨?_, h.constants, h.line, ?_, ?_, h.locals, h.live, h.scopes⟩
  · obtain ⟨bytes, hbytes⟩ := h.chunk
    exact ⟨bytes ++ i.bytes, by simp only [hbytes, h.line, Chunk.writeBytes_append]⟩
  · simp only [h.labels]
    exact opened_wait _
  · intro f hf
    rcases mem_append.mp hf with hf | hf
    · exact h.fixups f hf
    · have hle := h.offset_le
      rw [mem_singleton.mp hf]
      omega

/-- Going back leaves the body as it was, with more constants and two labels more. -/
theorem restore (h : b.Entering b' entry fixups) (hb : b.Restorable) :
    b'.restore b.savepoint = b.withScope.withConstants b'.emitter.constants := by
  obtain ⟨bytes, hchunk⟩ := h.chunk
  refine restore_eq hchunk h.line h.locals h.live h.scopes hb.lines ?_
  rw [h.labels]
  exact rollback_opened hb.fixups h.fixups

end Entering

end Body

namespace Body

variable (b : Body)

/-- The entry of the scope that is opened next. -/
abbrev entryLabel : Label := ⟨b.emitter.labels.context, b.emitter.labels.labels.size⟩

/-- The exit of the scope that is opened next. -/
abbrev exitLabel : Label := ⟨b.emitter.labels.context, b.emitter.labels.labels.size + 1⟩

/-- The last segment is the guard of the scope that is opened next. -/
abbrev Guarded (segs : List Listing) : Prop :=
  Listing.EndsIn segs ⟨.jumpIf false, .label (b.emitter.labels.labels.size + 1)⟩

end Body

namespace Emission

/-- The entry of a scope is marked, unless the code is too long. -/
theorem markEntry_cases (henter : b.Entering b' none fixups) (hb : b'.Sound c d segs) :
    (∃ e, (markLabel b.entryLabel).outcome c b' = (.error e, b')) ∨
    ∃ b'' p segs', (markLabel b.entryLabel).outcome c b' = (.ok (), b'') ∧
      b.Entering b'' (some p) fixups ∧ p.toNat = b''.emitter.offset ∧
      b''.Sound c d segs' ∧ segs'.map Listing.commands = segs.map Listing.commands := by
  have hlabel : b'.emitter.labels.labels[b.emitter.labels.labels.size]? = some ⟨none, []⟩ := by
    rw [henter.labels]
    exact opened_entry
  have hstate : b'.emitter.labels.state b.entryLabel = .ok ⟨none, []⟩ := by
    simp only [LabelTable.state, hlabel]
    rw [if_neg (by simp [henter.labels, LabelTable.opened])]
  unfold markLabel
  rw [outcome_onEmitter, (hb.linked.fillable _).markLabel_outcome, hstate]
  by_cases hlarge : 4294967296 ≤ b'.emitter.offset
  · exact .inl ⟨.invalidOperand (.jumpTarget b'.emitter.offset), by simp [hlarge]⟩
  · refine .inr ⟨_, _, _, by simp [hlarge], henter.mark, ?_, hb.mark hlabel rfl (by omega), ?_⟩
    · rw [UInt32.toNat_ofNat', Nat.mod_eq_of_lt (by omega)]
      rfl
    · simp [commands_patched]

/-- The labels and the guard of a new scope. -/
def scopeEntry (kind : ScopeKind) (condition : Option Symbol) : Emission (Label × Label) := do
  let entry ← defineLabel
  let exit ← defineLabel
  if kind ≠ .loop then markLabel entry
  if let some s := condition then emitGuard s exit
  if kind = .loop then markLabel entry
  pure (entry, exit)

/-- What opening a scope has done to a body when it succeeds. The entry of a loop lies behind its
guard. -/
structure Opened (c : Setting) (d : Discipline) (kind : ScopeKind) (guarded : Bool) (b b' : Body)
    (segs : List Listing) : Prop where
  entering : ∃ p fixups, b.Entering b' (some p) fixups ∧
    (kind = .loop → p.toNat = b'.emitter.offset)
  sound : ∃ segs', b'.Sound c d segs' ∧ segs.map Listing.commands <+: segs'.map Listing.commands ∧
    (guarded → Listing.EndsIn segs' ⟨.jumpIf false, .label (b.emitter.labels.labels.size + 1)⟩)

/-- How opening a scope can end when `b'` is what came of `b` so far and `x` is left to do. -/
def Opens (c : Setting) (d : Discipline) (kind : ScopeKind) (guarded : Bool) (b : Body)
    (segs : List Listing) (outcome : Except EmitError (Label × Label) × Body) : Prop :=
  (∃ e b', outcome = (.error e, b') ∧ (∃ entry fixups, b.Entering b' entry fixups) ∧
    b'.emitter.constants.Valid) ∨
  ∃ b', outcome = (.ok (⟨b.emitter.labels.context, b.emitter.labels.labels.size⟩,
    ⟨b.emitter.labels.context, b.emitter.labels.labels.size + 1⟩), b') ∧
      Opened c d kind guarded b b' segs

variable {kind : ScopeKind} {guarded : Bool}

theorem opens_mark (henter : b.Entering b' none fixups) (hb : b'.Sound c d segs')
    (hsegs : Listing.Begins segs segs') (hguard : guarded → b.Guarded segs') :
    Opens c d kind guarded b segs ((do
      markLabel b.emitter.labels.define.1
      pure (b.emitter.labels.define.1, b.exitLabel) : Emission (Label × Label)).outcome c b') := by
  rw [outcome_bind]
  rcases markEntry_cases henter hb with
    ⟨e, hmark⟩ | ⟨b'', p, segs'', hmark, henter', hp, hsound, hcmds⟩
  · refine .inl ⟨e, b', ?_, ⟨none, fixups, henter⟩, hb.pool⟩
    simp only [LabelTable.define, hmark]
  · refine .inr ⟨b'', ?_, ⟨p, fixups, henter', fun _ => hp⟩, segs'', hsound, hcmds ▸ hsegs,
      fun hguarded => (hguard hguarded).congr hcmds⟩
    simp only [LabelTable.define, hmark]
    rfl

/-- The guard of a scope is one more segment, unless its condition cannot be loaded. -/
theorem opens_guard (henter : b.Entering b' entry []) (hb : b'.Sound c d segs')
    (hsegs : Listing.Begins segs segs') {s : Symbol} (hs : c.Made d b'.locals s) (hop : d.operand s)
    (hbool : s.valueType.hash = .bool) {f : Unit → Emission (Label × Label)}
    (hf : ∀ b'' fixups segs'', b.Entering b'' entry fixups → b''.Sound c d segs'' →
      Listing.Begins segs segs'' → b.Guarded segs'' →
      Opens c d kind guarded b segs ((f ()).outcome c b'')) :
    Opens c d kind guarded b segs ((emitGuard s b.exitLabel >>= f).outcome c b') := by
  rw [outcome_bind]
  rcases emitGuard_cases (c := c) hb.pool s b.exitLabel with ⟨e, b₁, hout, hgrows⟩ |
      ⟨b₁, ts, xs, e, hout, hcode, hgrows, hemit, hjump⟩
  · refine .inl ⟨e, b₁, ?_, ⟨entry, [], henter.grows hgrows⟩, hgrows.emitter.valid hb.pool⟩
    simp only [hout]
  · obtain ⟨seg, hcmds, hsound⟩ := hb.gains (.jump hgrows hemit hcode.straight rfl hjump
      (.guard hs hop hbool hcode))
    simp only [hout]
    exact hf _ _ _ ((henter.grows hgrows).jump rfl hjump) hsound (hsegs.trans (by simp))
      (endsIn_snoc hcmds)

/-- The labels and the guard of a new scope are there, or something failed on the way. -/
theorem opens_scopeEntry (hb : b.Sound c d segs) (kind : ScopeKind) (hcond : ∀ s ∈ condition,
      c.Made d b.locals s ∧ d.operand s ∧ s.valueType.hash = .bool) :
    Opens c d kind condition.isSome b segs ((scopeEntry kind condition).outcome c b) := by
  have hstart : b.withScope.Sound c d segs := hb.define.define
  have hfirst : defineLabel.outcome c b = (.ok b.emitter.labels.define.1,
      { b with emitter := { b.emitter with labels := b.emitter.labels.define.2 } }) := rfl
  have hsecond : defineLabel.outcome c
      { b with emitter := { b.emitter with labels := b.emitter.labels.define.2 } } =
      (.ok b.exitLabel, b.withScope) := by
    show (Except.ok (Label.mk _ (Array.push _ _).size), _) = _
    rw [Array.size_push]
    rfl
  unfold scopeEntry
  simp only [outcome_bind, hfirst, hsecond]
  by_cases hloop : kind = .loop
  · -- The guard comes first: it is passed once.
    subst hloop
    simp only [ne_eq, not_true_eq_false, if_false, if_true]
    cases condition with
    | none => exact opens_mark (.start b) hstart (prefix_refl _) (by simp)
    | some s =>
      obtain ⟨hs, hop, hbool⟩ := hcond s rfl
      exact opens_guard (.start b) hstart (prefix_refl _) hs hop hbool
        fun b'' fixups segs'' henter hsound hsegs hguard =>
          opens_mark henter hsound hsegs fun _ => hguard
  · simp only [ne_eq, hloop, not_false_eq_true, if_false, if_true]
    rw [outcome_bind]
    rcases markEntry_cases (.start b) hstart with ⟨e, hmark⟩ | ⟨b', p, segs', hmark, henter, -,
      hsound, hcmds⟩
    · refine .inl ⟨e, _, ?_, ⟨none, [], .start b⟩, hb.pool⟩
      simp only [LabelTable.define, hmark]
    · simp only [LabelTable.define, hmark]
      have hdone : ∀ b'' fixups segs'', b.Entering b'' (some p) fixups → b''.Sound c d segs'' →
          Listing.Begins segs segs'' → (condition.isSome → b.Guarded segs'') →
          Opens c d kind condition.isSome b segs
            ((pure (b.entryLabel, b.exitLabel) : Emission (Label × Label)).outcome c b'') :=
        fun b'' fixups segs'' henter hsound hsegs hguard =>
          .inr ⟨b'', rfl, ⟨p, fixups, henter, fun h => absurd h hloop⟩, segs'', hsound, hsegs,
            hguard⟩
      cases condition with
      | none => exact hdone b' [] segs' henter hsound (begins_of_eq hcmds) (by simp)
      | some s =>
        obtain ⟨hs, hop, hbool⟩ := hcond s rfl
        exact opens_guard henter hsound (begins_of_eq hcmds)
          (hs.mono henter.locals) hop hbool fun b'' fixups segs'' henter hsound hsegs hguard =>
            hdone b'' fixups segs'' henter hsound hsegs fun _ => hguard

theorem openScope_eq (kind : ScopeKind) (condition : Option Symbol) : openScope kind condition = (do
      if let some s := condition then checkCondition s
      releasing (atomically (scopeEntry kind condition)) >>= pushScope kind) := rfl

/-- A scope is opened, or the operation fails and leaves at most two labels that nobody knows. -/
theorem openScope_cases (hb : b.Sound c d segs) (kind : ScopeKind)
    (hmade : ∀ s ∈ condition, s.context = c.id → c.Made d b.locals s)
    (hop : ∀ s ∈ condition, d.operand s) :
    (∃ e b', (openScope kind condition).outcome c b = (.error e, b') ∧
      (b.Failed c.options b' ∨ b.withScope.Failed c.options b')) ∨
    ∃ b', (openScope kind condition).outcome c b =
        (.ok ⟨c.id, b.scopes.closed.size, kind⟩, { b'.release c.options with
          scopes := b.scopes.push kind ⟨c.id, b.emitter.labels.labels.size⟩
            ⟨c.id, b.emitter.labels.labels.size + 1⟩ }) ∧
      Opened c d kind condition.isSome b b' segs := by
  have henter : ∀ condition : Option Symbol,
      (∀ s ∈ condition, c.Made d b.locals s ∧ d.operand s ∧ s.valueType.hash = .bool) →
      (∃ e b', (releasing (atomically (scopeEntry kind condition))).outcome c b = (.error e, b') ∧
        b.withScope.Failed c.options b') ∨
      ∃ b', (releasing (atomically (scopeEntry kind condition))).outcome c b =
          (.ok (⟨c.id, b.emitter.labels.labels.size⟩, ⟨c.id, b.emitter.labels.labels.size + 1⟩),
            b'.release c.options) ∧ Opened c d kind condition.isSome b b' segs := by
    intro condition hcond
    rw [outcome_releasing, outcome_atomically]
    rcases opens_scopeEntry hb kind hcond with
      ⟨e, b', hout, ⟨entry, fixups, hentering⟩, hvalid⟩ | ⟨b', hout, hopen⟩
    · rw [hout]
      refine .inl ⟨e, _, rfl, b'.emitter.constants, hentering.constants, hvalid, .inr ?_⟩
      simp only [hentering.restore hb.restorable]
    · rw [hout, hb.context]
      exact .inr ⟨b', rfl, hopen⟩
  have hscopes : ∀ {guarded b'}, Opened c d kind guarded b b' segs → b'.scopes = b.scopes :=
    fun hopen => by
      obtain ⟨p, fixups, hentering, -⟩ := hopen.entering
      exact hentering.scopes
  rw [openScope_eq]
  cases condition with
  | none =>
    rw [outcome_bind]
    rcases henter none (by simp) with ⟨e, b', hout, hfail⟩ | ⟨b', hout, hopen⟩
    · rw [hout]
      exact .inl ⟨e, b', rfl, .inr hfail⟩
    · rw [hout, ← hscopes hopen]
      exact .inr ⟨b', rfl, hopen⟩
  | some s =>
    rcases checkCondition_bind s _ with ⟨e, hout⟩ | ⟨hctx, hbool, hout⟩
    · exact .inl ⟨e, b, hout, .inl (.refl _ hb.pool)⟩
    rw [hout, outcome_bind]
    rcases henter (some s) (by simpa using ⟨hmade s rfl hctx, hop s rfl, hbool⟩) with
      ⟨e, b', hout, hfail⟩ | ⟨b', hout, hopen⟩
    · rw [hout]
      exact .inl ⟨e, b', rfl, .inr hfail⟩
    · rw [hout, ← hscopes hopen]
      exact .inr ⟨b', rfl, hopen⟩

end Emission

/-! ### Closing -/

/-- How many bytes a scope of a kind emits when it is closed. -/
def ScopeKind.closingSize : ScopeKind → Nat
  | .loop => 5
  | .block => 1
  | .branch => 0

theorem ScopeKind.closingSize_le (kind : ScopeKind) : kind.closingSize ≤ 5 := by
  cases kind <;> decide

theorem ScopeStack.find_ok {s : ScopeStack} {id : Nat} (h : s.find id = .ok o) :
    o ∈ s.opened ∧ s.opened.find? (fun o => o.id == id) = some o := by
  unfold find at h
  split at h
  · cases h
  · split at h
    · rename_i o' ho
      cases h
      exact ⟨mem_of_find?_eq_some ho, ho⟩
    · cases h

namespace Emission

theorem state_of_mark? {l : Label} (hctx : l.context = t.context) (h : t.mark? l.index = some m) :
    ∃ s, t.state l = .ok s ∧ t.labels[l.index]? = some s ∧ s.position = m := by
  obtain ⟨s, hs, hpos⟩ := map_eq_some_iff.mp h
  refine ⟨s, ?_, hs, hpos⟩
  rw [LabelTable.state, if_neg (by simpa using hctx), hs]

/-- What a scope emits when it is closed. -/
def closing (o : OpenScope) : Emission Unit := match o.kind with
  | .loop => jump o.entry
  | .block => onEmitter (Emitter.emit .nop)
  | .branch => pure ()

/-- The bytes that a scope emits when it is closed, and the segments that there are then. -/
structure Seals (c : Setting) (d : Discipline) (b : Body) (segs : List Listing) (o : OpenScope)
    (bytes : List UInt8) (segs' : List Listing) : Prop where
  length : bytes.length = o.kind.closingSize
  sound : Body.Sound c d { b with emitter := b.emitter.write bytes } segs'
  segments : Listing.Begins segs segs'
  loop : o.kind = .loop → Listing.EndsIn segs' ⟨.jump, .label o.entry.index⟩

section Close

variable (hb : b.Sound c d segs) (hscoped : b.emitter.labels.Scoped b.scopes.opened held)
include hb hscoped

/-- A loop jumps back, a block ends in an instruction without effect. -/
theorem closing_cases (ho : o ∈ b.scopes.opened) : ∃ bytes segs', Seals c d b segs o bytes segs' ∧
      (closing o).outcome c b = (.ok (), { b with emitter := b.emitter.write bytes }) := by
  unfold closing
  cases hkind : o.kind with
  | loop =>
    -- The entry is a label of this context that is marked, so the jump is neither refused nor left
    -- to be filled in.
    obtain ⟨hctx, p, hp⟩ := hscoped.entries o ho
    obtain ⟨s, hs, -, hpos⟩ := state_of_mark? hctx hp
    rcases emitJump_outcome .jump rfl o.entry b.emitter with ⟨err, herr, -⟩ | ⟨s', i, t, hs', -,
      hop, -, hok, ht⟩
    · rw [hs] at herr
      cases herr
    rw [hs] at hs'
    cases hs'
    have hlabels : t = b.emitter.labels := by
      rcases ht with ⟨-, -, -, ht⟩ | ⟨hnone, -⟩
      · exact ht
      · rw [hpos] at hnone
        cases hnone
    subst hlabels
    obtain ⟨seg, hcmds, hsound⟩ := hb.gains (.jump (.refl b) (.refl b) straight_nil rfl hok .jump)
    have hlen : i.bytes.length = o.kind.closingSize := by
      rw [Instr.length_bytes, hop, hkind]
      rfl
    refine ⟨i.bytes, _, ⟨hlen, hsound, begins_append _ _, fun _ => endsIn_snoc hcmds⟩, ?_⟩
    unfold jump
    rw [outcome_onEmitter, hok]
    rfl
  | block =>
    have hemit : (emit .nop).Emits _ := Emitting.emits_emit rfl
    obtain ⟨hgrows, hok⟩ := emits_onEmitter (c := c) hemit b hb.pool
    obtain ⟨_, _, ⟨rfl, rfl⟩, hemitted⟩ := hok () rfl
    obtain ⟨seg, -, hsound⟩ := hb.gains (.straight hgrows hemitted (straight_plain _) .nop)
    exact ⟨[Opcode.nop.byte], _, ⟨by rw [hkind]; rfl, hsound, begins_append _ _, by simp [hkind]⟩,
      rfl⟩
  | branch => exact ⟨[], segs, ⟨by rw [hkind]; rfl, hb, prefix_refl _, by simp [hkind]⟩, rfl⟩

omit hb hscoped in
theorem closeScope_innermost (h : ScopeHandle) (c : Setting) (b : Body) :
    (∃ e, (closeScope h).outcome c b = (.error e, b)) ∨
    ∃ o rest, h.context = c.id ∧ b.scopes.find h.id = .ok o ∧ b.scopes.opened = o :: rest ∧
      (closeScope h).outcome c b = (do
        closing o
        markLabel o.exit
        modify fun b => { b with scopes := b.scopes.pop h.id } : Emission Unit).outcome c b := by
  unfold closeScope
  rcases findScope_bind h _ with ⟨e, hout⟩ | ⟨o, hctx, ho, hout⟩
  · exact .inl ⟨e, hout⟩
  obtain ⟨hmem, hfind⟩ := ScopeStack.find_ok ho
  rw [hout, outcome_bind, outcome_get]
  dsimp only
  by_cases hhead : b.scopes.opened.head?.map OpenScope.id = some h.id
  · rw [if_neg (by simpa using hhead)]
    have hopen : ∃ rest, b.scopes.opened = o :: rest := by
      cases hlist : b.scopes.opened with
      | nil =>
        rw [hlist] at hmem
        cases hmem
      | cons first rest =>
        rw [hlist] at hhead hfind
        have hid : first.id = h.id := by simpa using hhead
        rw [find?_cons_of_pos (by simpa using hid)] at hfind
        exact ⟨rest, by rw [some.inj hfind]⟩
    obtain ⟨rest, hopen⟩ := hopen
    refine .inr ⟨o, rest, hctx, ho, hopen, ?_⟩
    unfold closing
    cases o.kind <;> rfl
  · rw [if_pos (by simpa using hhead)]
    exact .inl ⟨_, rfl⟩

/-- A scope is closed and its exit marked, unless what it emits makes the code too long. -/
theorem close_cases (ho : o ∈ b.scopes.opened) (id : Nat) :
    ∃ bytes segs' s, Seals c d b segs o bytes segs' ∧
      b.emitter.labels.labels[o.exit.index]? = some s ∧ s.position = none ∧
      (do
        closing o
        markLabel o.exit
        modify fun b => { b with scopes := b.scopes.pop id } : Emission Unit).outcome c b =
        if 4294967296 ≤ (b.emitter.write bytes).offset then
          (.error (.invalidOperand (.jumpTarget (b.emitter.write bytes).offset)),
            { b with emitter := b.emitter.write bytes })
        else (.ok (), { b with
          emitter := (b.emitter.write bytes).withMark o.exit.index s
          scopes := b.scopes.pop id }) := by
  obtain ⟨bytes, segs', hcloses, hclose⟩ := closing_cases hb hscoped ho
  obtain ⟨hctx, hnone⟩ := hscoped.exits o ho
  obtain ⟨s, hs, hlabel, hpos⟩ := state_of_mark? hctx hnone
  refine ⟨bytes, segs', s, hcloses, hlabel, hpos, ?_⟩
  have hmark := (hcloses.sound.linked.fillable o.exit).markLabel_outcome
  have hstate : (b.emitter.write bytes).labels.state o.exit = .ok s := hs
  rw [hstate] at hmark
  simp only [hpos, isSome_none] at hmark
  rw [outcome_bind, hclose]
  dsimp only
  unfold markLabel
  rw [outcome_bind, outcome_onEmitter, hmark]
  by_cases hlarge : 4294967296 ≤ (b.emitter.write bytes).offset
  · simp [hlarge]
  · simp [hlarge]

/-- The innermost scope is closed; or nothing happens; or what a loop or block emits makes the code
too long to mark its end. -/
theorem closeScope_cases (h : ScopeHandle) : (∃ e, (closeScope h).outcome c b = (.error e, b)) ∨
    ∃ o rest bytes segs', b.scopes.opened = o :: rest ∧ Seals c d b segs o bytes segs' ∧
      ((4294967296 ≤ (b.emitter.write bytes).offset ∧ o.kind ≠ .branch ∧
        (closeScope h).outcome c b =
            (.error (.invalidOperand (.jumpTarget (b.emitter.write bytes).offset)),
              { b with emitter := b.emitter.write bytes })) ∨
        ∃ s, b.emitter.labels.labels[o.exit.index]? = some s ∧ s.position = none ∧
          (b.emitter.write bytes).offset < 4294967296 ∧
          (closeScope h).outcome c b = (.ok (), { b with
              emitter := (b.emitter.write bytes).withMark o.exit.index s
              scopes := b.scopes.pop h.id })) := by
  rcases closeScope_innermost h c b with ⟨e, hout⟩ | ⟨o, rest, -, -, hopen, hout⟩
  · exact .inl ⟨e, hout⟩
  obtain ⟨bytes, segs', s, hcloses, hlabel, hpos, hclose⟩ :=
    close_cases hb hscoped (hopen ▸ mem_cons_self ..) h.id
  rw [hclose] at hout
  by_cases hlarge : 4294967296 ≤ (b.emitter.write bytes).offset
  · rw [if_pos hlarge] at hout
    by_cases hkind : o.kind = .branch
    · have hlen := hcloses.length
      rw [hkind] at hlen
      rw [eq_nil_of_length_eq_zero hlen] at hout
      exact .inl ⟨_, hout⟩
    · exact .inr ⟨o, rest, bytes, segs', hopen, hcloses, .inl ⟨hlarge, hkind, hout⟩⟩
  · rw [if_neg hlarge] at hout
    exact .inr ⟨o, rest, bytes, segs', hopen, hcloses, .inr ⟨s, hlabel, hpos, by omega, hout⟩⟩

/-- What closing a scope leaves when it succeeds. -/
theorem closeScope_done {h : ScopeHandle} (hok : (closeScope h).outcome c b = (.ok (), b')) :
    ∃ o rest bytes segs' s, b.scopes.opened = o :: rest ∧ Seals c d b segs o bytes segs' ∧
      b.emitter.labels.labels[o.exit.index]? = some s ∧ s.position = none ∧
      (b.emitter.write bytes).offset < 4294967296 ∧
      b' = { b with
        emitter := (b.emitter.write bytes).withMark o.exit.index s
        scopes := b.scopes.pop h.id } := by
  rcases closeScope_cases hb hscoped h with ⟨e, hout⟩ | ⟨o, rest, bytes, segs', hopen, hcloses,
      ⟨-, -, hout⟩ | ⟨s, hs, hpos, hsmall, hout⟩⟩ <;> rw [hok] at hout <;> cases hout
  exact ⟨o, rest, bytes, segs', s, hopen, hcloses, hs, hpos, hsmall, rfl⟩

end Close

end Emission

end StackCode
