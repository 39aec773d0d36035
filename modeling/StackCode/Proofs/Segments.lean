import StackCode.Proofs.Factories
import StackCode.Proofs.Labels
import StackCode.Proofs.SymbolCode

/-!
# Segments of a body

The code of a body is a sequence of segments, one for each operation that emitted code: a load, a
copy, a statement, a return, a jump, a guard. Between segments lie the places where labels can be
marked. Every state of a body that operations lead to is `Sound` in this sense.
-/

namespace StackCode

open List Command

variable {ts : List Temporary} {xs : List Command} {c : Setting} {d : Discipline} {r : Registry}
  {e : Emitter} {type : DataType}

/-- The code of an assignment. -/
inductive CopyCode (r : Registry) (dest source : Symbol) :
    CopyPath → List Temporary → List Command → Prop
  | direct {ts ts' xs xs'} (hdest : Code r (.load dest (.reference false)) ts xs)
      (hsource : Code r (.load source (.reference false)) ts' xs') :
      CopyCode r dest source .direct (ts ++ ts')
        (xs ++ (xs' ++ [⟨.copyObject, .hash dest.valueType.hash⟩]))
  | indirect {k pointer value ts ts' xs xs'} (hk : Indirect.ofType r dest.valueType.hash = .ok k)
      (hdest : Code r (.access dest .get) ts xs) (hsource : Code r (.load source .value) ts' xs') :
      CopyCode r dest source .indirect (⟨dest.dataType, pointer⟩ :: ⟨dest.valueType, value⟩ ::
        (ts ++ ts'))
        (xs ++ .onLocal .set pointer :: (xs' ++
          [.onLocal .set value, .onLocal .get pointer, .onLocal .get value, k.storeCommand]))
  | stack {ts ts' xs xs'} (hsource : Code r (.load source .value) ts xs)
      (hdest : Code r (.access dest .set) ts' xs') :
      CopyCode r dest source .stack (ts ++ ts') (xs ++ xs')

/-- What the ways of copying are taken for: aggregates that both are in their own storage, and a
destination that holds an address. -/
def CopyPath.Suits (r : Registry) (dest source : Symbol) : CopyPath → Prop
  | .direct => dest.inPlace r ∧ source.inPlace r ∧ r.isAggregate dest.valueType.hash
  | .indirect => dest.dataType.isByRef
  | .stack => dest.dataType.isByRef = false

theorem Setting.suits_copyPath (c : Setting) (dest source : Symbol) (force : Bool) :
    (c.copyPath dest source force).Suits c.registry dest source := by
  unfold copyPath
  split
  · rename_i hdirect
    simp only [holdsAggregate, Bool.and_eq_true] at hdirect
    exact ⟨hdirect.1.2, hdirect.2, hdirect.1.1.1.2⟩
  · split
    · assumption
    · rename_i hplain
      exact eq_false_of_ne_true hplain

/-- What an operation emits, and the temporaries that it uses. -/
inductive Segment (c : Setting) (d : Discipline) (locals : Array DataType) :
    List Temporary → List Command → Prop
  | load {s intent ts xs} (hs : c.Made d locals s) (hload : d.load s)
      (hcode : Code c.registry (.load s intent) ts xs) : Segment c d locals ts xs
  | copy {dest source forceStack ts xs} (hdest : c.Made d locals dest)
      (hsource : c.Made d locals source) (hoperands : d.operand dest ∧ d.operand source)
      (haccepted : dest.capabilities.assign ∧ c.compatible dest source)
      (hcode : CopyCode c.registry dest source (c.copyPath dest source forceStack) ts xs) :
      Segment c d locals ts xs
  | statement {s ts xs} (hs : c.Made d locals s) (hstatement : d.statement s)
      (hcode : Code c.registry (.load s .value) ts xs) :
      Segment c d locals ts (xs ++ if s.dataType.isVoid then [] else [.plain .pop])
  | returnVoid (hreturns : c.function.returns.isVoid) : Segment c d locals [] [.plain .retVoid]
  | returnValue {s ts xs} (hs : c.Made d locals s) (hoperand : d.operand s)
      (hreturns : c.function.returns.isVoid = false)
      (hassignable : c.registry.assignable s.valueType.hash c.function.returns.hash)
      (hcode : Code c.registry (.load s .value) ts xs) :
      Segment c d locals ts (xs ++ [.plain .ret])
  | nop : Segment c d locals [] [.plain .nop]
  | jump {l} : Segment c d locals [] [⟨.jump, .label l⟩]
  | guard {s l ts xs} (hs : c.Made d locals s) (hoperand : d.operand s)
      (hbool : s.valueType.hash = .bool) (hcode : Code c.registry (.load s .value) ts xs) :
      Segment c d locals ts (xs ++ [⟨.jumpIf false, .label l⟩])

theorem Segment.mono {locals locals' : Array DataType} (hlocals : locals.toList <+: locals'.toList)
    (h : Segment c d locals ts xs) :
    Segment c d locals' ts xs := by
  cases h with
  | load hs hload hcode => exact .load (hs.mono hlocals) hload hcode
  | copy hdest hsrc hops hacc hcode =>
    exact .copy (hdest.mono hlocals) (hsrc.mono hlocals) hops hacc hcode
  | statement hs hstmt hcode => exact .statement (hs.mono hlocals) hstmt hcode
  | returnVoid hret => exact .returnVoid hret
  | returnValue hs hop hret hassign hcode =>
    exact .returnValue (hs.mono hlocals) hop hret hassign hcode
  | nop => exact .nop
  | jump => exact .jump
  | guard hs hop hbool hcode => exact .guard (hs.mono hlocals) hop hbool hcode

/-! ### Code of symbols does not jump -/

/-- There is no jump among the commands. -/
def Straight (xs : List Command) : Prop := ∀ x ∈ xs, x.operand.sort ≠ .label

theorem straight_append {ys : List Command} : Straight (xs ++ ys) ↔ Straight xs ∧ Straight ys :=
  forall_mem_append

theorem straight_cons {x : Command} : Straight (x :: xs) ↔ x.operand.sort ≠ .label ∧ Straight xs :=
  forall_mem_cons

theorem straight_nil : Straight [] := by simp [Straight]

theorem straight_plain (op : Opcode) : Straight [.plain op] := by
  simp [Straight, plain, Operand.sort]

theorem straight_command (k : Indirect) (op : Opcode) : (k.command op).operand.sort ≠ .label := by
  cases k <;> simp [Indirect.command, plain, Operand.sort]

theorem LiteralCode.straight {l : Literal} (h : LiteralCode l xs) : Straight xs := by
  rcases h with ⟨-, rfl⟩ | ⟨b, -, rfl⟩ | ⟨wide, l', -, rfl⟩ <;> simp [Straight, plain, Operand.sort]

theorem ConversionRule.straight (k : ConversionRule) : Straight k.code := by
  cases k <;> simp [code, Straight, Operand.sort]

theorem Code.straight {p : Piece} (h : Code r p ts xs) : Straight xs := by
  induction h with
  | literal hl => exact hl.straight
  | converted _ ih => exact straight_append.mpr ⟨ih, ConversionRule.straight _⟩
  | referred _ _ _ ih =>
    exact straight_append.mpr ⟨ih, straight_cons.mpr ⟨straight_command _ _, straight_nil⟩⟩
  | value _ _ ih => exact ih
  | held _ _ ih => exact ih
  | placed _ _ _ _ ih => exact ih
  | target _ ih => exact ih
  | parameter _ ih => exact ih
  | _ =>
    simp_all [straight_append, straight_cons, straight_nil, onLocal, plain, Operand.sort]

theorem CopyCode.straight {dest source : Symbol} {path : CopyPath}
    (h : CopyCode r dest source path ts xs) :
    Straight xs := by
  cases h with
  | direct hdest hsrc =>
    simp [straight_append, straight_cons, straight_nil, hdest.straight, hsrc.straight, Operand.sort]
  | indirect hk hdest hsrc =>
    simp only [straight_append, straight_cons, straight_nil, hdest.straight, hsrc.straight, onLocal,
      Operand.sort]
    exact ⟨trivial, by simp, trivial, by simp, by simp, by simp, straight_command _ _, trivial⟩
  | stack hsrc hdest => exact straight_append.mpr ⟨hsrc.straight, hdest.straight⟩

/-! ### Sound bodies -/

namespace Body

/-- The code of a body consists of segments, and what belongs to it is in order. -/
structure Sound (c : Setting) (d : Discipline) (b : Body) (segs : List Listing) : Prop where
  linked : b.emitter.Linked segs
  /-- Every segment has a form, and its temporaries are declared. -/
  segments : ∀ seg ∈ segs, ∃ ts, Segment c d b.locals ts seg.commands ∧
    ∀ t ∈ ts, b.locals[t.slot.toNat]? = some t.type
  /-- Every slot was asked for or is a temporary of a segment. -/
  types : ∀ type ∈ b.locals, d.type type ∨ ∃ ts xs, Segment c d b.locals ts xs ∧ ∃ t ∈ ts,
    t.type = type
  pool : b.emitter.constants.Valid
  lines : b.emitter.chunk.lines.size = b.emitter.chunk.code.size
  slots : b.SlotsValid
  context : b.emitter.labels.context = c.id

/-- One more segment of code, perhaps with a jump at its end. -/
inductive Gains (c : Setting) (d : Discipline) (b : Body) : List Command → Body → Prop
  | straight {b' ts xs} (hgrows : b.Grows b') (hemitted : b.Emitted b' ts xs)
      (hstraight : Straight xs) (hsegment : Segment c d b.locals ts xs) : Gains c d b xs b'
  | jump {b' ts xs op l e} (hgrows : b.Grows b') (hemitted : b.Emitted b' ts xs)
      (hstraight : Straight xs) (hop : op.sort = .label)
      (hjump : (Emitter.emitJump op l).outcome b'.emitter = (.ok (), e))
      (hsegment : Segment c d b.locals ts (xs ++ [⟨op, .label l.index⟩])) :
      Gains c d b (xs ++ [⟨op, .label l.index⟩]) { b' with emitter := e }

variable {b b' : Body} {segs : List Listing}

theorem sound_start (c : Setting) (d : Discipline) : (start c).Sound c d [] where
  linked := Emitter.linked_start _ _
  segments := by simp
  types := by simp [start]
  pool := Pool.valid_empty
  lines := rfl
  slots := ⟨by simp [start], by simp [start], by simp [start]⟩
  context := rfl

namespace Sound

theorem restorable (h : b.Sound c d segs) : b.Restorable := ⟨h.lines, h.linked.fixupsBelow⟩

theorem congr (h : b.Sound c d segs) (hchunk : e.chunk = b.emitter.chunk)
    (hpool : b.emitter.constants.Extends e.constants) (hvalid : e.constants.Valid)
    (hlabels : e.labels = b.emitter.labels) : Sound c d { b with emitter := e } segs where
  linked := h.linked.congr (by rw [hchunk]) hpool hlabels
  segments := h.segments
  types := h.types
  pool := hvalid
  lines := by rw [hchunk]; exact h.lines
  slots := ⟨h.slots.typed, h.slots.distinct, h.slots.few⟩
  context := by rw [hlabels]; exact h.context

theorem withConstants (h : b.Sound c d segs) {k : Pool} (hpool : b.emitter.constants.Extends k)
    (hvalid : k.Valid) : (b.withConstants k).Sound c d segs :=
  h.congr rfl hpool hvalid rfl

theorem setLine (h : b.Sound c d segs) (line : Nat) :
    Sound c d { b with emitter := { b.emitter with line } } segs :=
  h.congr rfl (.refl _) h.pool rfl

theorem release (h : b.Sound c d segs) (options : EmitOptions) :
    (b.release options).Sound c d segs where
  linked := h.linked
  segments := h.segments
  types := h.types
  pool := h.pool
  lines := h.lines
  slots := by
    unfold Body.release
    split
    · have hperm : ((b.live ++ b.pooled) ++ []).Perm (b.pooled ++ b.live) := by
        rw [append_nil]
        exact perm_append_comm
      refine ⟨fun t ht => h.slots.typed t (hperm.mem_iff.mp ht), ?_, h.slots.few⟩
      exact (hperm.map _).nodup_iff.mpr h.slots.distinct
    · refine ⟨fun t ht => h.slots.typed t ?_, ?_, h.slots.few⟩
      · exact mem_append_left _ (by simpa using ht)
      · have hsub : (b.pooled ++ []).Sublist (b.pooled ++ b.live) := by simp
        exact h.slots.distinct.sublist (hsub.map _)
  context := h.context

theorem define (h : b.Sound c d segs) :
    Sound c d { b with emitter := { b.emitter with labels := b.emitter.labels.define.2 } }
      segs where
  linked := h.linked.define
  segments := h.segments
  types := h.types
  pool := h.pool
  lines := h.lines
  slots := ⟨h.slots.typed, h.slots.distinct, h.slots.few⟩
  context := h.context

theorem withScopes (h : b.Sound c d segs) (scopes : ScopeStack) :
    Sound c d { b with scopes } segs where
  linked := h.linked
  segments := h.segments
  types := h.types
  pool := h.pool
  lines := h.lines
  slots := ⟨h.slots.typed, h.slots.distinct, h.slots.few⟩
  context := h.context

section Mono

variable (h : b.Sound c d segs) (hlocals : b.locals.toList <+: b'.locals.toList)
include h hlocals

theorem segments_mono : ∀ seg ∈ segs, ∃ ts, Segment c d b'.locals ts seg.commands ∧
    ∀ t ∈ ts, b'.locals[t.slot.toNat]? = some t.type := by
  intro seg hseg
  obtain ⟨ts, hsegment, htyped⟩ := h.segments seg hseg
  refine ⟨ts, hsegment.mono hlocals, fun t ht => ?_⟩
  have htype := htyped t ht
  obtain ⟨more, hmore⟩ := hlocals
  rw [← Array.getElem?_toList] at htype ⊢
  rwa [← hmore, List.getElem?_append_left (List.getElem?_eq_some_iff.mp htype).1]

theorem types_mono : ∀ type ∈ b.locals, d.type type ∨
    ∃ ts xs, Segment c d b'.locals ts xs ∧ ∃ t ∈ ts, t.type = type := by
  intro type htype
  rcases h.types type htype with htype | ⟨ts, xs, hseg, ht⟩
  · exact .inl htype
  · exact .inr ⟨ts, xs, hseg.mono hlocals, ht⟩

end Mono

section

variable (h : b.Sound c d segs)
include h

theorem declare (htype : d.type type) (hroom : b.locals.size < 65535) :
    Sound c d { b with locals := b.locals.push type } segs where
  linked := h.linked
  segments := h.segments_mono (by simp)
  types u hu := by
    rcases Array.mem_push.mp hu with hu | rfl
    · exact h.types_mono (by simp) u hu
    · exact .inl htype
  pool := h.pool
  lines := h.lines
  slots := by
    refine ⟨fun t ht => ?_, h.slots.distinct, ?_⟩
    · have htype := h.slots.typed t ht
      have hlt := (Array.getElem?_eq_some_iff.mp htype).1
      simp only [Array.getElem?_push, if_neg (Nat.ne_of_lt hlt)]
      exact htype
    · simp only [Array.size_push]
      omega
  context := h.context

/-- What a piece of emission keeps in order, apart from code and types. -/
theorem temporaries (hemit : b.Emitted b' ts xs) :
    ∀ t ∈ ts, b'.locals[t.slot.toNat]? = some t.type := by
  intro t ht
  refine (hemit.slots h.slots).typed t (mem_append_right _ ?_)
  rw [hemit.live]
  exact mem_append_left _ (mem_reverse.mpr ht)

theorem acquired (hgrows : b.Grows b') {slot : UInt16} (htype : d.type type)
    (hemit : b.Emitted b' [⟨type, slot⟩] []) (hemitter : b'.emitter = b.emitter) :
    b'.Sound c d segs where
  linked := by rw [hemitter]; exact h.linked
  segments := h.segments_mono hgrows.locals
  types u hu := by
    rcases hemit.declared u hu with hu | ⟨t, ht, rfl⟩
    · exact h.types_mono hgrows.locals u hu
    · rw [mem_singleton.mp ht]
      exact .inl htype
  pool := by rw [hemitter]; exact h.pool
  lines := by rw [hemitter]; exact h.lines
  slots := hemit.slots h.slots
  context := by rw [hemitter]; exact h.context

/-- One more segment of code, when its place in the listing is known. -/
theorem snoc (hgrows : b.Grows b') (hemit : b.Emitted b' ts xs) {seg : Listing}
    (hseg : Segment c d b.locals ts seg.commands) (hlinked : e.Linked (segs ++ [seg]))
    (hpool : e.constants = b'.emitter.constants) (hlines : e.chunk.lines.size = e.chunk.code.size)
    (hctx : e.labels.context = c.id) :
    Sound c d { b' with emitter := e } (segs ++ [seg]) where
  linked := hlinked
  segments s hs := by
    rcases mem_append.mp hs with hs | hs
    · exact h.segments_mono hgrows.locals s hs
    · rw [mem_singleton.mp hs]
      have htyped := h.temporaries hemit
      exact ⟨ts, hseg.mono hgrows.locals, htyped⟩
  types u hu := by
    rcases hemit.declared u hu with hu | ht
    · exact h.types_mono hgrows.locals u hu
    · exact .inr ⟨ts, _, hseg.mono hgrows.locals, ht⟩
  pool := by rw [hpool]; exact hgrows.emitter.valid h.pool
  lines := hlines
  slots := by
    have hslots := hemit.slots h.slots
    exact ⟨hslots.typed, hslots.distinct, hslots.few⟩
  context := hctx

theorem gains (hgains : b.Gains c d xs b') :
    ∃ seg : Listing, seg.commands = xs ∧ b'.Sound c d (segs ++ [seg]) := by
  cases hgains with
  | straight hgrows hemit hstraight hseg =>
    obtain ⟨seg, hcmds, hlinked⟩ := h.linked.append hemit.appends hstraight
    refine ⟨seg, hcmds, h.snoc hgrows hemit (by rwa [hcmds]) hlinked rfl ?_ ?_⟩
    · exact (hgrows.restorable h.restorable).lines
    · rw [hgrows.emitter.labels]
      exact h.context
  | jump hgrows hemit hstraight hop hjump hseg =>
    obtain ⟨seg, hcmds, hlinked⟩ := h.linked.jump hemit.appends hstraight hop hjump
    have hlines := (hgrows.restorable h.restorable).lines
    obtain ⟨i, t, hfields, hctx⟩ := Emitter.emitJump_ok hop hjump
    refine ⟨seg, hcmds, h.snoc hgrows hemit (by rwa [hcmds]) hlinked ?_ ?_ ?_⟩
    · rw [hfields]
    · rw [hfields]
      exact Chunk.size_lines_writeBytes hlines _ _
    · rw [hfields, hctx, hgrows.emitter.labels]
      exact h.context

theorem mark {index : Nat} {s : LabelState} (hs : b.emitter.labels.labels[index]? = some s)
    (hpos : s.position = none) (hsmall : b.emitter.offset < 4294967296) :
    Sound c d { b with emitter := b.emitter.withMark index s }
      (segs.map (Listing.patched s.fixups (UInt32.ofNat b.emitter.offset))) where
  linked := h.linked.withMark hs hpos hsmall
  segments seg hseg := by
    obtain ⟨old, hold, rfl⟩ := mem_map.mp hseg
    rw [Listing.commands_patched]
    exact h.segments old hold
  types := h.types
  pool := h.pool
  lines := by
    obtain ⟨chunk, hpatch, hlines, hholds⟩ := h.linked.patchAll hs (UInt32.ofNat b.emitter.offset)
    have hsize : chunk.code.size = b.emitter.chunk.code.size := by
      have := hholds.size
      rw [Listing.flatten_patched, Listing.code_patched, endOf_map fun _ => Instr.patched_op,
        ← h.linked.holds.size] at this
      exact this
    rw [Emitter.withMark, hpatch, hlines, hsize]
    exact h.lines
  slots := ⟨h.slots.typed, h.slots.distinct, h.slots.few⟩
  context := h.context

end

end Sound

end Body

end StackCode
