import Mathlib.Data.List.Nodup
import StackCode.Proofs.Runs

/-!
# Scopes in the course of a run

In a run of operations a scope is opened once, with a number that no other scope has, and is closed
at most once, as the innermost of those that are open. A mark, once it is set, stays. So the times
at which scopes are open are nested like brackets.
-/

namespace StackCode

open Emission LabelTable List ScopeStack Nat Operation

variable {l : Label} {a : Answer} {op : Operation} {o : OpenScope} {k n i : Nat} {c : Setting}
  {segs : List Listing}

namespace LabelTable

/-- What is marked stays marked. -/
def KeepsMarks (t t' : LabelTable) : Prop :=
  ∀ l p, t.mark? l = some (some p) → t'.mark? l = some (some p)

variable {t t' t'' : LabelTable}

theorem KeepsMarks.refl (t : LabelTable) : t.KeepsMarks t := fun _ _ h => h

theorem KeepsMarks.trans (h : t.KeepsMarks t') (h' : t'.KeepsMarks t'') : t.KeepsMarks t'' :=
  fun l p hp => h' l p (h l p hp)

theorem SameMarks.keepsMarks (h : t.SameMarks t') : t.KeepsMarks t' := fun l _ hp => h l _ hp

theorem keepsMarks_mark {index : Nat} {s : LabelState} (hs : t.labels[index]? = some s)
    (hpos : s.position = none) {p : UInt32} {marked : List Nat} :
    t.KeepsMarks { t.set index { s with position := some p } with marked } := by
  intro l q hq
  have hmark : mark? { t.set index { s with position := some p } with marked } l =
      if l = index then some (some p) else t.mark? l := mark?_set _ hs l
  have hne : l ≠ index := by
    rintro rfl
    rw [mark?, hs, Option.map_some, hpos] at hq
    cases hq
  rwa [hmark, if_neg hne]

end LabelTable

/-! ### Operations on a scope that succeed -/

namespace Emission

variable {b b' : Body} {h : ScopeHandle}

theorem findScope_ok {α : Type} {f : OpenScope → Emission α} {a : α}
    (hout : (findScope h >>= f).outcome c b = (.ok a, b')) :
    ∃ o, h.context = c.id ∧ b.scopes.find h.id = .ok o ∧ (f o).outcome c b = (.ok a, b') := by
  rcases findScope_bind h f with ⟨e, hrefused⟩ | ⟨o, hctx, hfind, heq⟩
  · rw [hout] at hrefused
    cases hrefused
  · exact ⟨o, hctx, hfind, heq.symm.trans hout⟩

theorem breakScope_ok (hout : (breakScope h).outcome c b = (.ok (), b')) :
    ∃ o, h.context = c.id ∧ b.scopes.find h.id = .ok o ∧ (jump o.exit).outcome c b = (.ok (), b') :=
  findScope_ok hout

theorem continueLoop_ok (hout : (continueLoop h).outcome c b = (.ok (), b')) :
    ∃ o, h.context = c.id ∧ b.scopes.find h.id = .ok o ∧ h.kind = .loop ∧
      (jump o.entry).outcome c b = (.ok (), b') := by
  obtain ⟨o, hctx, hfind, hout⟩ := findScope_ok hout
  by_cases hloop : h.kind = .loop
  · rw [if_neg (by simpa using hloop)] at hout
    exact ⟨o, hctx, hfind, hloop, hout⟩
  · rw [if_pos hloop] at hout
    cases hout

theorem closeScope_ok (hout : (closeScope h).outcome c b = (.ok (), b')) :
    ∃ o rest, h.context = c.id ∧ b.scopes.find h.id = .ok o ∧ b.scopes.opened = o :: rest := by
  rcases closeScope_innermost h c b with ⟨e, hrefused⟩ | ⟨o, rest, hctx, hfind, hopened, -⟩
  · rw [hout] at hrefused
    cases hrefused
  · exact ⟨o, rest, hctx, hfind, hopened⟩

end Emission

/-! ### What an operation does to marks and scopes -/

namespace Operation

/-- Whether the operation opens or closes a scope. -/
def handlesScopes : Operation → Bool
  | .openScope _ _ | .closeScope _ => true
  | _ => false

variable {d : Discipline} {b b' : Body}

/-- Scopes are left alone and marks are kept. -/
structure Calm (b b' : Body) : Prop where
  scopes : b'.scopes = b.scopes
  marks : b.emitter.labels.KeepsMarks b'.emitter.labels

theorem calm_refl (b : Body) : Calm b b := ⟨rfl, .refl _⟩

theorem calm_of_grows (h : b.Grows b') : Calm b b' :=
  ⟨h.scopes, by rw [h.emitter.labels]; exact .refl _⟩

theorem Calm.release (h : Calm b b') (options : EmitOptions) : Calm b (b'.release options) :=
  ⟨h.scopes, h.marks⟩

theorem calm_of_failed {options : EmitOptions} (h : b.Failed options b') : Calm b b' := by
  obtain ⟨k, -, -, rfl | rfl⟩ := h <;> exact ⟨rfl, .refl _⟩

theorem calm_of_jump (hgrows : b.Grows b') {op : Opcode} (hop : op.sort = .label) {e : Emitter}
    (hjump : (Emitter.emitJump op l).outcome b'.emitter = (.ok (), e)) :
    Calm b { b' with emitter := e } := by
  refine ⟨hgrows.scopes, ?_⟩
  have hmarks := Emitter.sameMarks_jump hop hjump
  rw [hgrows.emitter.labels] at hmarks
  exact hmarks.keepsMarks

theorem calm_jump (h : (Emission.jump l).outcome c b = (.ok (), b')) : Calm b b' := by
  rcases jump_cases l c b with ⟨e, hout⟩ | ⟨e, hout, hjump⟩
  · rw [h] at hout
    cases hout
  · rw [h] at hout
    cases hout
    exact calm_of_jump (.refl b) rfl hjump

theorem calm_markLabel (hb : b.Sound c d segs)
    (h : (Emission.markLabel l).outcome c b = (.ok (), b')) :
    Calm b b' := by
  unfold Emission.markLabel at h
  rw [outcome_onEmitter, (hb.linked.fillable _).markLabel_outcome] at h
  cases hs : b.emitter.labels.state l with
  | error e =>
    rw [hs] at h
    cases h
  | ok s =>
    obtain ⟨-, hlabel⟩ := state_ok hs
    obtain ⟨_ | p, fixups⟩ := s
    · by_cases hlarge : 4294967296 ≤ b.emitter.offset
      · simp [hs, hlarge] at h
      · simp only [hs, hlarge, Option.isSome_none, Bool.false_eq_true, if_false] at h
        cases h
        exact ⟨rfl, keepsMarks_mark hlabel rfl⟩
    · simp [hs] at h

theorem calm_assignBy (hb : b.Sound c d segs) {forceStack : Bool} {dest source : Symbol}
    (h : (Emission.assignBy forceStack dest source).outcome c b = (.ok (), b')) : Calm b b' := by
  rcases assignBy_cases hb forceStack dest source with ⟨e, b₁, hout, -⟩ |
      ⟨b₁, ts, xs, hout, -, -, -, -, -, hgrows, -⟩ <;> rw [h] at hout <;> cases hout
  exact (calm_of_grows hgrows).release _

theorem done_ok {x : Emission Unit} (h : (do
    x; return Answer.done : Emission Answer).outcome c b = (.ok a, b')) :
    a = .done ∧ x.outcome c b = (.ok (), b') := by
  obtain ⟨_, _, hx, ha⟩ := bind_ok h
  cases ha
  exact ⟨rfl, hx⟩

theorem calm_of_ok (hop : op.handlesScopes = false) (hb : b.Sound c d segs)
    (h : op.emission.outcome c b = (.ok a, b')) :
    Calm b b' ∧ ∀ handle, a ≠ .scope handle := by
  have hdone : ∀ {x : Emission Unit}, (x.outcome c b = (.ok (), b') → Calm b b') →
      (do x; return Answer.done : Emission Answer).outcome c b = (.ok a, b') →
      Calm b b' ∧ ∀ handle, a ≠ .scope handle := by
    intro x hx hout
    obtain ⟨ha, hout⟩ := done_ok hout
    exact ⟨hx hout, by simp [ha]⟩
  cases op with
  | make f =>
    obtain ⟨s, b₁, hmake, hs⟩ := bind_ok h
    cases hs
    rw [outcome_checking] at hmake
    obtain ⟨-, rfl⟩ := Prod.mk.inj hmake
    exact ⟨calm_refl b, by simp⟩
  | declare type =>
    obtain ⟨s, b₁, hdecl, hs⟩ := bind_ok h
    cases hs
    refine ⟨?_, by simp⟩
    rcases declareVariable_cases type c b with ⟨e, hout⟩ | ⟨-, hout⟩ <;> rw [hdecl] at hout <;>
      cases hout
    exact ⟨rfl, .refl _⟩
  | load s intent =>
    refine hdone (fun hload => ?_) h
    rcases load_cases hb s intent with ⟨e, k, hout, -⟩ | ⟨b₁, ts, xs, hout, -, -, hgrows, -⟩ <;>
      rw [hload] at hout <;> cases hout
    exact calm_of_grows hgrows
  | assign dest source | assignStackMediated dest source =>
    exact hdone (calm_assignBy hb) h
  | statement s =>
    refine hdone (fun hstmt => ?_) h
    rcases statement_cases hb s with ⟨e, b₁, hout, -⟩ | ⟨b₁, ts, xs, hout, -, -, hgrows, -⟩ <;>
      rw [hstmt] at hout <;> cases hout
    exact (calm_of_grows hgrows).release _
  | returnValue value =>
    refine hdone (fun hreturn => ?_) h
    cases value with
    | none =>
      rcases returnVoid_cases hb with ⟨e, b₁, hout, -⟩ | ⟨b₁, hout, -, hgrows, -⟩ <;>
        rw [hreturn] at hout <;> cases hout
      exact (calm_of_grows hgrows).release _
    | some s =>
      rcases returnValue_cases hb s with ⟨e, b₁, hout, -⟩ |
          ⟨b₁, ts, xs, hout, -, -, -, -, hgrows, -⟩ <;> rw [hreturn] at hout <;> cases hout
      exact (calm_of_grows hgrows).release _
  | defineLabel =>
    cases h
    exact ⟨⟨rfl, (sameMarks_define _).keepsMarks⟩, by simp⟩
  | markLabel l => exact hdone (calm_markLabel hb) h
  | jump l => exact hdone calm_jump h
  | breakScope scope =>
    refine hdone (fun hbreak => ?_) h
    obtain ⟨o, -, -, hjump⟩ := breakScope_ok hbreak
    exact calm_jump hjump
  | continueLoop scope =>
    refine hdone (fun hcontinue => ?_) h
    obtain ⟨o, -, -, -, hjump⟩ := continueLoop_ok hcontinue
    exact calm_jump hjump
  | breakIfFalse scope s =>
    refine hdone (fun hbreak => ?_) h
    rcases breakIfFalse_cases hb scope s with ⟨e, b₁, hout, -⟩ |
        ⟨o, b₁, ts, xs, e, -, hout, -, -, -, hgrows, -, hjump⟩ <;> rw [hbreak] at hout <;>
          cases hout
    exact (calm_of_jump hgrows rfl hjump).release _
  | acquireTemporary type =>
    obtain ⟨slot, b₁, hacquire, hs⟩ := bind_ok h
    cases hs
    have hgrows := (emits_acquireTemporary (c := c) type b hb.pool).1
    rw [hacquire] at hgrows
    exact ⟨calm_of_grows hgrows, by simp⟩
  | release =>
    cases h
    exact ⟨(calm_refl b).release _, by simp⟩
  | setLine line =>
    cases h
    exact ⟨⟨rfl, .refl _⟩, by simp⟩
  | openScope _ _ | closeScope _ => cases hop

end Operation

theorem ScopeStack.find_eq {s : ScopeStack} {id : Nat} (h : s.find id = .ok o) :
    s.closed[id]? = some false ∧ o ∈ s.opened ∧ o.id = id := by
  obtain ⟨hmem, hfind⟩ := find_ok h
  refine ⟨?_, hmem, by simpa using find?_some hfind⟩
  unfold find at h
  split at h
  · cases h
  · rename_i hclosed
    simpa using hclosed

namespace Session

/-- What an operation does to scopes and to their handles: nothing, or it opens one more, or it
closes the innermost one. -/
inductive Turn (s : Session) (op : Operation) (r : Except EmitError Answer) (s' : Session) : Prop
  | quiet (hr : (∃ e, r = .error e) ∨ op.handlesScopes = false)
      (hscopes : s'.body.scopes = s.body.scopes) (hheld : s'.scopes = s.scopes)
  | opens {kind : ScopeKind} {condition : Option Symbol} (hop : op = .openScope kind condition)
      (hr : r = .ok (.scope ⟨s.setting.id, s.body.scopes.closed.size, kind⟩))
      (hscopes : s'.body.scopes = s.body.scopes.push kind ⟨s.setting.id,
        s.body.emitter.labels.labels.size⟩
        ⟨s.setting.id, s.body.emitter.labels.labels.size + 1⟩)
      (hheld : s'.scopes = ⟨s.setting.id, s.body.scopes.closed.size, kind⟩ :: s.scopes)
  | closes {h : ScopeHandle} {o : OpenScope} {rest : List OpenScope} (hop : op = .closeScope h)
      (hr : r = .ok .done) (hcontext : h.context = s.setting.id)
      (hfind : s.body.scopes.find h.id = .ok o) (hopened : s.body.scopes.opened = o :: rest)
      (hscopes : s'.body.scopes = s.body.scopes.pop h.id) (hheld : s'.scopes = s.scopes)

variable {s s' : Session}

/-- Every operation that is permitted keeps the marks and takes such a turn. -/
theorem Inv.turn (h : s.Inv .free segs) (hpermit : s.Permits op) :
    s.Turn op (s.perform op).1 (s.perform op).2 ∧
      s.body.emitter.labels.KeepsMarks (s.perform op).2.body.emitter.labels := by
  have hends := h.ends hpermit (Discipline.free_allows op)
  have hcalm : ∀ {r s'}, (∃ e, r = .error e) ∨ op.handlesScopes = false →
      Operation.Calm s.body s'.body → s'.scopes = s.scopes →
      s.Turn op r s' ∧ s.body.emitter.labels.KeepsMarks s'.body.emitter.labels :=
        fun hr hcalm hheld =>
    ⟨.quiet hr hcalm.scopes hheld, hcalm.marks⟩
  rw [perform_eq]
  rcases hout : op.emission.outcome s.setting s.body with ⟨e | a, b⟩
  · rw [hout] at hends
    refine hcalm (.inl ⟨e, rfl⟩) ?_ rfl
    rcases hends with hfail | hfail | ⟨-, _, _, _, _, -, -, -, -, rfl, -, -⟩
    · exact calm_of_failed hfail
    · have hkept := calm_of_failed hfail
      exact ⟨hkept.scopes, sameMarks_opened.keepsMarks.trans hkept.marks⟩
    · exact ⟨rfl, .refl _⟩
  cases hhandles : op.handlesScopes with
  | false =>
    obtain ⟨hkept, hans⟩ := calm_of_ok hhandles h.body.sound hout
    refine hcalm (.inr hhandles) ?_ ?_
    · cases a <;> exact hkept
    · cases a with
      | scope handle => exact absurd rfl (hans handle)
      | _ => rfl
  | true =>
    cases op with
    | openScope kind condition =>
      have hmade : ∀ x ∈ condition, x.context = s.setting.id →
          s.setting.Made .free s.body.locals x := fun x hx hctx =>
        h.symbols x ((hpermit.symbols x (by simpa [Operation.symbols] using hx)).resolve_right
          fun hne => hne hctx)
      obtain ⟨handle, b₁, hopen, ha⟩ := bind_ok hout
      cases ha
      rcases openScope_cases h.body.sound kind hmade (fun _ _ => trivial) with
        ⟨e, b₂, hrefused, -⟩ | ⟨b₂, hok, hopened⟩
      · rw [hopen] at hrefused
        cases hrefused
      · rw [hopen] at hok
        cases hok
        obtain ⟨p, fixups, henter, -⟩ := hopened.entering
        refine ⟨.opens rfl rfl rfl rfl, ?_⟩
        show s.body.emitter.labels.KeepsMarks b₂.emitter.labels
        rw [henter.labels]
        exact sameMarks_opened.keepsMarks
    | closeScope handle =>
      obtain ⟨rfl, hclose⟩ := done_ok hout
      obtain ⟨o, rest, hctx, hfind, hopened⟩ := closeScope_ok hclose
      obtain ⟨o', rest', bytes, segs', st, -, -, hst, hpos, -, rfl⟩ :=
        closeScope_done h.body.sound h.body.scopes hclose
      exact ⟨.closes rfl rfl hctx hfind hopened rfl rfl, keepsMarks_mark hst hpos⟩
    | _ => cases hhandles

/-! ### Numbers of scopes -/

/-- What is known of the numbers of scopes: those of the open scopes go down from the innermost one
outwards, and a scope that the user holds is known by its number. -/
structure Numbered (s : Session) : Prop where
  opened : ∀ o ∈ s.body.scopes.opened, s.body.scopes.closed[o.id]? = some false
  order : s.body.scopes.opened.Pairwise fun o o' => o'.id < o.id
  held : ∀ h ∈ s.scopes, h.id < s.body.scopes.closed.size
  unique : ∀ h ∈ s.scopes, ∀ h' ∈ s.scopes, h.id = h'.id → h = h'

theorem numbered_start (id : ContextId) (registry : Registry) (function : FunctionDecl)
    (options : EmitOptions) : (start id registry function options).Numbered where
  opened := by simp [start, body, Context.start, Body.start]
  order := by simp [start, body, Context.start, Body.start]
  held := by simp [start]
  unique := by simp [start]

theorem Numbered.eq_of_id (hs : s.Numbered) {o' : OpenScope} (ho : o ∈ s.body.scopes.opened)
    (ho' : o' ∈ s.body.scopes.opened) (hid : o.id = o'.id) : o = o' := by
  have hdist : (s.body.scopes.opened.map OpenScope.id).Nodup :=
    pairwise_map.mpr (hs.order.imp fun hlt => (ne_of_lt hlt).symm)
  exact inj_on_of_nodup_map hdist ho ho' hid

variable {r : Except EmitError Answer}

theorem Numbered.turn (hs : s.Numbered) (h : s.Turn op r s') : s'.Numbered := by
  cases h with
  | quiet hr hscopes hheld =>
    exact ⟨by rw [hscopes]; exact hs.opened, by rw [hscopes]; exact hs.order,
      by rw [hscopes, hheld]; exact hs.held, by rw [hheld]; exact hs.unique⟩
  | @opens kind condition hop hr hscopes hheld =>
    have hlt : ∀ o ∈ s.body.scopes.opened, o.id < s.body.scopes.closed.size := fun o ho =>
      (Array.getElem?_eq_some_iff.mp (hs.opened o ho)).1
    refine ⟨?_, ?_, ?_, ?_⟩
    · rw [hscopes]
      refine forall_mem_cons.mpr ⟨by simp [push], fun o ho => ?_⟩
      rw [push, Array.getElem?_push, if_neg (Nat.ne_of_lt (hlt o ho))]
      exact hs.opened o ho
    · rw [hscopes]
      exact pairwise_cons.mpr ⟨hlt, hs.order⟩
    · rw [hscopes, hheld]
      simp only [push, Array.size_push]
      exact forall_mem_cons.mpr ⟨lt_succ_self _, fun o ho => lt_succ_of_lt (hs.held o ho)⟩
    · rw [hheld]
      have hnew : ∀ o ∈ s.scopes, o.id ≠ s.body.scopes.closed.size := fun o ho =>
        Nat.ne_of_lt (hs.held o ho)
      intro o ho o' ho' heq
      rcases mem_cons.mp ho with rfl | ho <;> rcases mem_cons.mp ho' with rfl | ho'
      · rfl
      · exact absurd heq.symm (hnew o' ho')
      · exact absurd heq (hnew o ho)
      · exact hs.unique o ho o' ho' heq
  | @closes h o rest hop hr hctx hfind hopened hscopes hheld =>
    obtain ⟨-, -, hid⟩ := find_eq hfind
    have horder := hs.order
    rw [hopened] at horder
    obtain ⟨hinner, horder⟩ := pairwise_cons.mp horder
    have htail : (s.body.scopes.pop h.id).opened = rest := by
      rw [pop, hopened]
      rfl
    refine ⟨?_, ?_, ?_, by rw [hheld]; exact hs.unique⟩
    · rw [hscopes, htail]
      intro o' ho'
      have hne : h.id ≠ o'.id := by
        rw [← hid]
        exact (Nat.ne_of_lt (hinner o' ho')).symm
      rw [pop, Array.getElem?_setIfInBounds_ne hne]
      exact hs.opened o' (by rw [hopened]; exact mem_cons_of_mem o ho')
    · rwa [hscopes, htail]
    · rw [hscopes, hheld]
      simpa [pop] using hs.held

section

variable (h : s.Turn op r s')
include h

theorem Turn.size_le : s.body.scopes.closed.size ≤ s'.body.scopes.closed.size := by
  cases h with
  | quiet hr hscopes hheld => rw [hscopes]
  | opens hop hr hscopes hheld => simp [hscopes, push]
  | closes hop hr hctx hfind hopened hscopes hheld => simp [hscopes, pop]

theorem Turn.closed (hn : s.body.scopes.closed[n]? = some true) :
    s'.body.scopes.closed[n]? = some true := by
  have hlt := (Array.getElem?_eq_some_iff.mp hn).1
  cases h with
  | quiet hr hscopes hheld => rw [hscopes, hn]
  | opens hop hr hscopes hheld =>
    rw [hscopes, push, Array.getElem?_push, if_neg (Nat.ne_of_lt hlt), hn]
  | closes hop hr hctx hfind hopened hscopes hheld =>
    rw [hscopes, pop, Array.getElem?_setIfInBounds]
    split
    · rename_i heq
      simp [heq, hlt]
    · exact hn

theorem Turn.held : s.scopes ⊆ s'.scopes := by
  cases h with
  | quiet hr hscopes hheld => rw [hheld]; exact fun _ h => h
  | opens hop hr hscopes hheld => rw [hheld]; exact subset_cons_self ..
  | closes hop hr hctx hfind hopened hscopes hheld => rw [hheld]; exact fun _ h => h

/-- An open scope stays open, unless it is the innermost one and is closed. -/
theorem Turn.opened (ho : o ∈ s.body.scopes.opened) : o ∈ s'.body.scopes.opened ∨
      ∃ handle, op = .closeScope handle ∧ r = .ok .done ∧ handle.id = o.id ∧
      handle.context = s.setting.id ∧
        s.body.scopes.opened = o :: s'.body.scopes.opened ∧
        s'.body.scopes.closed[o.id]? = some true := by
  cases h with
  | quiet hr hscopes hheld => exact .inl (by rw [hscopes]; exact ho)
  | opens hop hr hscopes hheld => exact .inl (by rw [hscopes]; exact mem_cons_of_mem _ ho)
  | @closes h o' rest hop hr hctx hfind hopened hscopes hheld =>
    obtain ⟨hclosed, -, hid⟩ := find_eq hfind
    have htail : s'.body.scopes.opened = rest := by
      rw [hscopes, pop, hopened]
      rfl
    rw [hopened] at ho
    rcases mem_cons.mp ho with rfl | ho
    · refine .inr ⟨h, hop, hr, hid.symm, hctx, by rw [hopened, htail], ?_⟩
      have hlt := (Array.getElem?_eq_some_iff.mp hclosed).1
      rw [hscopes, pop, hid, Array.getElem?_setIfInBounds_self_of_lt hlt]
    · exact .inl (by rw [htail]; exact ho)

end

end Session

/-! ### Times -/

namespace Session

/-- The session after the first `k` operations of a list. -/
def upTo (s : Session) (ops : List Operation) (k : Nat) : Session := s.performAll (ops.take k)

/-- The `k`-th operation of a list is performed and answered. -/
structure Does (s : Session) (ops : List Operation) (k : Nat) (op : Operation) (a : Answer) :
    Prop where
  operation : ops[k]? = some op
  answer : ((s.upTo ops k).perform op).1 = .ok a

variable {s : Session} {ops : List Operation}

theorem upTo_succ (hop : ops[k]? = some op) :
    s.upTo ops (k + 1) = ((s.upTo ops k).perform op).2 := by
  induction ops generalizing s k with
  | nil => cases hop
  | cons first ops ih =>
    cases k with
    | zero =>
      cases hop
      rfl
    | succ k => exact ih hop

theorem permits_upTo (hpermit : s.PermitsAll ops) (hop : ops[k]? = some op) :
    (s.upTo ops k).Permits op := by
  induction ops generalizing s k with
  | nil => cases hop
  | cons first ops ih =>
    cases k with
    | zero =>
      cases hop
      exact hpermit.1
    | succ k => exact ih hpermit.2 hop

theorem upTo_length (s : Session) (ops : List Operation) :
    s.upTo ops ops.length = s.performAll ops := by
  rw [upTo, take_length]

/-- A session in order, from which a list of operations is performed. -/
structure Course (s : Session) (ops : List Operation) : Prop where
  inv : ∃ segs, s.Inv .free segs
  numbered : s.Numbered
  permits : s.PermitsAll ops

namespace Course

theorem inv_upTo (h : s.Course ops) (hk : k ≤ ops.length) :
    (∃ segs, (s.upTo ops k).Inv .free segs) ∧ (s.upTo ops k).setting = s.setting := by
  induction k with
  | zero => exact ⟨h.inv, rfl⟩
  | succ k ih =>
    obtain ⟨⟨segs, hinv⟩, hsetting⟩ := ih (le_of_succ_le hk)
    have hop : ops[k]? = some ops[k] := getElem?_eq_getElem hk
    obtain ⟨segs', hinv', -, hsetting'⟩ := hinv.step
      ⟨_, permits_upTo h.permits hop, Discipline.free_allows _, upTo_succ hop⟩
    exact ⟨⟨segs', hinv'⟩, hsetting'.trans hsetting⟩

theorem turn (h : s.Course ops) (hop : ops[k]? = some op) :
    (s.upTo ops k).Turn op ((s.upTo ops k).perform op).1 (s.upTo ops (k + 1)) ∧
      (s.upTo ops k).body.emitter.labels.KeepsMarks (s.upTo ops (k + 1)).body.emitter.labels := by
  have hlt := (List.getElem?_eq_some_iff.mp hop).1
  obtain ⟨⟨segs, hinv⟩, -⟩ := h.inv_upTo (le_of_lt hlt)
  rw [upTo_succ hop]
  exact hinv.turn (permits_upTo h.permits hop)

/-- What turns keep is kept from one time to a later one. -/
theorem induction (h : s.Course ops) {P : Session → Prop}
    (hstep : ∀ (t t' : Session) op r, t.Turn op r t' →
      t.body.emitter.labels.KeepsMarks t'.body.emitter.labels → P t → P t') {j : Nat} (hij : i ≤ j)
    (hj : j ≤ ops.length) (hi : P (s.upTo ops i)) : P (s.upTo ops j) := by
  induction j, hij using le_induction with
  | base => exact hi
  | succ j hij ih =>
    have hop : ops[j]? = some ops[j] := getElem?_eq_getElem hj
    obtain ⟨hturn, hmarks⟩ := h.turn hop
    exact hstep _ _ _ _ hturn hmarks (ih (le_of_succ_le hj))

theorem numbered_upTo (h : s.Course ops) (hk : k ≤ ops.length) : (s.upTo ops k).Numbered :=
  h.induction (fun _ _ _ _ hturn _ ht => ht.turn hturn) (zero_le k) hk h.numbered

end Course

/-- A scope that is open from time `i` on is closed at time `j`. -/
structure Closing (s : Session) (ops : List Operation) (o : OpenScope) (i j : Nat)
    (handle : ScopeHandle) : Prop where
  le : i ≤ j
  closes : s.Does ops j (.closeScope handle) .done
  id : handle.id = o.id
  context : handle.context = s.setting.id
  opened : ∀ k, i ≤ k → k ≤ j → o ∈ (s.upTo ops k).body.scopes.opened
  innermost : (s.upTo ops j).body.scopes.opened = o :: (s.upTo ops (j + 1)).body.scopes.opened
  closed : (s.upTo ops (j + 1)).body.scopes.closed[o.id]? = some true

namespace Course

theorem opened_or_closing (h : s.Course ops) (hin : i ≤ n) (hn : n ≤ ops.length)
    (hi : o ∈ (s.upTo ops i).body.scopes.opened) :
    (∀ k, i ≤ k → k ≤ n → o ∈ (s.upTo ops k).body.scopes.opened) ∨ ∃ j handle,
      s.Closing ops o i j handle := by
  induction n, hin using le_induction with
  | base =>
    refine .inl fun k hik hki => ?_
    rwa [le_antisymm hki hik]
  | succ n hin ih =>
    rcases ih (le_of_succ_le hn) with hopened | hclosing
    · have hop : ops[n]? = some ops[n] := getElem?_eq_getElem hn
      obtain ⟨-, hsetting⟩ := h.inv_upTo (le_of_succ_le hn)
      rcases (h.turn hop).1.opened (hopened n hin (le_refl n)) with hstays |
          ⟨handle, hclose, hdone, hid, hctx, hinnermost, hclosed⟩
      · refine .inl fun k hik hkn => ?_
        rcases lt_or_eq_of_le hkn with hlt | rfl
        · exact hopened k hik (le_of_lt_succ hlt)
        · exact hstays
      · refine .inr ⟨n, handle, hin, ⟨by rw [hop, hclose], ?_⟩, hid, hctx.trans (by rw [hsetting]),
          hopened, hinnermost, hclosed⟩
        rwa [← hclose]
    · exact .inr hclosing

end Course

/-! ### Scopes from their opening to their closing -/

/-- A scope is opened at time `i` and closed at time `j`. -/
structure Encloses (s : Session) (ops : List Operation) (kind : ScopeKind)
    (condition : Option Symbol) (h : ScopeHandle) (i j : Nat) : Prop where
  opens : s.Does ops i (.openScope kind condition) (.scope h)
  closes : s.Does ops j (.closeScope h) .done

variable {kind : ScopeKind} {condition : Option Symbol} {h : ScopeHandle} {j : Nat}

theorem Does.lt (hdoes : s.Does ops k op a) : k < ops.length :=
  (List.getElem?_eq_some_iff.mp hdoes.operation).1

/-- The scope that is opened at a time. -/
def openedAt (s : Session) (ops : List Operation) (kind : ScopeKind) (i : Nat) : OpenScope :=
  let b := (s.upTo ops i).body
  ⟨b.scopes.closed.size, kind, ⟨s.setting.id, b.emitter.labels.labels.size⟩,
    ⟨s.setting.id, b.emitter.labels.labels.size + 1⟩⟩

namespace Course

variable (hs : s.Course ops)
include hs

section

variable (hopen : s.Does ops i (.openScope kind condition) (.scope h))
include hopen

theorem opens : h = ⟨s.setting.id, (s.upTo ops i).body.scopes.closed.size, kind⟩ ∧
      (s.upTo ops (i + 1)).body.scopes.opened = s.openedAt ops kind i ::
        (s.upTo ops i).body.scopes.opened ∧
      h ∈ (s.upTo ops (i + 1)).scopes := by
  obtain ⟨-, hsetting⟩ := hs.inv_upTo (le_of_lt hopen.lt)
  have hturn := (hs.turn hopen.operation).1
  rw [hopen.answer] at hturn
  cases hturn with
  | quiet hr hscopes hheld =>
    rcases hr with ⟨e, hr⟩ | hr
    · cases hr
    · cases hr
  | opens hop hr hscopes hheld =>
    cases hop
    cases hr
    rw [hscopes, hheld, hsetting]
    exact ⟨rfl, rfl, mem_cons_self ..⟩
  | closes hop => cases hop

theorem lt_of_found (hdoes : s.Does ops k op a) (hmem : h ∈ op.scopes) : i < k := by
  obtain ⟨hhandle, -, -⟩ := hs.opens hopen
  obtain ⟨-, hsetting⟩ := hs.inv_upTo (le_of_lt hdoes.lt)
  have hheld : h ∈ (s.upTo ops k).scopes := by
    refine ((permits_upTo hs.permits hdoes.operation).scopes h hmem).resolve_right ?_
    rw [hsetting, hhandle]
    simp
  have hlt := (hs.numbered_upTo (le_of_lt hdoes.lt)).held h hheld
  rw [hhandle] at hlt
  by_contra hle
  have hsize := hs.induction (P := fun t => (s.upTo ops k).body.scopes.closed.size ≤
      t.body.scopes.closed.size) (fun _ _ _ _ hturn _ ht => ht.trans hturn.size_le)
    (not_lt.mp hle) (le_of_lt hopen.lt) (le_refl _)
  exact absurd hlt (not_lt.mpr hsize)

/-- A scope that is opened stays open up to a time, or is closed with its handle. -/
theorem opened_or_closing_with (hin : i < n) (hn : n ≤ ops.length) :
    (∀ k, i < k → k ≤ n → s.openedAt ops kind i ∈ (s.upTo ops k).body.scopes.opened) ∨
      ∃ j, s.Closing ops (s.openedAt ops kind i) (i + 1) j h := by
  obtain ⟨hhandle, hopened, hheld⟩ := hs.opens hopen
  have hmem : s.openedAt ops kind i ∈ (s.upTo ops (i + 1)).body.scopes.opened := by
    rw [hopened]
    exact mem_cons_self ..
  refine (hs.opened_or_closing hin hn hmem).imp_right fun ⟨j, handle, hclose⟩ => ⟨j, ?_⟩
  -- both handles are held when the scope is closed, and they have one number
  have hj := le_of_lt hclose.closes.lt
  obtain ⟨-, hsetting⟩ := hs.inv_upTo hj
  have hheld' : h ∈ (s.upTo ops j).scopes := hs.induction (P := fun t => h ∈ t.scopes)
    (fun _ _ _ _ hturn _ ht => hturn.held ht) hclose.le hj hheld
  have hhandle' : handle ∈ (s.upTo ops j).scopes := by
    refine ((permits_upTo hs.permits hclose.closes.operation).scopes handle
      (by simp [Operation.scopes])).resolve_right ?_
    rw [hsetting, hclose.context]
    simp
  have hid : handle.id = h.id := by
    rw [hclose.id, hhandle]
    rfl
  rwa [← (hs.numbered_upTo hj).unique handle hhandle' h hheld' hid]

/-- An operation that finds a scope by its handle comes before the scope is closed, and finds the
one that was opened with the handle. -/
theorem found (hclose : s.Closing ops (s.openedAt ops kind i) (i + 1) j h)
    (hdoes : s.Does ops k op a)
    (hmem : h ∈ op.scopes) (hfind : (s.upTo ops k).body.scopes.find h.id = .ok o) :
    k ≤ j ∧ o = s.openedAt ops kind i := by
  obtain ⟨hopen', ho, hid⟩ := find_eq hfind
  have hkj : k ≤ j := by
    by_contra hlt
    have hclosed :=
      hs.induction (P := fun t => t.body.scopes.closed[(s.openedAt ops kind i).id]? = some true)
      (fun _ _ _ _ hturn _ ht => hturn.closed ht) (Nat.lt_of_not_le hlt) (Nat.le_of_lt hdoes.lt)
      hclose.closed
    rw [← hclose.id, hopen'] at hclosed
    cases hclosed
  refine ⟨hkj, (hs.numbered_upTo (le_of_lt hdoes.lt)).eq_of_id ho ?_ (hid.trans hclose.id)⟩
  exact hclose.opened k (hs.lt_of_found hopen hdoes hmem) hkj

end

theorem closes (hclose : s.Does ops j (.closeScope h) .done) :
    ∃ o, (s.upTo ops j).body.scopes.find h.id = .ok o ∧
      (s.upTo ops j).body.scopes.opened = o :: (s.upTo ops (j + 1)).body.scopes.opened := by
  have hturn := (hs.turn hclose.operation).1
  rw [hclose.answer] at hturn
  cases hturn with
  | quiet hr hscopes hheld =>
    rcases hr with ⟨e, hr⟩ | hr
    · cases hr
    · cases hr
  | opens hop => cases hop
  | @closes handle o rest hop hr hctx hfind hopened hscopes hheld =>
    cases hop
    refine ⟨o, hfind, ?_⟩
    rw [hscopes, pop, hopened]
    rfl

theorem closing_of_encloses (he : s.Encloses ops kind condition h i j) :
    s.Closing ops (s.openedAt ops kind i) (i + 1) j h := by
  obtain ⟨o, hfind, hopened⟩ := hs.closes he.closes
  obtain ⟨-, ho, hid⟩ := find_eq hfind
  obtain ⟨hhandle, -, -⟩ := hs.opens he.opens
  have hij := hs.lt_of_found he.opens he.closes (by simp [Operation.scopes])
  have hnum := hs.numbered_upTo (le_of_lt he.closes.lt)
  -- once it is closed, it is not open any more
  have hgone : s.openedAt ops kind i ∈ (s.upTo ops j).body.scopes.opened →
      s.openedAt ops kind i ∉ (s.upTo ops (j + 1)).body.scopes.opened := by
    intro hmem hmem'
    have heq : o = s.openedAt ops kind i := hnum.eq_of_id ho hmem (by rw [hid, hhandle]; rfl)
    have horder := hnum.order
    rw [hopened, heq] at horder
    exact lt_irrefl _ ((pairwise_cons.mp horder).1 _ hmem')
  rcases hs.opened_or_closing_with he.opens (lt_succ_of_lt hij) he.closes.lt with
    hstays | ⟨j', hclose⟩
  · exact absurd (hstays (j + 1) (lt_succ_of_lt hij) (le_refl _)) (hgone (hstays j hij (le_succ j)))
  · obtain ⟨hle, -⟩ := hs.found he.opens hclose he.closes (by simp [Operation.scopes]) hfind
    rcases lt_or_eq_of_le hle with hlt | rfl
    · exact absurd (hclose.opened (j + 1) (lt_succ_of_lt hij) hlt) (hgone (hclose.opened j hij hle))
    · exact hclose

/-- A scope that is opened later lies inside or behind. -/
theorem nested (h₁ : s.Encloses ops kind condition h i j) {kind' : ScopeKind}
    {condition' : Option Symbol} {h' : ScopeHandle} {i' j' : Nat}
    (h₂ : s.Encloses ops kind' condition' h' i' j') (hii : i < i') : j < i' ∨ j' < j := by
  have hclose := hs.closing_of_encloses h₁
  have hclose' := hs.closing_of_encloses h₂
  by_contra hnot
  have hj : i' ≤ j ∧ j ≤ j' := by omega
  have hne : i' ≠ j := by
    rintro rfl
    have hop := h₁.closes.operation
    rw [h₂.opens.operation] at hop
    cases hop
  -- the scope that is closed first would have to be the innermost one, and it was opened first
  have hmem := hclose'.opened j (by omega) hj.2
  rw [hclose.innermost] at hmem
  have horder := (hs.numbered_upTo (le_of_lt h₁.closes.lt)).order
  rw [hclose.innermost] at horder
  have hid : (s.openedAt ops kind' i').id ≤ (s.openedAt ops kind i).id := by
    rcases mem_cons.mp hmem with heq | hmem
    · rw [heq]
    · exact le_of_lt ((pairwise_cons.mp horder).1 _ hmem)
  obtain ⟨hhandle, -, hheld⟩ := hs.opens h₁.opens
  have hlt := (hs.numbered_upTo h₁.opens.lt).held h hheld
  have hsize := hs.induction
    (P := fun t => (s.upTo ops (i + 1)).body.scopes.closed.size ≤ t.body.scopes.closed.size)
    (fun _ _ _ _ hturn _ ht => ht.trans hturn.size_le) hii (le_of_lt h₂.opens.lt) (le_refl _)
  rw [hhandle] at hlt
  exact absurd (lt_of_lt_of_le hlt hsize) (not_lt.mpr hid)

end Course

end Session

end StackCode
