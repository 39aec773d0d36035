import StackCode.Proofs.ScopeJumps

/-!
# Scopes are closed in the order of a stack

The scope that can be closed is the innermost one, and it always can be, as long as the code is
short enough for a jump: its entry is marked, and its exit is not. A scope is open as long as it was
not closed. A handle is given up by closing, also if closing is refused; a user who still holds the
handles of all open scopes can close them one after the other, the last one first.
-/

namespace StackCode

open Emission List Operation ScopeStack

variable {h : ScopeHandle} {o : OpenScope} {rest : List OpenScope} {s s' : Session}
  {segs : List Listing}
  {op : Operation} {r : Except EmitError Answer} {ops : List Operation}

/-! ### When a scope can be closed -/

namespace Emission

variable {c : Setting} {b : Body}

/-- Closing the innermost scope is not refused. -/
theorem closeScope_eq (hctx : h.context = c.id) (hclosed : b.scopes.closed[h.id]? = some false)
    (hopen : b.scopes.opened = o :: rest) (hid : o.id = h.id) :
    (closeScope h).outcome c b = (do
      closing o
      markLabel o.exit
      modify fun b => { b with scopes := b.scopes.pop h.id } : Emission Unit).outcome c b := by
  have hfind : b.scopes.find h.id = .ok o := by
    rw [find, if_neg (by simpa using hclosed), hopen, find?_cons_of_pos (by simpa using hid)]
  have hcheck : c.check h.context = .ok () := if_pos hctx
  have hfound : (c.check h.context >>= fun _ => b.scopes.find h.id) = .ok o := by
    rw [hcheck, ← hfind]
    rfl
  unfold closeScope
  rw [outcome_bind, outcome_findScope, hfound]
  dsimp only
  rw [outcome_bind, outcome_get]
  dsimp only
  rw [hopen, if_neg (by simp [hid])]
  unfold closing
  cases o.kind <;> rfl

end Emission

namespace Session

/-- A scope can be closed if it is the innermost one, and its closing fits into the code. -/
theorem closeScope_ok_iff (hs : s.Inv .free segs) (hnum : s.Numbered) (h : ScopeHandle) :
    (s.perform (.closeScope h)).1 = .ok .done ↔ h.context = s.setting.id ∧
      ∃ o rest, s.body.scopes.opened = o :: rest ∧ o.id = h.id ∧
        s.body.emitter.offset + o.kind.closingSize < 4294967296 := by
  have hsize : ∀ bytes : List UInt8, (s.body.emitter.write bytes).offset =
      s.body.emitter.offset + bytes.length := fun bytes => Chunk.size_writeBytes ..
  constructor
  · intro hok
    obtain ⟨b, hout, -⟩ := perform_done rfl hok
    obtain ⟨o, rest, hctx, hfind, hopen⟩ := closeScope_ok hout
    refine ⟨hctx, o, rest, hopen, (find_eq hfind).2.2, ?_⟩
    obtain ⟨o', rest', bytes, segs', st, hopen', hcloses, -, -, hsmall, -⟩ :=
      closeScope_done hs.body.sound hs.body.scopes hout
    rw [hopen] at hopen'
    obtain ⟨rfl, -⟩ := List.cons.inj hopen'
    rwa [hsize, hcloses.length] at hsmall
  · rintro ⟨hctx, o, rest, hopen, hid, hsmall⟩
    have hmem : o ∈ s.body.scopes.opened := hopen ▸ mem_cons_self
    obtain ⟨bytes, segs', st, ⟨hlen, -, -, -⟩, -, -, hclose⟩ :=
      close_cases hs.body.sound hs.body.scopes hmem h.id
    rw [if_neg (by rw [hsize, hlen]; omega), ← closeScope_eq hctx (hid ▸ hnum.opened o hmem) hopen
      hid] at hclose
    have hout : ((Operation.closeScope h).emission.outcome s.setting s.body).1 = .ok .done := by
      show ((Emission.closeScope h >>= fun _ => pure Answer.done).outcome s.setting s.body).1 = _
      rw [outcome_bind, hclose]
      rfl
    rw [perform_eq]
    rcases hcase : (Operation.closeScope h).emission.outcome s.setting s.body with ⟨e | a, b⟩ <;>
      rw [hcase] at hout <;> cases hout
    rfl

theorem Inv.closed (hs : s.Inv .free segs) (hopen : s.body.scopes.opened = o :: rest)
    (hok : (s.perform (.closeScope h)).1 = .ok .done) :
    (s.perform (.closeScope h)).2.body.scopes = s.body.scopes.pop h.id ∧
      (s.perform (.closeScope h)).2.body.emitter.offset = s.body.emitter.offset +
        o.kind.closingSize := by
  obtain ⟨b, hout, hperf⟩ := perform_done rfl hok
  rw [hperf]
  obtain ⟨o', rest', bytes, segs', st, hopen', hcloses, hst, hpos, hsmall, rfl⟩ :=
    closeScope_done hs.body.sound hs.body.scopes hout
  rw [hopen] at hopen'
  obtain ⟨rfl, -⟩ := List.cons.inj hopen'
  refine ⟨rfl, (hcloses.sound.linked.offset_withMark hst hpos hsmall).trans ?_⟩
  rw [← hcloses.length]
  exact Chunk.size_writeBytes ..

end Session

/-! ### Closing all scopes -/

/-- The handle of an open scope. -/
def OpenScope.handle (id : ContextId) (o : OpenScope) : ScopeHandle := ⟨id, o.id, o.kind⟩

namespace Session

/-- The open scopes are closed one after the other, the innermost one first. -/
theorem closes_all (hs : s.Inv .free segs) (hnum : s.Numbered)
    (hheld : ∀ o ∈ s.body.scopes.opened, o.handle s.setting.id ∈ s.scopes)
    (hsmall : s.body.emitter.offset + 5 * s.body.scopes.opened.length < 4294967296)
    (hops : ops = s.body.scopes.opened.map fun o => .closeScope (o.handle s.setting.id)) :
    (∀ k op, ops[k]? = some op → s.Does ops k op .done) ∧
    (s.performAll ops).body.scopes.opened = [] := by
  generalize hopen : s.body.scopes.opened = opened at hheld hsmall hops
  induction opened generalizing s segs ops with
  | nil =>
    subst hops
    exact ⟨by simp, hopen⟩
  | cons o rest ih =>
    rw [map_cons] at hops
    subst hops
    rw [length_cons] at hsmall
    have hclose := o.kind.closingSize_le
    have hok : (s.perform (.closeScope (o.handle s.setting.id))).1 = .ok .done :=
      (closeScope_ok_iff hs hnum _).mpr ⟨rfl, o, rest, hopen, rfl, by omega⟩
    obtain ⟨hscopes, hoff⟩ := hs.closed hopen hok
    have hpermit : s.Permits (.closeScope (o.handle s.setting.id)) :=
      ⟨by simp [Operation.symbols], by simp [Operation.labels], fun h hh => by
        rw [mem_singleton.mp hh]
        exact .inl (hheld o mem_cons_self)⟩
    have hturn := (hs.turn hpermit).1
    obtain ⟨segs', hs', -, hsetting⟩ := hs.step ⟨_, hpermit, Discipline.free_allows _, rfl⟩
    -- The other scopes stay open, and their handles are still held.
    obtain ⟨hdoes, hnone⟩ :=
      ih hs' (hnum.turn hturn) (by rw [hscopes, pop, hopen]; rfl) (fun o' ho' => by
        rw [hsetting]
        exact hturn.held (hheld o' (mem_cons_of_mem o ho')))
      (by rw [hoff]; omega) rfl
    rw [hsetting] at hdoes hnone
    refine ⟨fun k op hop => ?_, hnone⟩
    cases k with
    | zero =>
      cases hop
      exact ⟨rfl, hok⟩
    | succ k => exact ⟨hop, (hdoes k op hop).answer⟩

end Session

/-- A context without open scopes may be refused for other reasons only. -/
theorem Context.finish_ne_scopesOpen {c : Context} (h : c.body.scopes.opened = []) {n : Nat}
    {kind : ScopeKind} : c.finish ≠ .error (.labelMisuse (.scopesOpen n kind)) := by
  unfold finish
  simp only [h]
  by_cases hunresolved : 0 < c.body.emitter.labels.unresolved
  · simp only [hunresolved, if_true]
    rintro ⟨⟩
  · cases hfalls : c.fallsThrough <;> cases hvoid : c.setting.function.returns.isVoid <;>
      simp only [hunresolved, if_false] <;> rintro ⟨⟩

/-! ### Handles that are still held -/

/-- The handles that an operation takes from the user. -/
def Operation.spends : Operation → List ScopeHandle
  | .closeScope h => [h]
  | _ => []

namespace Session

variable {spent : List ScopeHandle}

/-- The handles that the user got in the course of operations and did not give up, the last one
first. -/
def unspent (s : Session) (ops : List Operation) : List ScopeHandle :=
  (s.performAll ops).scopes.filter fun h => decide (h ∉ ops.flatMap Operation.spends)

/-- What is known of the scopes and the handles that the user got: a scope that is not closed is
open, its handle was handed out, and only a handle that was given up belongs to a closed scope. -/
structure Kept (s : Session) (spent : List ScopeHandle) : Prop where
  opened : ∀ n, s.body.scopes.closed[n]? = some false → ∃ o ∈ s.body.scopes.opened, o.id = n
  handles : ∀ o ∈ s.body.scopes.opened, o.handle s.setting.id ∈ s.scopes
  order : s.scopes.Pairwise fun h h' => h'.id < h.id
  closed : ∀ h ∈ s.scopes, s.body.scopes.closed[h.id]? = some true → h ∈ spent

theorem kept_start (id : ContextId) (registry : Registry) (function : FunctionDecl)
    (options : EmitOptions) : (start id registry function options).Kept [] where
  opened := by simp [start, body, Context.start, Body.start]
  handles := by simp [start, body, Context.start, Body.start]
  order := by simp [start]
  closed := by simp [start]

theorem Kept.turn (hs : s.Kept spent) (hnum : s.Numbered) (hpermit : s.Permits op)
    (hsetting : s'.setting = s.setting) (h : s.Turn op r s') : s'.Kept (spent ++ op.spends) := by
  cases h with
  | quiet hr hscopes hheld =>
    refine ⟨?_, ?_, ?_, ?_⟩
    · rw [hscopes]
      exact hs.opened
    · rw [hscopes, hsetting, hheld]
      exact hs.handles
    · rw [hheld]
      exact hs.order
    · rw [hscopes, hheld]
      exact fun g hg hclosed => mem_append_left _ (hs.closed g hg hclosed)
  | @opens kind condition hop hr hscopes hheld =>
    have hpush : ∀ n, s'.body.scopes.closed[n]? =
        if n = s.body.scopes.closed.size then some false else s.body.scopes.closed[n]? :=
          fun n => by
      rw [hscopes, push, Array.getElem?_push]
    refine ⟨fun n hn => ?_, ?_, ?_, ?_⟩
    · rw [hpush] at hn
      rw [hscopes]
      split at hn
      · exact ⟨_, mem_cons_self, ‹n = _›.symm⟩
      · obtain ⟨o, ho, hid⟩ := hs.opened n hn
        exact ⟨o, mem_cons_of_mem _ ho, hid⟩
    · rw [hscopes, hheld, hsetting]
      exact forall_mem_cons.mpr ⟨mem_cons_self, fun o ho => mem_cons_of_mem _ (hs.handles o ho)⟩
    · rw [hheld]
      exact pairwise_cons.mpr ⟨hnum.held, hs.order⟩
    · rw [hheld]
      refine forall_mem_cons.mpr ⟨fun hclosed => ?_, fun g hg hclosed => ?_⟩
      · rw [hpush, if_pos rfl] at hclosed
        cases hclosed
      · rw [hpush, if_neg (Nat.ne_of_lt (hnum.held g hg))] at hclosed
        exact mem_append_left _ (hs.closed g hg hclosed)
  | @closes g o rest hop hr hctx hfind hopen hscopes hheld =>
    obtain ⟨hfalse, -, hid⟩ := find_eq hfind
    have hset : ∀ n, n ≠ g.id → s'.body.scopes.closed[n]? = s.body.scopes.closed[n]? :=
      fun n hn => by
      rw [hscopes, pop, Array.getElem?_setIfInBounds_ne hn.symm]
    have hrest : s'.body.scopes.opened = rest := by
      rw [hscopes, pop, hopen]
      rfl
    refine ⟨fun n hn => ?_, ?_, ?_, ?_⟩
    · have hne : n ≠ g.id := by
        rintro rfl
        rw [hscopes, pop, Array.getElem?_setIfInBounds_self_of_lt
          (Array.getElem?_eq_some_iff.mp hfalse).1] at hn
        cases hn
      rw [hset n hne] at hn
      obtain ⟨o', ho', rfl⟩ := hs.opened n hn
      rw [hrest]
      rw [hopen] at ho'
      rcases mem_cons.mp ho' with rfl | ho'
      · exact absurd hid hne
      · exact ⟨o', ho', rfl⟩
    · rw [hrest, hheld, hsetting]
      exact fun o' ho' => hs.handles o' (hopen ▸ mem_cons_of_mem o ho')
    · rw [hheld]
      exact hs.order
    · rw [hheld]
      intro g' hg' hclosed
      by_cases heq : g'.id = g.id
      · -- The handle that was given up is the only one with its number.
        have hg : g ∈ s.scopes :=
          (hpermit.scopes g (by rw [hop]; exact mem_cons_self)).resolve_right
          fun hne => hne hctx
        rw [hnum.unique g' hg' g hg heq, hop]
        exact mem_append_right _ mem_cons_self
      · rw [hset _ heq] at hclosed
        exact mem_append_left _ (hs.closed g' hg' hclosed)

/-- A session in order, with what is known of its handles. -/
structure Tended (s : Session) (spent : List ScopeHandle) : Prop where
  inv : ∃ segs, s.Inv .free segs
  numbered : s.Numbered
  kept : s.Kept spent

theorem Tended.perform (h : s.Tended spent) (hpermit : s.Permits op) :
    (s.perform op).2.Tended (spent ++ op.spends) := by
  obtain ⟨segs, hinv⟩ := h.inv
  obtain ⟨segs', hinv', -, hsetting⟩ := hinv.step ⟨op, hpermit, Discipline.free_allows op, rfl⟩
  have hturn := (hinv.turn hpermit).1
  exact ⟨⟨segs', hinv'⟩, h.numbered.turn hturn, h.kept.turn h.numbered hpermit hsetting hturn⟩

theorem Tended.performAll (h : s.Tended spent) (hpermit : s.PermitsAll ops) :
    (s.performAll ops).Tended (spent ++ ops.flatMap spends) := by
  induction ops generalizing s spent with
  | nil => simpa [Session.performAll] using h
  | cons op ops ih =>
    rw [flatMap_cons, ← append_assoc]
    exact ih (h.perform hpermit.1) hpermit.2

theorem tended_start (id : ContextId) (registry : Registry) (function : FunctionDecl)
    (options : EmitOptions) : (start id registry function options).Tended [] :=
  ⟨⟨[], inv_start id registry function options .free⟩, numbered_start .., kept_start ..⟩

/-- A user who holds the handles of all open scopes holds no others. -/
theorem Tended.unspent_eq (h : s.Tended spent)
    (hheld : ∀ o ∈ s.body.scopes.opened, o.handle s.setting.id ∉ spent) :
    s.scopes.filter (fun g => decide (g ∉ spent)) =
      s.body.scopes.opened.map (OpenScope.handle s.setting.id) := by
  have hmem : ∀ g, g ∈ s.scopes.filter (fun g => decide (g ∉ spent)) ↔
      g ∈ s.body.scopes.opened.map (OpenScope.handle s.setting.id) := by
    intro g
    rw [mem_filter, decide_eq_true_iff, mem_map]
    constructor
    · rintro ⟨hg, hunspent⟩
      obtain ⟨flag, hflag⟩ : ∃ flag, s.body.scopes.closed[g.id]? = some flag :=
        ⟨_, Array.getElem?_eq_getElem (h.numbered.held g hg)⟩
      cases flag with
      | true => exact absurd (h.kept.closed g hg hflag) hunspent
      | false =>
        obtain ⟨o, ho, hid⟩ := h.kept.opened g.id hflag
        exact ⟨o, ho, h.numbered.unique _ (h.kept.handles o ho) g hg hid⟩
    · rintro ⟨o, ho, rfl⟩
      exact ⟨h.kept.handles o ho, hheld o ho⟩
  have hleft : (s.scopes.filter fun g => decide (g ∉ spent)).Pairwise fun g g' => g'.id < g.id :=
    h.kept.order.filter _
  have hright : (s.body.scopes.opened.map (OpenScope.handle s.setting.id)).Pairwise
      fun g g' => g'.id < g.id := pairwise_map.mpr h.numbered.order
  have hnodup : ∀ {gs : List ScopeHandle}, gs.Pairwise (fun g g' => g'.id < g.id) → gs.Nodup := by
    intro gs hgs
    refine hgs.imp ?_
    rintro g g' hlt rfl
    exact Nat.lt_irrefl _ hlt
  refine ((perm_ext_iff_of_nodup (hnodup hleft) (hnodup hright)).mpr hmem).eq_of_pairwise ?_ hleft
    hright
  exact fun a b _ _ hab hba => absurd hab (Nat.lt_asymm hba)

/-- Whatever is done with a context: a scope can be closed if and only if it is the innermost one of
the context and its closing fits into the code. The entries of open scopes are marked and their
exits are not. The numbers of the open scopes go up from the outermost one inwards, and are those of
the scopes that are not closed. If the user holds the handles of all open scopes, then the handles
that the user holds can be closed one after the other, the last one first, and after that no scope
is open. -/
theorem scopes_close_in_order {id : ContextId} {registry : Registry} {function : FunctionDecl}
    {options : EmitOptions} {ops : List Operation} {t : Session}
    (hstart : s = start id registry function options) (hpermits : s.PermitsAll ops)
    (ht : t = s.performAll ops) :
    (∀ h, (t.perform (.closeScope h)).1 = .ok .done ↔ h.context = t.setting.id ∧
      ∃ o rest, t.body.scopes.opened = o :: rest ∧ o.id = h.id ∧
        t.body.emitter.offset + o.kind.closingSize < 4294967296) ∧
    (∀ o ∈ t.body.scopes.opened, (∃ p, t.body.emitter.labels.mark? o.entry.index = some (some p)) ∧
      t.body.emitter.labels.mark? o.exit.index = some none) ∧
    (t.body.scopes.opened.reverse.map OpenScope.id).Pairwise (fun n k => n < k) ∧
    (∀ n, t.body.scopes.closed[n]? = some false ↔ n ∈ t.body.scopes.opened.map OpenScope.id) ∧
    ((∀ o ∈ t.body.scopes.opened, o.handle t.setting.id ∈ s.unspent ops) →
      t.body.emitter.offset + 5 * t.body.scopes.opened.length < 4294967296 →
      (∀ k h, (s.unspent ops)[k]? = some h →
        t.Does ((s.unspent ops).map .closeScope) k (.closeScope h) .done) ∧
      ∀ n kind, (t.performAll ((s.unspent ops).map .closeScope)).context.finish ≠
        .error (.labelMisuse (.scopesOpen n kind))) := by
  subst hstart ht
  have htended := (tended_start id registry function options).performAll hpermits
  rw [List.nil_append] at htended
  generalize hs : (start id registry function options).performAll ops = t at htended
  obtain ⟨⟨segs, hinv⟩, hnumbered, hkept⟩ := htended
  refine ⟨closeScope_ok_iff hinv hnumbered, fun o ho => ?_, ?_, fun n => ?_, fun hheld hsmall => ?_⟩
  · exact ⟨(hinv.body.scopes.entries o ho).2, (hinv.body.scopes.exits o ho).2⟩
  · rw [List.pairwise_map, List.pairwise_reverse]
    exact hnumbered.order
  · rw [List.mem_map]
    refine ⟨hkept.opened n, ?_⟩
    rintro ⟨o, ho, rfl⟩
    exact hnumbered.opened o ho
  · have hunspent : (start id registry function options).unspent ops =
        t.body.scopes.opened.map (OpenScope.handle t.setting.id) := by
      rw [unspent, hs]
      refine Tended.unspent_eq ⟨⟨segs, hinv⟩, hnumbered, hkept⟩ fun o ho => ?_
      simpa [unspent, hs] using (List.mem_filter.mp (hheld o ho)).2
    have hops : ((start id registry function options).unspent ops).map Operation.closeScope =
        t.body.scopes.opened.map fun o => .closeScope (o.handle t.setting.id) := by
      rw [hunspent, List.map_map]
      rfl
    obtain ⟨hdoes, hnone⟩ := closes_all hinv hnumbered hkept.handles hsmall hops
    refine ⟨fun k h hh => hdoes k _ ?_, fun n kind => Context.finish_ne_scopesOpen hnone⟩
    rw [List.getElem?_map, hh]
    rfl

end Session

/-! A loop in a block. -/

namespace Nesting

def empty : Session := .start ⟨0⟩ .empty (.staticMethod ⟨1⟩ "f" [] .void) .default

def outer : ScopeHandle := ⟨⟨0⟩, 0, .block⟩
def inner : ScopeHandle := ⟨⟨0⟩, 1, .loop⟩

/-- A block is opened, and a loop in it. -/
def opening : List Operation := [.openScope .block none, .openScope .loop none]

theorem permitted : empty.PermitsAll opening := ⟨.of_numbers [] rfl, .of_numbers [] rfl, trivial⟩

/-- The loop is closed, then the block, and nothing is left open. -/
theorem both_are_closed : empty.unspent opening = [inner, outer] ∧
    (empty.performAll opening).Does [.closeScope inner, .closeScope outer] 0 (.closeScope inner)
      .done ∧
    (empty.performAll opening).Does [.closeScope inner, .closeScope outer] 1 (.closeScope outer)
      .done ∧
    ∀ n kind, ((empty.performAll opening).performAll
      [.closeScope inner, .closeScope outer]).context.finish ≠
        .error (.labelMisuse (.scopesOpen n kind)) := by
  have hunspent : empty.unspent opening = [inner, outer] := by decide +kernel
  obtain ⟨-, -, -, -, hclose⟩ := Session.scopes_close_in_order (s := empty) rfl permitted rfl
  obtain ⟨hdoes, hfinish⟩ := hclose (by decide +kernel) (by decide +kernel)
  rw [hunspent] at hdoes hfinish
  exact ⟨hunspent, hdoes 0 inner rfl, hdoes 1 outer rfl, hfinish⟩

/-- The block is to be closed before the loop. -/
def misclosing : List Operation := opening ++ [.closeScope outer]

/-- That is refused, and the handle is lost: the handle that is left can be closed, but the block
stays open. -/
theorem handle_is_lost : empty.PermitsAll misclosing ∧ empty.unspent misclosing = [inner] ∧
    ((empty.performAll misclosing).perform (.closeScope inner)).1.toOption.isSome ∧
    ((empty.performAll misclosing).performAll [.closeScope inner]).context.finish =
      .error (.labelMisuse (.scopesOpen 1 .block)) := by
  refine ⟨⟨permitted.1, permitted.2.1,
    ⟨by simp [Operation.symbols], by simp [Operation.labels], ?_⟩,
    trivial⟩, by decide +kernel, by decide +kernel, rfl⟩
  decide +kernel

end Nesting

end StackCode
