import StackCode.Proofs.Runs

/-!
# Finished methods

A method is finished from a body in order whose labels are all resolved. Its code is a listing in
segments; every jump goes to the start of a segment, and control cannot run off the end.
-/

namespace StackCode

namespace Context

/-- A context can be finished if its scopes are closed and its labels resolved; a return is added if
control reaches the end. -/
theorem finish_ok {c : Context} {m : Method} (h : c.finish = .ok m) :
    c.body.emitter.labels.unresolved = 0 ∧
    ((c.fallsThrough = true ∧ c.setting.function.returns.isVoid = true ∧
        m = ⟨c.setting.function, c.chunk.writeOp .retVoid c.body.emitter.line,
          c.body.emitter.constants, c.body.locals⟩) ∨
      (c.fallsThrough = false ∧ m = ⟨c.setting.function, c.chunk, c.body.emitter.constants,
        c.body.locals⟩)) := by
  unfold finish at h
  cases hscopes : c.body.scopes.opened with
  | cons o rest =>
    simp only [hscopes] at h
    cases h
  | nil =>
    simp only [hscopes] at h
    by_cases hunresolved : 0 < c.body.emitter.labels.unresolved
    · simp only [hunresolved, if_true] at h
      cases h
    · simp only [hunresolved, if_false] at h
      refine ⟨by omega, ?_⟩
      by_cases hfalls : c.fallsThrough = true
      · by_cases hvoid : c.setting.function.returns.isVoid = true
        · simp only [hfalls, hvoid] at h
          cases h
          exact .inl ⟨hfalls, hvoid, rfl⟩
        · simp only [hfalls, hvoid] at h
          cases h
      · simp only [hfalls] at h
        cases h
        exact .inr ⟨by simpa using hfalls, rfl⟩

/-- Code that ends in a terminator is finished as it is. -/
theorem finish_eq {c : Context} (hscopes : c.body.scopes.opened = [])
    (hresolved : c.body.emitter.labels.unresolved = 0) (hfalls : c.fallsThrough = false) :
    c.finish = .ok ⟨c.setting.function, c.chunk, c.body.emitter.constants, c.body.locals⟩ := by
  unfold finish
  simp only [hscopes, hresolved, hfalls]
  rfl

/-- A function without result can be finished at any point where nothing is open. -/
theorem exists_finish {c : Context} (hscopes : c.body.scopes.opened = [])
    (hresolved : c.body.emitter.labels.unresolved = 0)
    (hvoid : c.setting.function.returns.isVoid = true) : ∃ m, c.finish = .ok m := by
  unfold finish
  simp only [hscopes, hresolved, hvoid]
  cases c.fallsThrough <;> exact ⟨_, rfl⟩

end Context

theorem Chunk.Holds.lastOp? {c : Chunk} {code : List Instr} (h : c.Holds code) :
    c.lastOp? = code.getLast?.map Instr.op := by
  rw [Chunk.lastOp?, Chunk.opcodes, h.instructions, List.map_map, List.getLast?_map]
  rfl

/-- A label without unfinished business is marked if a jump aims at it. -/
theorem LabelTable.marked_of_unresolved {t : LabelTable} (h : t.unresolved = 0) {l : Nat}
    {s : LabelState} (hs : t.labels[l]? = some s) {i : Instr} (haims : s.Aims i) :
    ∃ p, s.position = some p ∧ i.operand = p.toNat := by
  unfold LabelState.Aims at haims
  cases hpos : s.position with
  | some p =>
    rw [hpos] at haims
    exact ⟨p, rfl, haims⟩
  | none =>
    rw [hpos] at haims
    have hnot := Array.filter_eq_empty_iff.mp (Array.eq_empty_of_size_eq_zero h) s
      (Array.mem_of_getElem? hs)
    simp only [hpos, Option.isNone_none, Bool.true_and, Bool.not_eq_true,
      Bool.not_eq_false', List.isEmpty_iff] at hnot
    rw [hnot] at haims
    cases haims

/-- A method as a listing in segments. -/
structure Method.Built (c : Setting) (d : Discipline) (m : Method) (segs : List Listing) :
    Prop where
  function : m.function = c.function
  holds : m.chunk.Holds (Listing.code segs.flatten)
  encoded : ∀ y ∈ segs.flatten, y.1.Encoded m.constants y.2
  segments : ∀ seg ∈ segs, ∃ ts, Segment c d m.locals ts seg.commands ∧
    ∀ t ∈ ts, m.locals[t.slot.toNat]? = some t.type
  types : ∀ type ∈ m.locals, d.type type ∨ ∃ ts xs, Segment c d m.locals ts xs ∧ ∃ t ∈ ts,
    t.type = type
  /-- Jumps go to the starts of segments. -/
  jumps : ∀ y ∈ segs.flatten, ∀ l, y.1.operand = .label l →
    ∃ k ≤ segs.length, y.2.operand = Listing.cut segs k ∧ Listing.cut segs k < m.chunk.size
  last : ∃ i, (Listing.code segs.flatten).getLast? = some i ∧ i.op.isTerminator

namespace Session

variable {d : Discipline} {s : Session} {segs : List Listing} {m : Method}

/-- A sound body without unfinished business is a method, if its code ends as it should. -/
theorem built_of_sound {c : Setting} {b : Body} (hb : b.Sound c d segs)
    (hresolved : b.emitter.labels.unresolved = 0)
    (htargets : ∀ (l : Nat) s p, b.emitter.labels.labels[l]? = some s → s.position = some p →
      p.toNat < b.emitter.offset)
    (hlast : ∃ i, (Listing.code segs.flatten).getLast? = some i ∧ i.op.isTerminator) :
    Method.Built c d ⟨c.function, b.emitter.chunk, b.emitter.constants, b.locals⟩ segs where
  function := rfl
  holds := hb.linked.holds
  encoded := hb.linked.encoded
  segments := hb.segments
  types := hb.types
  jumps y hy l hl := by
    obtain ⟨s, hs, haims⟩ := hb.linked.jumps y hy l hl
    obtain ⟨p, hp, htgt⟩ := LabelTable.marked_of_unresolved hresolved hs haims
    obtain ⟨k, hk, hcut⟩ := hb.linked.marks l s p hs hp
    exact ⟨k, hk, htgt.trans hcut, hcut ▸ htargets l s p hs hp⟩
  last := hlast

/-- Every finished method is a listing in segments, that of the body it was finished from and
perhaps a return. -/
theorem Inv.built (h : s.Inv d segs) (hfin : s.context.finish = .ok m) :
    ∃ segs', m.Built s.setting d segs' ∧
      Listing.Begins segs segs' := by
  have hb := h.body.sound
  obtain ⟨hresolved, ⟨-, hvoid, rfl⟩ | ⟨hfalls, rfl⟩⟩ := Context.finish_ok hfin
  · -- The return is one more segment, and labels at the end of the code are now inside.
    have hemit : (Emitter.emit .retVoid).Emits _ := Emitting.emits_emit rfl
    obtain ⟨hgrows, hok⟩ := Emission.emits_onEmitter (c := s.setting) hemit s.body hb.pool
    obtain ⟨_, _, ⟨rfl, rfl⟩, hemitted⟩ := hok () rfl
    obtain ⟨seg, hcmds, hsound⟩ :=
      hb.gains (.straight hgrows hemitted (straight_plain _) (.returnVoid hvoid))
    refine ⟨segs ++ [seg], built_of_sound hsound hresolved (fun l st p hst hp => ?_) ?_,
      Listing.begins_append _ _⟩
    · obtain ⟨k, -, hcut⟩ := hb.linked.marks l st p hst hp
      have hle := Listing.cut_le segs k
      have hoff : ((Emission.onEmitter (Emitter.emit .retVoid)).outcome s.setting
          s.body).2.emitter.offset = s.body.emitter.offset + codeSize [.plain .retVoid] :=
        hemitted.appends.offset
      rw [hoff, hb.linked.size, hcut]
      exact Nat.lt_succ_of_le hle
    · obtain ⟨y, rfl, hy⟩ := List.map_eq_singleton_iff.mp hcmds
      have hop : y.2.op = y.1.op := (hsound.linked.encoded y (by simp)).1
      refine ⟨y.2, by simp [Listing.code], ?_⟩
      rw [hop, hy]
      rfl
  · obtain ⟨hterminator, htargets⟩ : s.context.chunk.lastOp?.any Opcode.isTerminator = true ∧
        s.context.body.emitter.labels.hasTargetAt s.context.chunk.size = false := by
      simpa [Context.fallsThrough] using hfalls
    refine ⟨segs, built_of_sound hb hresolved (fun l st p hst hp => ?_) ?_, List.prefix_refl _⟩
    · have hnot := Array.any_eq_false'.mp htargets st (Array.mem_of_getElem? hst)
      have hlt : p.toNat < s.context.chunk.size := by simpa [hp] using hnot
      exact hlt
    · have hlast : s.context.chunk.lastOp? = _ := hb.linked.holds.lastOp?
      rwa [hlast, Option.any_map, Option.any_eq_true] at hterminator

end Session

end StackCode
