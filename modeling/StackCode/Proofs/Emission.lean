import StackCode.Proofs.Commands

/-!
# What emitting does to a body

Code is emitted into a body in small pieces, and temporaries are acquired on the way. Whether a
piece succeeds or fails, it only adds to the body; so a failed operation can be taken back exactly,
apart from the constants it has added.
-/

namespace StackCode

open List UInt16

variable {t : LabelTable} {rest : List Temporary}

namespace LabelTable

/-- All fix-ups lie before an offset. -/
def FixupsBelow (t : LabelTable) (n : Nat) : Prop := ∀ s ∈ t.labels, ∀ f ∈ s.fixups, f < n

theorem FixupsBelow.map_filter {n : Nat} (h : t.FixupsBelow n) :
    t.labels.map (fun s => { s with fixups := s.fixups.filter fun f => decide (f < n) }) =
      t.labels := by
  apply Array.ext'
  rw [Array.toList_map]
  conv_rhs => rw [← map_id t.labels.toList]
  refine map_congr_left fun s hs => ?_
  have hkeep : s.fixups.filter (fun f => decide (f < n)) = s.fixups :=
    filter_eq_self.mpr fun f hf => by simpa using h s (by simpa using hs) f hf
  rw [hkeep, id]

/-- Without marks to take back and fix-ups to forget, nothing changes. -/
theorem rollback_self {n : Nat} (h : t.FixupsBelow n) : t.rollback n t.markCount = t := by
  simp [rollback, markCount, h.map_filter]

end LabelTable

namespace Body

/-- The body with another pool of constants. -/
def withConstants (b : Body) (k : Pool) : Body :=
  { b with emitter := { b.emitter with constants := k } }

/-- What a piece of emission does to a body, whether it succeeds or fails. -/
structure Grows (b b' : Body) : Prop where
  emitter : b.emitter.Grows b'.emitter
  locals : b.locals.toList <+: b'.locals.toList
  live : b.live <:+ b'.live
  scopes : b'.scopes = b.scopes

variable {b b' b'' : Body}

theorem Grows.refl (b : Body) : b.Grows b := ⟨.refl _, prefix_refl _, suffix_refl _, rfl⟩

theorem Grows.trans (h : b.Grows b') (h' : b'.Grows b'') : b.Grows b'' where
  emitter := h.emitter.trans h'.emitter
  locals := h.locals.trans h'.locals
  live := h.live.trans h'.live
  scopes := h'.scopes.trans h.scopes

theorem Grows.onEmitter {e : Emitter} (h : b.emitter.Grows e) : b.Grows { b with emitter := e } :=
  ⟨h, prefix_refl _, suffix_refl _, rfl⟩

/-- What can be restored: every code byte has a line, and all fix-ups lie inside the code. -/
structure Restorable (b : Body) : Prop where
  lines : b.emitter.chunk.lines.size = b.emitter.chunk.code.size
  fixups : b.emitter.labels.FixupsBelow b.emitter.chunk.size

/-- Going back undoes growth; what becomes of the labels is up to their rollback. -/
theorem restore_eq {bytes : List UInt8}
    (hchunk : b'.emitter.chunk = b.emitter.chunk.writeBytes bytes b.emitter.line)
    (hline : b'.emitter.line = b.emitter.line) (hlocs : b.locals.toList <+: b'.locals.toList)
    (hlive : b.live <:+ b'.live) (hscopes : b'.scopes = b.scopes)
    (hlines : b.emitter.chunk.lines.size = b.emitter.chunk.code.size)
    (hlabels : b'.emitter.labels.rollback b.emitter.chunk.size b.emitter.labels.markCount = t) :
    b'.restore b.savepoint = { b with
      emitter := { b.emitter with constants := b'.emitter.constants, labels := t } } := by
  obtain ⟨more, hlocs⟩ := hlocs
  obtain ⟨newer, hlive⟩ := hlive
  have hemitter : b'.emitter.rollback b.savepoint.code =
      { b.emitter with constants := b'.emitter.constants, labels := t } := by
    simp only [savepoint, Emitter.checkpoint, Emitter.rollback, hchunk, hlabels, hline,
      Chunk.truncate_writeBytes _ _ _ hlines]
  have hslots : b'.locals.take b.locals.size = b.locals := Chunk.take_of_toList_eq hlocs.symm
  have hkept : b'.live.drop (b'.live.length - b.live.length) = b.live := by
    rw [← hlive, length_append, Nat.add_sub_cancel, drop_left]
  rw [Body.restore, hemitter, hscopes]
  simp only [savepoint, hslots, hkept]

/-- Going back after growth leaves the body as it was, with more constants. -/
theorem Grows.restore (h : b.Grows b') (hb : b.Restorable) :
    b'.restore b.savepoint = b.withConstants b'.emitter.constants := by
  obtain ⟨bytes, hchunk⟩ := h.emitter.chunk
  refine restore_eq hchunk h.emitter.line h.locals h.live h.scopes hb.lines ?_
  rw [h.emitter.labels]
  exact LabelTable.rollback_self hb.fixups

theorem Grows.restorable (h : b.Grows b') (hb : b.Restorable) : b'.Restorable := by
  obtain ⟨bytes, hchunk⟩ := h.emitter.chunk
  constructor
  · rw [hchunk]
    exact Chunk.size_lines_writeBytes hb.lines _ _
  · intro s hs f hf
    rw [h.emitter.labels] at hs
    have := hb.fixups s hs f hf
    rw [hchunk, Chunk.size_writeBytes]
    omega

/-! ### Temporaries -/

/-- Temporaries are local slots of their own, declared with the types they are known by. -/
structure SlotsValid (b : Body) : Prop where
  typed : ∀ t ∈ b.pooled ++ b.live, b.locals[t.slot.toNat]? = some t.type
  distinct : ((b.pooled ++ b.live).map Temporary.slot).Nodup
  few : b.locals.size < 65536

theorem takePooled_some {type : DataType} {pooled : List Temporary} {t : Temporary}
    (h : takePooled type pooled = some (t, rest)) :
    t.type = type ∧ pooled.Perm (t :: rest) := by
  induction pooled generalizing rest with
  | nil => cases h
  | cons u pooled ih =>
    unfold takePooled at h
    split at h
    · rename_i hu
      cases h
      exact ⟨hu, .refl _⟩
    · obtain ⟨⟨found, rest'⟩, hfound, heq⟩ := Option.map_eq_some_iff.mp h
      cases heq
      obtain ⟨htype, hperm⟩ := ih hfound
      exact ⟨htype, (hperm.cons u).trans (.swap _ _ _)⟩

theorem SlotsValid.take (hb : b.SlotsValid) {t : Temporary} (hperm : b.pooled.Perm (t :: rest)) :
    SlotsValid { b with pooled := rest, live := t :: b.live } := by
  have hperm' : (b.pooled ++ b.live).Perm (rest ++ t :: b.live) :=
    (hperm.append_right _).trans perm_middle.symm
  refine ⟨fun u hu => ?_, ?_, hb.few⟩
  · exact hb.typed u (hperm'.mem_iff.mpr hu)
  · exact (hperm'.map _).nodup_iff.mp hb.distinct

theorem SlotsValid.push (hb : b.SlotsValid) (type : DataType) (hroom : b.locals.size < 65535) :
    SlotsValid { b with
      locals := b.locals.push type
      live := ⟨type, ofNat b.locals.size⟩ :: b.live } := by
  have hslot : (ofNat b.locals.size).toNat = b.locals.size := by
    rw [toNat_ofNat']
    omega
  have hold : ∀ t ∈ b.pooled ++ b.live, t.slot.toNat < b.locals.size := fun t ht =>
    (Array.getElem?_eq_some_iff.mp (hb.typed t ht)).1
  have hperm : (b.pooled ++ ⟨type, ofNat b.locals.size⟩ :: b.live).Perm
      (⟨type, ofNat b.locals.size⟩ :: (b.pooled ++ b.live)) := perm_middle
  refine ⟨fun t ht => ?_, ?_, ?_⟩
  · rcases mem_cons.mp (hperm.mem_iff.mp ht) with rfl | ht
    · simp [hslot]
    · rw [Array.getElem?_push_lt (hold t ht), ← Array.getElem?_eq_getElem]
      exact hb.typed t ht
  · rw [(hperm.map _).nodup_iff, map_cons, nodup_cons]
    refine ⟨fun hmem => ?_, hb.distinct⟩
    obtain ⟨t, ht, heq⟩ := mem_map.mp hmem
    have hlt := hold t ht
    rw [heq, hslot] at hlt
    exact Nat.lt_irrefl _ hlt
  · rw [Array.size_push]
    omega

/-- What a successful piece of emission does: commands are appended, temporaries become live. -/
structure Emitted (b b' : Body) (ts : List Temporary) (xs : List Command) : Prop where
  appends : b.emitter.Appends b'.emitter xs
  live : b'.live = ts.reverse ++ b.live
  slots : b.SlotsValid → b'.SlotsValid
  declared : ∀ type ∈ b'.locals, type ∈ b.locals ∨ ∃ t ∈ ts, t.type = type

theorem Emitted.refl (b : Body) : b.Emitted b [] [] := ⟨.nil _, rfl, id, fun _ => .inl⟩

theorem Emitted.append {ts ts' : List Temporary} {xs xs' : List Command}
    (h : b.Emitted b' ts xs) (h' : b'.Emitted b'' ts' xs') :
    b.Emitted b'' (ts ++ ts') (xs ++ xs') where
  appends := h.appends.append h'.appends
  live := by rw [h'.live, h.live, reverse_append, append_assoc]
  slots := h'.slots ∘ h.slots
  declared type htype := by
    rcases h'.declared type htype with htype | ⟨t, ht, rfl⟩
    · rcases h.declared type htype with htype | ⟨t, ht, rfl⟩
      · exact .inl htype
      · exact .inr ⟨t, mem_append_left _ ht, rfl⟩
    · exact .inr ⟨t, mem_append_right _ ht, rfl⟩

end Body

namespace Emission

variable {α β : Type} {c : Setting}

/-- A piece of emission only adds to a body; when it succeeds it has acquired temporaries and
emitted commands that fit its answer. -/
def Emits (c : Setting) (x : Emission α) (C : α → List Temporary → List Command → Prop) : Prop :=
  ∀ b : Body, b.emitter.constants.Valid → b.Grows (x.outcome c b).2 ∧
    ∀ a, (x.outcome c b).1 = .ok a → ∃ ts xs, C a ts xs ∧ b.Emitted (x.outcome c b).2 ts xs

variable {C D : α → List Temporary → List Command → Prop}
  {E : β → List Temporary → List Command → Prop}

theorem Emits.mono {x : Emission α} (h : x.Emits c C) (hCD : ∀ a ts xs, C a ts xs → D a ts xs) :
    x.Emits c D := by
  intro b hvalid
  refine ⟨(h b hvalid).1, fun a ha => ?_⟩
  obtain ⟨ts, xs, hC, hemit⟩ := (h b hvalid).2 a ha
  exact ⟨ts, xs, hCD a ts xs hC, hemit⟩

theorem emits_pure (a : α) (h : C a [] []) : (pure a : Emission α).Emits c C :=
  fun b _ => ⟨.refl b, fun _ ha => by cases ha; exact ⟨[], [], h, .refl b⟩⟩

theorem emits_throw (e : EmitError) : (throw e : Emission α).Emits c C :=
  fun b _ => ⟨.refl b, fun _ ha => by cases ha⟩

theorem emits_checking (f : Setting → Except EmitError α) (h : ∀ a, f c = .ok a → C a [] []) :
    (checking f).Emits c C := by
  intro b _
  rw [outcome_checking]
  exact ⟨.refl b, fun a ha => ⟨[], [], h a ha, .refl b⟩⟩

/-- A sequence emits what its parts emit, one behind the other. -/
theorem Emits.bind {x : Emission α} {f : α → Emission β} (hx : x.Emits c C)
    (hf : ∀ a ts xs, C a ts xs →
      (f a).Emits c fun r ts' xs' => E r (ts ++ ts') (xs ++ xs')) :
    (x >>= f).Emits c E := by
  intro b hvalid
  obtain ⟨hgrows, hok⟩ := hx b hvalid
  rw [outcome_bind]
  rcases hout : x.outcome c b with ⟨_ | a, b₁⟩
  · rw [hout] at hgrows
    exact ⟨hgrows, fun r hr => by cases hr⟩
  · rw [hout] at hgrows hok
    obtain ⟨ts, xs, hC, hemit⟩ := hok a rfl
    obtain ⟨hgrows', hok'⟩ := hf a ts xs hC b₁ (hgrows.emitter.valid hvalid)
    refine ⟨hgrows.trans hgrows', fun r hr => ?_⟩
    obtain ⟨ts', xs', hE, hemit'⟩ := hok' r hr
    exact ⟨_, _, hE, hemit.append hemit'⟩

theorem emits_read_bind {f : Setting → Emission β} (h : (f c).Emits c E) :
    ((read : Emission Setting) >>= f).Emits c E := by
  intro b hvalid
  rw [outcome_bind, outcome_read]
  exact h b hvalid

theorem emits_checking_bind {g : Setting → Except EmitError α} {f : α → Emission β}
    (h : ∀ a, g c = .ok a → (f a).Emits c E) : (checking g >>= f).Emits c E :=
  (emits_checking (C := fun a ts xs => g c = .ok a ∧ ts = [] ∧ xs = []) g
    fun _ ha => ⟨ha, rfl, rfl⟩).bind fun a _ _ ⟨ha, hts, hxs⟩ => by
      subst hts hxs
      exact h a ha

theorem emits_onEmitter {x : Emitting Unit} {C : List Command → Prop} (h : x.Emits C) :
    (onEmitter x).Emits c fun _ ts xs => ts = [] ∧ C xs := by
  intro b hvalid
  rw [outcome_onEmitter]
  obtain ⟨hgrows, hok⟩ := h b.emitter
  refine ⟨.onEmitter hgrows, fun _ ha => ?_⟩
  obtain ⟨xs, hC, happends⟩ := hok hvalid ha
  exact ⟨[], xs, ⟨rfl, hC⟩, happends, rfl, fun hb => ⟨hb.typed, hb.distinct, hb.few⟩, fun _ => .inl⟩

theorem outcome_acquireTemporary (type : DataType) (b : Body) :
    (acquireTemporary type).outcome c b =
      match if c.options.reuseTemporaries then Body.takePooled type b.pooled else none with
      | some (t, rest) => (.ok t.slot, { b with pooled := rest, live := t :: b.live })
      | none =>
        if c.options.maxLocals.toNat ≤ b.locals.size then
          (.error (.tooManyLocals c.options.maxLocals.toNat), b)
        else
          (.ok (ofNat b.locals.size), { b with
            locals := b.locals.push type
            live := ⟨type, ofNat b.locals.size⟩ :: b.live }) := by
  unfold acquireTemporary
  simp only [outcome_bind, outcome_read, outcome_get]
  generalize (if c.options.reuseTemporaries then Body.takePooled type b.pooled else none) = found
  rcases found with _ | ⟨t, rest⟩
  · simp only [outcome_bind, outcome_declareLocal]
    by_cases hfull : c.options.maxLocals.toNat ≤ b.locals.size
    · rw [if_pos hfull, if_pos hfull]
    · rw [if_neg hfull, if_neg hfull]
      rfl
  · rfl

theorem emits_acquireTemporary (type : DataType) :
    (acquireTemporary type).Emits c fun slot ts xs => ts = [⟨type, slot⟩] ∧ xs = [] := by
  intro b _
  rw [outcome_acquireTemporary]
  split
  · rename_i t rest htake
    have htake : Body.takePooled type b.pooled = some (t, rest) := by
      split at htake
      · exact htake
      · cases htake
    obtain ⟨htype, hperm⟩ := Body.takePooled_some htake
    refine ⟨⟨.refl _, prefix_refl _, suffix_cons _ _, rfl⟩, fun slot hslot => ?_⟩
    cases hslot
    subst htype
    exact ⟨[t], [], ⟨rfl, rfl⟩, .nil _, rfl, fun hb => hb.take hperm, fun _ => .inl⟩
  · have hlimit := c.options.maxLocals.toNat_lt
    by_cases hfull : c.options.maxLocals.toNat ≤ b.locals.size
    · rw [if_pos hfull]
      exact ⟨.refl b, fun _ ha => by cases ha⟩
    · rw [if_neg hfull]
      refine ⟨⟨.refl _, by simp, suffix_cons _ _, rfl⟩, fun slot hslot => ?_⟩
      cases hslot
      refine ⟨_, [], ⟨rfl, rfl⟩, .nil _, rfl, fun hb => hb.push type (by omega), fun d hd => ?_⟩
      rcases Array.mem_push.mp hd with hd | rfl
      · exact .inl hd
      · exact .inr ⟨_, mem_singleton_self _, rfl⟩

/-- An atomic operation fails and leaves the body as it was, with more constants; or it succeeds. -/
theorem Emits.atomically {x : Emission α} (h : x.Emits c C) {b : Body}
    (hvalid : b.emitter.constants.Valid) (hb : b.Restorable) :
    (∃ e k, (atomically x).outcome c b = (.error e, b.withConstants k) ∧
      b.emitter.constants.Extends k ∧ k.Valid) ∨
    ∃ a b' ts xs, (Emission.atomically x).outcome c b = (.ok a, b') ∧ C a ts xs ∧ b.Grows b' ∧
      b.Emitted b' ts xs := by
  obtain ⟨hgrows, hok⟩ := h b hvalid
  rw [outcome_atomically]
  rcases hout : x.outcome c b with ⟨e | a, b'⟩
  · rw [hout] at hgrows
    refine .inl ⟨e, b'.emitter.constants, ?_, hgrows.emitter.constants, hgrows.emitter.valid hvalid⟩
    simp only [hgrows.restore hb]
  · rw [hout] at hgrows hok
    obtain ⟨ts, xs, hC, hemit⟩ := hok a rfl
    exact .inr ⟨a, b', ts, xs, rfl, hC, hgrows, hemit⟩

end Emission

end StackCode
