import StackCode.Proofs.Rollback

/-!
# Reading code back

What an emitter is asked for is what stands in its code in the end. Narrow and wide forms, the
places of constants and the targets of jumps are chosen on the way, and jumps may be filled in
later.
-/

namespace StackCode

open List Emitter.Action Emitter LabelTable

variable {code : List Instr} {as : List Emitter.Action} {f : Instr → Instr} {e : Emitter}

namespace Emitter

/-- The emitter after some actions, whether or not they are accepted. -/
def after (e : Emitter) (as : List Action) : Emitter :=
  as.foldl (fun e a => (a.emitting.outcome e).2) e

/-- The instructions that actions append, each with the line that is current then. -/
def written (e : Emitter) : List Action → List (Nat × Action)
  | [] => []
  | a :: as => (e.accepted a).map (e.line, ·) ++ written (a.emitting.outcome e).2 as

/-- An instruction is the one that was asked for: it refers to its constant by the place that this
has in the pool, and to a marked label by its position. -/
def Encodes (e : Emitter) (a : Action) (i : Instr) : Prop :=
  ∃ k, a.instr? i.offset k = some i ∧ (∀ c ∈ a.constant?, e.constants.Has c k) ∧
    ∀ op l q, a = .jump op l → e.labels.position l = .ok (some q) → k = q.toNat

/-- The lines of instructions, one for each byte. -/
def linesOf (ws : List (Nat × Action)) (code : List Instr) : List Nat :=
  (List.zipWith (fun w i => List.replicate i.bytes.length w.1) ws code).flatten

theorem linesOf_append {ws vs : List (Nat × Action)} {more : List Instr}
    (h : ws.length = code.length) :
    linesOf (ws ++ vs) (code ++ more) = linesOf ws code ++ linesOf vs more := by
  rw [linesOf, zipWith_append h, flatten_append, linesOf, linesOf]

theorem linesOf_map (hf : ∀ i ∈ code, (f i).bytes.length = i.bytes.length)
    (ws : List (Nat × Action)) :
    linesOf ws (code.map f) = linesOf ws code := by
  unfold linesOf
  induction code generalizing ws with
  | nil => simp
  | cons i code ih =>
    obtain ⟨hi, hf⟩ := forall_mem_cons.mp hf
    cases ws with
    | nil => simp
    | cons w ws => simp [hi, ih hf ws]

theorem linesOf_line {R : Action → Instr → Prop} {as : List Action} (h : Forall₂ R as code)
    (n : Nat) :
    linesOf (as.map (n, ·)) code = List.replicate (code.flatMap Instr.bytes).length n := by
  unfold linesOf
  induction h with
  | nil => rfl
  | cons _ _ ih => simp [ih]

theorem eq_of_mem_accepted {a b : Action} (h : b ∈ e.accepted a) : b = a := by
  unfold accepted at h
  split at h
  · exact mem_singleton.mp h
  · cases h

/-- The code is a list of instructions as they were asked for. -/
structure Transcribes (e : Emitter) (ws : List (Nat × Action)) (code : List Instr) : Prop where
  /-- The decoding scan finds these instructions. -/
  scanned : e.chunk.instructions = code.map fun i => (i.offset, i.op)
  /-- They stand one behind the other and fill the code. -/
  laid : Laid 0 code
  size : endOf 0 code = e.chunk.size
  /-- They are what a machine fetches. -/
  fetched : ∀ m : Method, m.chunk = e.chunk → ∀ i ∈ code, m.fetch? i.offset = some i
  encoded : List.Forall₂ (fun w i => e.Encodes w.2 i) ws code
  lines : e.chunk.lines.toList = linesOf ws code

/-- Whether an emitter accepts an instruction: the operands fit, or the label of the jump is its
own. -/
def Admits (e : Emitter) : Action → Prop
  | .jump _ l => ∃ s, e.labels.state l = .ok s
  | a => ∃ i ∈ a.instr? e.offset (a.place e), i.Fits

end Emitter

namespace LabelTable

variable {t : LabelTable} {l : Label} {q : UInt32}

theorem position_of_markOf (hctx : l.context = t.context) (h : t.markOf l.index = some q) :
    t.position l = .ok (some q) := by
  unfold markOf at h
  rw [position, state, if_neg (by simpa using hctx)]
  cases hst : t.labels[l.index]? with
  | none => simp [hst] at h
  | some st =>
    rw [hst] at h
    exact congrArg Except.ok h

theorem markOf_of_position (h : t.position l = .ok (some q)) : t.markOf l.index = some q := by
  unfold position at h
  cases hst : t.state l with
  | error err =>
    rw [hst] at h
    cases h
  | ok st =>
    rw [hst] at h
    rw [markOf_of_some (state_ok hst).2]
    exact Except.ok.inj h

end LabelTable

namespace Journal

variable {s t : Journal} {a : Emitter.Action} {i : Instr} {ws : List (Nat × Emitter.Action)}

/-- An instruction stays the one asked for when the target of a jump is filled in. -/
theorem Recorded.retarget (h : s.Recorded a i) (ha : a.WellFormed) (hf : s.Retargets f i)
    (hwaits : s.Waits i.offset → i.op.operandSize = 4)
    (hconsts : s.emitter.constants.Extends t.emitter.constants) (hjumps : s.jumps ⊆ t.jumps) :
    t.Recorded a (f i) := by
  obtain ⟨k, hi, hk, hjump⟩ := h
  rw [Recorded, hf.offset]
  rcases hf with hf | ⟨hwait, target, hf⟩ <;> rw [hf]
  · exact ⟨k, hi, fun c hc => (hk c hc).mono hconsts, fun op l heq => hjumps (hjump op l heq)⟩
  · -- Only jumps are filled in.
    have hsize := hwaits hwait
    cases a with
    | jump op l =>
      have hi : Instr.mk i.offset op k 0 = i := Option.some.inj hi
      exact ⟨target.toNat, by rw [← hi]; rfl, by simp [constant?],
        fun op l heq => hjumps (hjump op l heq)⟩
    | line | define | mark => cases hi
    | plain | byte | word | literal | hash | call | slot =>
      exact absurd hsize (operandSize_instr? ha trivial hi)

theorem constants_perform (ha : a.WellFormed) (s : Journal) :
    s.emitter.constants.Extends (s.perform a).emitter.constants ∧
      (s.emitter.constants.Valid → (s.perform a).emitter.constants.Valid) := by
  cases a with
  | line | define | mark | jump => exact ⟨.refl _, id⟩
  | plain | byte | word | literal | hash | call | slot =>
    obtain ⟨-, -, -, -, hconsts, -⟩ := writes_emitting ha trivial s.emitter
    rw [Journal.perform, hconsts]
    exact ⟨(grows_provide _ _).constants, (grows_provide _ _).valid⟩

/-- The code of a journal consists of the instructions asked for, each at its line. -/
structure Transcribed (s : Journal) (ws : List (Nat × Emitter.Action)) (code : List Instr) :
    Prop where
  sound : s.Sound code
  valid : s.emitter.constants.Valid
  wellFormed : ∀ w ∈ ws, w.2.WellFormed
  recorded : List.Forall₂ (fun w i => s.Recorded w.2 i) ws code
  lines : s.emitter.chunk.lines.toList = Emitter.linesOf ws code

theorem Transcribed.perform (h : s.Transcribed ws code) (ha : a.WellFormed) : ∃ code',
    (s.perform a).Transcribed (ws ++ (s.emitter.accepted a).map (s.emitter.line, ·)) code' := by
  obtain ⟨code', hsound, hlater, hgains⟩ := h.sound.perform ha
  obtain ⟨f, more, rfl, hf⟩ := hlater.code
  obtain ⟨later, hjumps, -⟩ := hlater.jumps
  rw [show (code.map f ++ more).drop code.length = more by simp] at hgains
  obtain ⟨hconsts, hvalid⟩ := constants_perform ha s
  refine ⟨code.map f ++ more, hsound, hvalid h.valid, ?_, ?_, ?_⟩
  · intro w hw
    rcases mem_append.mp hw with hw | hw
    · exact h.wellFormed w hw
    · obtain ⟨b, hb, rfl⟩ := mem_map.mp hw
      exact eq_of_mem_accepted hb ▸ ha
  -- What was recorded before may have had a target filled in; what is new stands behind it.
  · refine rel_append ?_ (forall₂_map_left_iff.mpr (hgains.recorded h.valid))
    rw [forall₂_map_right_iff, forall₂_iff_zip]
    refine ⟨h.recorded.length_eq, fun {w i} hwi => ?_⟩
    obtain ⟨hw, hi⟩ := of_mem_zip hwi
    exact ((forall₂_iff_zip.mp h.recorded).2 hwi).retarget (h.wellFormed w hw) (hf i hi)
      (h.sound.operandSize_of_waits hi) hconsts (hjumps ▸ subset_append_left _ _)
  · rw [hgains.lines, h.lines, linesOf_append (by simp [h.recorded.length_eq]),
      linesOf_map fun i hi => (hf i hi).length_bytes, linesOf_line (hgains.recorded h.valid)]

theorem Transcribed.performAll (h : s.Transcribed ws code) (has : ∀ a ∈ as, a.WellFormed) : ∃ code',
      (as.foldl Journal.perform s).Transcribed (ws ++ s.emitter.written as) code' := by
  induction as generalizing s ws code with
  | nil => exact ⟨code, by simpa [written] using h⟩
  | cons a as ih =>
    obtain ⟨ha, has⟩ := forall_mem_cons.mp has
    obtain ⟨code', h'⟩ := h.perform ha
    obtain ⟨code'', h''⟩ := ih h' has
    exact ⟨code'', by simpa [written, Journal.perform] using h''⟩

/-- The operands of recorded instructions, in terms of labels. -/
theorem Recorded.encodes (h : s.Recorded a i) (hs : s.Sound code) (hi : i ∈ code) :
    s.emitter.Encodes a i := by
  obtain ⟨k, hinstr, hk, hjump⟩ := h
  refine ⟨k, hinstr, hk, fun op l q heq hq => ?_⟩
  subst heq
  have hop : k = i.operand := congrArg Instr.operand (Option.some.inj hinstr)
  rw [hop]
  exact hs.settled _ (hjump op l rfl) q (markOf_of_position hq) i hi rfl

theorem Transcribed.transcribes (h : s.Transcribed ws code) : s.emitter.Transcribes ws code where
  scanned := h.sound.holds.instructions
  laid := h.sound.holds.laid
  size := h.sound.size.symm
  fetched _ hm _ hi := (hm ▸ h.sound.holds).fetch hi
  encoded := by
    rw [forall₂_iff_zip]
    refine ⟨h.recorded.length_eq, fun {w i} hwi => ?_⟩
    exact ((forall₂_iff_zip.mp h.recorded).2 hwi).encodes h.sound (of_mem_zip hwi).2
  lines := h.lines

theorem emitter_foldl (as : List Emitter.Action) (s : Journal) :
    (as.foldl Journal.perform s).emitter = s.emitter.after as := by
  induction as generalizing s with
  | nil => rfl
  | cons a as ih => exact ih (s.perform a)

theorem Reaches.foldl {u : Journal} (h : Reaches u s) (has : ∀ a ∈ as, a.WellFormed) :
    Reaches u (as.foldl Journal.perform s) := by
  induction as generalizing s with
  | nil => exact h
  | cons a as ih =>
    obtain ⟨ha, has⟩ := forall_mem_cons.mp has
    exact ih (.perform h ha) has

theorem Sound.position_foldl (hs : s.Sound code) (has : ∀ a ∈ as, a.WellFormed) {l : Label}
    (hok : ((markLabel l).outcome s.emitter).1 = .ok ()) :
    s.emitter.offset < 4294967296 ∧
    (as.foldl Journal.perform (s.perform (.mark l))).emitter.labels.position l =
        .ok (some (UInt32.ofNat s.emitter.offset)) := by
  have hout := (hs.fillable l).markLabel_outcome
  cases hst : s.emitter.labels.state l with
  | error err =>
    rw [hst] at hout
    rw [hout] at hok
    cases hok
  | ok st =>
    obtain ⟨hctx, hlabel⟩ := state_ok hst
    rw [hst] at hout
    dsimp only at hout
    rw [hout] at hok
    by_cases hmarked : st.position.isSome
    · rw [if_pos hmarked] at hok
      cases hok
    by_cases hlarge : 4294967296 ≤ s.emitter.offset
    · rw [if_neg hmarked, if_pos hlarge] at hok
      cases hok
    rw [if_neg hmarked, if_neg hlarge] at hout
    refine ⟨by omega, ?_⟩
    obtain ⟨code', ht, -⟩ := hs.perform (a := .mark l) trivial
    -- The mark is set by this action, and a journal that is reached from here keeps it.
    obtain ⟨code'', -, hlater⟩ := (Reaches.refl.foldl has).sound ht
    have hmark : (s.perform (.mark l)).emitter.labels.markOf l.index =
      some (UInt32.ofNat s.emitter.offset) := by
      rw [Journal.perform, emitting, hout]
      exact (markOf_set hlabel _ l.index).trans (if_pos rfl)
    have hctx' : (s.perform (.mark l)).emitter.labels.context = l.context := by
      rw [Journal.perform, emitting, hout]
      exact hctx.symm
    exact position_of_markOf (hlater.context.trans hctx').symm (hlater.markOf_of_some hmark)

end Journal

namespace Emitter

/-- An instruction is accepted exactly if the emitter admits it. -/
theorem accepted_iff {a : Action} (ha : a.WellFormed) (hinstr : (a.instr? 0 0).isSome) :
    (a.emitting.outcome e).1 = .ok () ↔ e.Admits a := by
  cases a with
  | line | define | mark => cases hinstr
  | jump op l =>
    rw [Action.emitting, Admits]
    rcases emitJump_outcome op ha l e with ⟨err, hst, hout⟩ | ⟨st, i, labels, hst, -, -, -, hout,
      -⟩ <;>
      simp [hst, hout]
  | plain | byte | word | literal | hash | call | slot =>
    obtain ⟨i, -, hi, -, -, ⟨hfits, hok, -⟩ | ⟨hfits, ⟨err, herr⟩, -⟩⟩ :=
      Action.writes_emitting ha trivial e
    · simp [Admits, hi, hok, hfits]
    · simp [Admits, hi, herr, hfits]

/-- Whatever an emitter is asked for since it was started: its code can be read back. A label has
the position at which it was marked, and the instructions that are accepted are those that it
admits. -/
theorem instructions_are_read_back {as : List Action} (has : ∀ a ∈ as, a.WellFormed)
    (context : ContextId) (line : Nat) :
    (∃ code, ((start context line).after as).Transcribes ((start context line).written as) code) ∧
    ∀ earlier a later, as = earlier ++ a :: later →
      ((a.instr? 0 0).isSome → ((a.emitting.outcome ((start context line).after earlier)).1 =
        .ok () ↔
        ((start context line).after earlier).Admits a)) ∧
      ∀ l, a = .mark l → (a.emitting.outcome ((start context line).after earlier)).1 = .ok () →
        ((start context line).after earlier).offset < 4294967296 ∧
          ((start context line).after as).labels.position l =
            .ok (some (UInt32.ofNat ((start context line).after earlier).offset)) := by
  constructor
  · have hstart : (Journal.start context line).Transcribed [] [] :=
      ⟨Journal.sound_start context line, Pool.valid_empty, by simp, .nil, rfl⟩
    obtain ⟨code, h⟩ := hstart.performAll has
    have hcode := h.transcribes
    rw [Journal.emitter_foldl] at hcode
    exact ⟨code, hcode⟩
  · rintro earlier a later rfl
    obtain ⟨hearlier, ha⟩ := List.forall_mem_append.mp has
    obtain ⟨ha, hlater⟩ := List.forall_mem_cons.mp ha
    refine ⟨accepted_iff ha, ?_⟩
    rintro l rfl hok
    obtain ⟨code, hs, -⟩ :=
      (Journal.Reaches.refl.foldl hearlier).sound (Journal.sound_start context line)
    have hmain := hs.position_foldl hlater (l := l) (by rw [Journal.emitter_foldl]; exact hok)
    rw [← List.foldl_cons (f := Journal.perform), ← List.foldl_append, Journal.emitter_foldl,
      Journal.emitter_foldl] at hmain
    exact hmain

/-- A jump over an instruction of each kind. -/
def detour : List Action :=
  [.line 7, .define, .jump .jump ⟨⟨0⟩, 0⟩, .line 9, .literal (.int .int32 5),
    .slot (.localSlot false .get) (.localSlot true .get) 300, .mark ⟨⟨0⟩, 0⟩, .plain .ret]

theorem detour_is_read_back :
    (∃ code, ((start ⟨0⟩ 1).after detour).Transcribes ((start ⟨0⟩ 1).written detour) code) ∧
      ((start ⟨0⟩ 1).after detour).labels.position ⟨⟨0⟩, 0⟩ = .ok (some 10) ∧
      ((start ⟨0⟩ 1).after detour).chunk.instructions =
        [(0, .jump), (5, .constant false), (7, .localSlot true .get), (10, .ret)] ∧
      ((start ⟨0⟩ 1).after detour).chunk.lines = #[7, 7, 7, 7, 7, 9, 9, 9, 9, 9, 9] := by
  have hdetour : ∀ a ∈ detour, a.WellFormed := by
    simp [detour, Action.WellFormed, Opcode.operandSize]
  obtain ⟨hcode, hmain⟩ := instructions_are_read_back hdetour ⟨0⟩ 1
  have hmark := (hmain (detour.take 6) (.mark ⟨⟨0⟩, 0⟩) [.plain .ret] rfl).2 _ rfl
    (by decide +kernel)
  exact ⟨hcode, hmark.2, by decide +kernel, by decide +kernel⟩

end Emitter

end StackCode
