import StackCode.Proofs.Journal

/-!
# Labels and going back

An emitter can go back to a checkpoint, also while it has further checkpoints to go back to. Jumps
before the checkpoint that were filled in since then wait for their labels again, and jumps behind
it are forgotten with the code.
-/

namespace StackCode

open LabelTable List Emitter Instr Chunk Nat

variable {n : Nat} {more : List Instr} {a : Emitter.Action} {f : Instr → Instr}

namespace Journal

variable {s t u r : Journal} {code code' code'' kept : List Instr}

/-! ### Later journals -/

/-- A jump to a label without mark. -/
def Waits (s : Journal) (n : Nat) : Prop :=
  ∃ j ∈ s.jumps, j.offset = n ∧ s.emitter.labels.markOf j.label = none

/-- What may become of an instruction: the target of a jump that waits is filled in. -/
def Retargets (s : Journal) (f : Instr → Instr) (i : Instr) : Prop :=
  f i = i ∨ s.Waits i.offset ∧ ∃ target, f i = i.aimAt target

/-- What is left of a journal in a later one: its code, apart from the targets of jumps to labels
that were not marked, its marks and its records. -/
structure Later (s t : Journal) (code code' : List Instr) : Prop where
  code : ∃ f more, code' = code.map f ++ more ∧ ∀ i ∈ code, s.Retargets f i
  lines : s.emitter.chunk.lines.toList <+: t.emitter.chunk.lines.toList
  jumps : ∃ more, t.jumps = s.jumps ++ more ∧ ∀ j ∈ more, s.emitter.offset ≤ j.offset
  marks : ∃ newer, t.emitter.labels.marked = newer ++ s.emitter.labels.marked ∧
    (∀ l ∈ newer, s.emitter.labels.markOf l = none) ∧
    ∀ l, l ∉ newer → t.emitter.labels.markOf l = s.emitter.labels.markOf l
  waiting : ∀ l, (t.emitter.labels.waiting l).filter (fun f => decide (f < s.emitter.offset)) =
    s.emitter.labels.waiting l
  size : s.emitter.labels.labels.size ≤ t.emitter.labels.labels.size
  context : t.emitter.labels.context = s.emitter.labels.context

/-- All records lie before the end of the code. -/
theorem Sound.filter_waiting (h : s.Sound code) (l : Nat) (hn : s.emitter.offset ≤ n) :
    (s.emitter.labels.waiting l).filter (fun f => decide (f < n)) = s.emitter.labels.waiting l := by
  refine filter_eq_self.mpr fun f hf => ?_
  obtain ⟨j, hj, -, rfl⟩ := h.recorded l f hf
  have hlt := h.jump_lt hj
  simp only [decide_eq_true_eq]
  omega

theorem later_of_labels {e : Emitter} {jumps : List Jump}
    (hlines : s.emitter.chunk.lines.toList <+: e.chunk.lines.toList)
    (hjumps : ∀ j ∈ jumps, s.emitter.offset ≤ j.offset)
    (hmark : e.labels.marked = s.emitter.labels.marked)
    (hmarks : ∀ l, e.labels.markOf l = s.emitter.labels.markOf l)
    (hwait : ∀ l, (e.labels.waiting l).filter (fun f => decide (f < s.emitter.offset)) =
      s.emitter.labels.waiting l) (hsize : s.emitter.labels.labels.size ≤ e.labels.labels.size)
    (hctx : e.labels.context = s.emitter.labels.context) :
    s.Later ⟨e, s.jumps ++ jumps⟩ code (code ++ more) where
  code := ⟨id, more, by simp, fun i _ => .inl rfl⟩
  lines := hlines
  jumps := ⟨jumps, rfl, hjumps⟩
  marks := ⟨[], hmark, by simp, fun l _ => hmarks l⟩
  waiting := hwait
  size := hsize
  context := hctx

section Retargets

variable {i : Instr}

theorem Retargets.offset (hf : s.Retargets f i) : (f i).offset = i.offset := by
  rcases hf with hf | ⟨-, target, hf⟩ <;> rw [hf]
  rfl

theorem Retargets.op (hf : s.Retargets f i) : (f i).op = i.op := by
  rcases hf with hf | ⟨-, target, hf⟩ <;> rw [hf]
  rfl

theorem Retargets.length_bytes (hf : s.Retargets f i) : (f i).bytes.length = i.bytes.length := by
  rw [Instr.length_bytes, Instr.length_bytes, hf.op]

theorem endOf_retargets (hf : ∀ i ∈ code, s.Retargets f i) :
    endOf 0 (code.map f) = endOf 0 code := by
  unfold endOf
  congr 1
  rw [flatMap_map, length_flatMap, length_flatMap]
  congr 1
  exact map_congr_left fun i hi => (hf i hi).length_bytes

theorem jumps_retargets (hf : ∀ i ∈ code, s.Retargets f i) (n : Nat) :
    (∃ i ∈ code.map f, i.offset = n ∧ i.op.operandSize = 4) ↔
      ∃ i ∈ code, i.offset = n ∧ i.op.operandSize = 4 := by
  constructor
  · rintro ⟨i', hi', hn, hsize⟩
    obtain ⟨i, hi, rfl⟩ := mem_map.mp hi'
    rw [(hf i hi).offset] at hn
    rw [(hf i hi).op] at hsize
    exact ⟨i, hi, hn, hsize⟩
  · rintro ⟨i, hi, hn, hsize⟩
    refine ⟨f i, mem_map_of_mem hi, ?_, ?_⟩
    · rw [(hf i hi).offset, hn]
    · rw [(hf i hi).op, hsize]

end Retargets

namespace Later

theorem markOf_of_some (h : s.Later t code code') {l : Nat} {p : UInt32}
    (hp : s.emitter.labels.markOf l = some p) : t.emitter.labels.markOf l = some p := by
  obtain ⟨newer, -, hnewer, hsame⟩ := h.marks
  rwa [hsame l fun hmem => by rw [hnewer l hmem] at hp; cases hp]

/-- A jump of the later journal that stands in the code of the earlier one is a jump of that. -/
theorem waits (h : s.Later t code code') (hn : n < s.emitter.offset) (ht : t.Waits n) :
    s.Waits n := by
  obtain ⟨j, hj, hoff, hnone⟩ := ht
  obtain ⟨more, hjumps, hmore⟩ := h.jumps
  rw [hjumps] at hj
  rcases mem_append.mp hj with hj | hj
  · refine ⟨j, hj, hoff, ?_⟩
    cases hp : s.emitter.labels.markOf j.label with
    | none => rfl
    | some p =>
      rw [h.markOf_of_some hp] at hnone
      cases hnone
  · have := hmore j hj
    omega

theorem offset_le (hs : s.Sound code) (ht : t.Sound code') (h : s.Later t code code') :
    s.emitter.offset ≤ t.emitter.offset := by
  have hle := h.lines.length_le
  have hsize : s.emitter.chunk.lines.size = s.emitter.offset := hs.lines
  have htsize : t.emitter.chunk.lines.size = t.emitter.offset := ht.lines
  rwa [Array.length_toList, Array.length_toList, hsize, htsize] at hle

theorem trans (hs : s.Sound code) (ht : t.Sound code') (h : s.Later t code code')
    (h' : t.Later u code' code'') : s.Later u code code'' where
  code := by
    obtain ⟨f, more, rfl, hf⟩ := h.code
    obtain ⟨g, more', rfl, hg⟩ := h'.code
    refine ⟨g ∘ f, more.map g ++ more', by simp, fun i hi => ?_⟩
    have hlt := hs.holds.laid.offset_lt_endOf hi
    rw [length_bytes, ← hs.size] at hlt
    rcases hg (f i) (mem_append_left _ (mem_map_of_mem hi)) with hgi | ⟨hwaits, target, hgi⟩
    · unfold Retargets
      rw [Function.comp_apply, hgi]
      exact hf i hi
    · rw [(hf i hi).offset] at hwaits
      refine .inr ⟨h.waits (by omega) hwaits, target, ?_⟩
      rw [Function.comp_apply, hgi]
      rcases hf i hi with hfi | ⟨-, target', hfi⟩ <;> rw [hfi]
      rfl
  lines := h.lines.trans h'.lines
  jumps := by
    obtain ⟨more, hjumps, hmore⟩ := h.jumps
    obtain ⟨more', hjumps', hmore'⟩ := h'.jumps
    refine ⟨more ++ more', by rw [hjumps', hjumps, append_assoc], fun j hj => ?_⟩
    have hle := offset_le hs ht h
    rcases mem_append.mp hj with hj | hj
    · exact hmore j hj
    · have := hmore' j hj
      omega
  marks := by
    obtain ⟨newer, hmark, hnewer, hsame⟩ := h.marks
    obtain ⟨newer', hmark', hnewer', hsame'⟩ := h'.marks
    refine ⟨newer' ++ newer, by rw [hmark', hmark, append_assoc], fun l hl => ?_, fun l hl => ?_⟩
    · rcases mem_append.mp hl with hl | hl
      · cases hp : s.emitter.labels.markOf l with
        | none => rfl
        | some p =>
          have hnone := hnewer' l hl
          rw [h.markOf_of_some hp] at hnone
          cases hnone
      · exact hnewer l hl
    · rw [mem_append, not_or] at hl
      rw [hsame' l hl.1, hsame l hl.2]
  waiting l := by
    have hle := offset_le hs ht h
    rw [← h.waiting l, ← h'.waiting l, filter_filter]
    refine filter_congr fun f _ => ?_
    by_cases hf : f < s.emitter.offset
    · have hft : f < t.emitter.offset := by omega
      simp [hf, hft]
    · simp [hf]
  size := h.size.trans h'.size
  context := h'.context.trans h.context

end Later

theorem Later.refl (h : s.Sound code) : s.Later s code code := by
  have hlater : s.Later ⟨s.emitter, s.jumps ++ []⟩ code (code ++ []) :=
    later_of_labels (prefix_refl _) (by simp) rfl (fun _ => rfl)
      (fun l => h.filter_waiting l (le_refl _)) (le_refl _) rfl
  rwa [append_nil, append_nil] at hlater

/-! ### Steps -/

/-- What becomes of an action: the code goes on, and the journal gains the instruction asked for. -/
def Step (s : Journal) (code : List Instr) (a : Emitter.Action) : Prop :=
  ∃ code', (s.perform a).Sound code' ∧ s.Later (s.perform a) code code' ∧
    s.Gains a (code'.drop code.length)

/-- An action that is refused, or asks for no instruction, gains nothing. -/
theorem gains_nothing (hacc : s.emitter.accepted a = [])
    (hlines : (s.perform a).emitter.chunk.lines = s.emitter.chunk.lines) : s.Gains a [] where
  recorded _ := hacc ▸ .nil
  lines := by simp [hlines]

section Steps

variable (h : s.Sound code)
include h

theorem Sound.step_refl (hacc : s.emitter.accepted a = []) (hperf : s.perform a = s) :
    s.Step code a := by
  have hgains := gains_nothing hacc (by rw [hperf])
  refine ⟨code, ?_, ?_, by simpa using hgains⟩ <;> rw [hperf]
  · exact h
  · exact .refl h

theorem Sound.step_writes (hjumps : a.jumps s.emitter = [])
    (hw : s.emitter.Writes (a.emitting.outcome s.emitter).2 more) (hgains : s.Gains a more) :
    s.Step code a := by
  refine ⟨code ++ more, ?_, later_of_labels ?_ (by simp [hjumps]) ?_ ?_ ?_ ?_ ?_,
    by simpa using hgains⟩
  · rw [Journal.perform, hjumps, append_nil]
    exact h.writes hw
  · rw [hw.chunk, lines_writeBytes]
    exact prefix_append _ _
  · rw [hw.labels]
  · simp [hw.labels]
  · rw [hw.labels]
    exact fun l => h.filter_waiting l (le_refl _)
  · rw [hw.labels]
  · rw [hw.labels]

theorem Sound.step_straight (ha : a.WellFormed) (hstraight : a.Straight) : s.Step code a := by
  obtain ⟨i, more, hi, hw, hconsts, hcase⟩ := a.writes_emitting ha hstraight s.emitter
  refine h.step_writes (a.jumps_of_straight hstraight _) hw ⟨fun hvalid => ?_, ?_⟩
  · rcases hcase with ⟨-, hok, rfl⟩ | ⟨-, ⟨err, herr⟩, rfl⟩
    · have hacc : s.emitter.accepted a = [a] := by
        rw [accepted, hok, if_pos ⟨a.isSome_instr? hstraight 0 0, rfl⟩]
      rw [hacc]
      refine .cons ⟨a.place s.emitter, ?_, ?_, fun op l heq => ?_⟩ .nil
      · rwa [Emitter.Action.offset_instr? hi]
      · rw [Journal.perform, hconsts]
        exact a.has_place hvalid
      · rw [heq] at hstraight
        exact hstraight.elim
    · have hacc : s.emitter.accepted a = [] := by
        rw [accepted, herr]
        simp [Except.toBool]
      rw [hacc]
      exact .nil
  · show (a.emitting.outcome s.emitter).2.chunk.lines.toList = _
    rw [hw.chunk, lines_writeBytes]

theorem Sound.step_define : s.Step code .define := by
  have hgains : s.Gains .define [] := gains_nothing rfl rfl
  have hperf : s.perform .define = ⟨{ s.emitter with labels := s.emitter.labels.define.2 },
    s.jumps ++ []⟩ := rfl
  unfold Step
  rw [hperf]
  refine ⟨code ++ [], ?_, later_of_labels (prefix_refl _) (by simp) rfl
    s.emitter.labels.markOf_define (fun l => ?_) (by simp [LabelTable.define]) rfl, by
      simpa using hgains⟩
  · rw [append_nil, append_nil]
    exact h.congr rfl s.emitter.labels.markOf_define s.emitter.labels.waiting_define
  · rw [waiting_define]
    exact h.filter_waiting l (le_refl _)

theorem Sound.step_mark (l : Label) : s.Step code (.mark l) := by
  have hrefused : ∀ err, (markLabel l).outcome s.emitter = (.error err, s.emitter) →
    s.Step code (.mark l) := by
    intro err hout
    refine h.step_refl rfl ?_
    simp [Journal.perform, Emitter.Action.emitting, Emitter.Action.jumps, hout]
  have hout := (h.fillable l).markLabel_outcome
  cases hst : s.emitter.labels.state l with
  | error err =>
    rw [hst] at hout
    exact hrefused err hout
  | ok st =>
    rw [hst] at hout
    dsimp only at hout
    obtain ⟨-, hlabel⟩ := state_ok hst
    by_cases hmark : st.position.isSome
    · rw [if_pos hmark] at hout
      exact hrefused _ hout
    by_cases hlarge : 4294967296 ≤ s.emitter.offset
    · rw [if_neg hmark, if_pos hlarge] at hout
      exact hrefused _ hout
    rw [if_neg hmark, if_neg hlarge] at hout
    have hpos : st.position = none := by simpa using hmark
    have hperf : s.perform (.mark l) = ⟨s.emitter.withMark l.index st, s.jumps⟩ := by
      unfold perform
      rw [Emitter.Action.emitting, hout]
      simp [Emitter.Action.jumps]
    have hlines : (s.emitter.withMark l.index st).chunk.lines = s.emitter.chunk.lines := by
      obtain ⟨c, hpatch, hlines, -⟩ := h.patchAll l.index (UInt32.ofNat s.emitter.offset)
      rw [waiting_of_some hlabel] at hpatch
      rw [Emitter.withMark, hpatch, hlines]
    have hgains : s.Gains (.mark l) [] := gains_nothing rfl (by rw [hperf, hlines])
    have hsound := h.withMark hlabel hpos
    unfold Step
    rw [hperf]
    refine ⟨_, hsound, ⟨⟨_, [], (append_nil _).symm, fun i hi => ?_⟩, by rw [hlines],
      ⟨[], by simp, by simp⟩, ⟨[l.index], rfl, ?_, fun k hk => ?_⟩, fun k => ?_, ?_, rfl⟩,
      by simpa [← map_drop] using hgains⟩
    · by_cases hmem : i.offset + 1 ∈ st.fixups
      · refine .inr ⟨?_, UInt32.ofNat s.emitter.offset, by rw [patched, if_pos hmem]⟩
        rw [← waiting_of_some hlabel] at hmem
        obtain ⟨j, hj, hjl, heq⟩ := h.recorded _ _ hmem
        exact ⟨j, hj, by omega, by rw [hjl, markOf_of_some hlabel, hpos]⟩
      · exact .inl (by rw [patched, if_neg hmem])
    · simp [markOf_of_some hlabel, hpos]
    · refine (markOf_set hlabel _ k).trans (if_neg ?_)
      simpa using hk
    · have hwaits : (s.emitter.withMark l.index st).labels.waiting k =
        s.emitter.labels.waiting k := by
        refine (waiting_set hlabel _ k).trans ?_
        split
        · rename_i hk
          rw [hk, waiting_of_some hlabel]
        · rfl
      rw [hwaits]
      exact h.filter_waiting k (le_refl _)
    · simp [Emitter.withMark, LabelTable.set]

theorem Sound.step_jump {op : Opcode} (hop : op.operandSize = 4) (l : Label) :
    s.Step code (.jump op l) := by
  rcases emitJump_outcome op hop l s.emitter with
    ⟨err, -, hout⟩ | ⟨st, i, labels, hst, hoff, hiop, hfits, hout, hcase⟩
  · refine h.step_refl ?_ ?_
    · simp [accepted, Emitter.Action.emitting, hout, Except.toBool]
    · simp [Journal.perform, Emitter.Action.emitting, Emitter.Action.jumps, hout, Except.toBool]
  obtain ⟨-, hlabel⟩ := state_ok hst
  have hmark := markOf_of_some hlabel
  have hwait := waiting_of_some hlabel
  have hperf : s.perform (.jump op l) =
      ⟨{ s.emitter with chunk := s.emitter.chunk.writeBytes i.bytes s.emitter.line, labels :=
        labels },
        s.jumps ++ [⟨s.emitter.offset, l.index⟩]⟩ := by
    simp [perform, Emitter.Action.emitting, Emitter.Action.jumps, hout, Except.toBool]
  -- The two cases differ in what is recorded.
  have hviews : (∀ k, labels.markOf k = s.emitter.labels.markOf k) ∧
      (∀ p, s.emitter.labels.markOf l.index = some p → i.operand = p.toNat) ∧
      (∀ k, labels.waiting k = if k = l.index ∧ s.emitter.labels.markOf l.index = none
        then s.emitter.labels.waiting k ++ [s.emitter.offset + 1] else s.emitter.labels.waiting k) ∧
      labels.marked = s.emitter.labels.marked ∧ labels.labels.size = s.emitter.labels.labels.size ∧
      labels.context = s.emitter.labels.context := by
    rcases hcase with ⟨p, hp, htgt, rfl⟩ | ⟨hp, rfl⟩
    · refine ⟨fun _ => rfl, fun q hq => ?_, fun k => ?_, rfl, rfl, rfl⟩
      · rw [hmark, hp] at hq
        cases hq
        exact htgt
      · rw [if_neg]
        rw [hmark, hp]
        simp
    · refine ⟨fun k => ?_, fun q hq => ?_, fun k => ?_, rfl, by
        simp [LabelTable.wait, LabelTable.set], rfl⟩
      · rw [LabelTable.wait, markOf_set hlabel]
        split
        · rename_i hk
          rw [hk, hmark]
        · rfl
      · rw [hmark, hp] at hq
        cases hq
      · rw [LabelTable.wait, waiting_set hlabel]
        by_cases hk : k = l.index
        · rw [if_pos hk, if_pos ⟨hk, hmark.trans hp⟩, hk, hwait]
        · rw [if_neg hk, if_neg fun hand => hk hand.1]
  obtain ⟨hmarks, haims, hwaits, hmarked, hsize, hctx⟩ := hviews
  have hgains : s.Gains (.jump op l) [i] := by
    have hacc : s.emitter.accepted (.jump op l) = [.jump op l] := by
      simp [accepted, Emitter.Action.emitting, Emitter.Action.instr?, hout, Except.toBool]
    have hargc : i.argc = 0 := by
      simp only [Instr.Fits, hiop, hop] at hfits
      exact hfits.2
    refine ⟨fun _ => ?_, ?_⟩ <;> rw [hperf]
    · rw [hacc]
      refine .cons ⟨i.operand, ?_, by simp [Emitter.Action.constant?], fun op' l' heq => ?_⟩ .nil
      · rw [Emitter.Action.instr?, ← hiop, ← hargc]
      · cases heq
        simp [hoff]
    · rw [lines_writeBytes]
      simp
  unfold Step
  rw [hperf]
  refine ⟨code ++ [i], h.jump hoff hfits (hiop ▸ hop) rfl hmarks haims hwaits,
    later_of_labels ?_ (by simp) hmarked hmarks (fun k => ?_) hsize.ge hctx, by simpa using hgains⟩
  · rw [lines_writeBytes]
    exact prefix_append _ _
  · show (labels.waiting k).filter _ = _
    rw [hwaits]
    split
    · rw [filter_append, h.filter_waiting k (le_refl _)]
      simp
    · exact h.filter_waiting k (le_refl _)

theorem Sound.perform (ha : a.WellFormed) : s.Step code a := by
  cases a with
  | line n => exact h.step_writes rfl (writes_nothing rfl rfl) (gains_nothing rfl rfl)
  | define => exact h.step_define
  | mark l => exact h.step_mark l
  | jump op l => exact h.step_jump ha l
  | plain | byte | word | literal | hash | call | slot => exact h.step_straight ha trivial

end Steps

/-! ### Going back -/

theorem holds_truncate {c : Chunk} (h : c.Holds (code ++ more)) :
    (c.truncate (endOf 0 code)).Holds code := by
  refine ⟨(laid_append.mp h.laid).1, ?_⟩
  have hcode := h.bytes
  rw [flatMap_append] at hcode
  rw [truncate, Array.take_eq_extract, Array.toList_extract, hcode, endOf]
  simp [extract_eq_take_drop]

/-- The journal as it was, with some targets filled in. -/
structure Returns (s r : Journal) (code kept : List Instr) : Prop where
  code : ∃ f, kept = code.map f ∧ ∀ i ∈ code, s.Retargets f i
  holds : r.emitter.chunk.Holds kept
  lines : r.emitter.chunk.lines = s.emitter.chunk.lines
  jumps : r.jumps = s.jumps
  marked : r.emitter.labels.marked = s.emitter.labels.marked
  marks : ∀ l, r.emitter.labels.markOf l = s.emitter.labels.markOf l
  waiting : ∀ l, r.emitter.labels.waiting l = s.emitter.labels.waiting l
  size : s.emitter.labels.labels.size ≤ r.emitter.labels.labels.size
  context : r.emitter.labels.context = s.emitter.labels.context

/-- Going back takes away the jumps behind the checkpoint. -/
theorem Later.jumps_rollback (hs : s.Sound code) (h : s.Later t code code') :
    (t.rollback s.emitter.checkpoint).jumps = s.jumps := by
  obtain ⟨more, hjumps, hbehind⟩ := h.jumps
  have hold : s.jumps.filter (fun j => decide (j.offset < s.emitter.offset)) = s.jumps :=
    filter_eq_self.mpr fun j hj => by
      have := hs.jump_lt hj
      simp only [decide_eq_true_eq]
      omega
  have hnew : more.filter (fun j => decide (j.offset < s.emitter.offset)) = [] :=
    filter_eq_nil_iff.mpr fun j hj => by
      have := hbehind j hj
      simp only [decide_eq_true_eq]
      omega
  show t.jumps.filter (fun j => decide (j.offset < s.emitter.offset)) = _
  rw [hjumps, filter_append, hold, hnew, append_nil]

theorem Later.rollback (hs : s.Sound code) (ht : t.Sound code') (h : s.Later t code code') :
    ∃ kept, s.Returns (t.rollback s.emitter.checkpoint) code kept := by
  obtain ⟨f, more, rfl, hf⟩ := h.code
  obtain ⟨newer, hmark, hnewer, hsame⟩ := h.marks
  refine ⟨code.map f, ⟨f, rfl, hf⟩, ?_, ?_, h.jumps_rollback hs, marked_rollback hmark,
    fun l => ?_, fun l => (waiting_rollback hmark l).trans (h.waiting l), ?_, h.context⟩
  · have htruncated := holds_truncate ht.holds
    rwa [endOf_retargets hf, ← hs.size] at htruncated
  · obtain ⟨later, hlater⟩ := h.lines
    have htake := take_of_toList_eq hlater.symm
    rwa [hs.lines] at htake
  · refine (markOf_rollback hmark l).trans ?_
    split
    · exact (hnewer l ‹_›).symm
    · exact hsame l ‹_›
  · refine h.size.trans ?_
    show _ ≤ (LabelTable.rollback _ _ _).labels.size
    rw [size_rollback]

namespace Returns

theorem code_size (hs : s.Sound code) (h : s.Returns r code kept) :
    r.emitter.chunk.code.size = s.emitter.chunk.code.size := by
  obtain ⟨f, rfl, hf⟩ := h.code
  have hsize := h.holds.size
  rwa [endOf_retargets hf, ← hs.size] at hsize

theorem sound (hs : s.Sound code) (h : s.Returns r code kept) : r.Sound kept := by
  have hsize := h.code_size hs
  obtain ⟨f, rfl, hf⟩ := h.code
  constructor
  · exact h.holds
  · rw [h.lines, hsize, hs.lines]
  · intro n
    rw [h.jumps, ← hs.jumps n, jumps_retargets hf]
  · rw [h.jumps]
    exact hs.unique
  · rw [h.jumps]
    intro j hj p hp i' hi' hn
    rw [h.marks] at hp
    obtain ⟨i, hi, rfl⟩ := mem_map.mp hi'
    rw [(hf i hi).offset] at hn
    rcases hf i hi with hfi | ⟨⟨j', hj', heq, hnone⟩, -⟩
    · rw [hfi]
      exact hs.settled j hj p hp i hi hn
    · -- The label of this jump is marked, so the jump was not waiting.
      rw [hs.unique j' hj' j hj (by omega), hp] at hnone
      cases hnone
  · rw [h.jumps]
    intro j hj hnone
    rw [h.waiting]
    exact hs.pending j hj (by rw [← h.marks]; exact hnone)
  · intro l k hk
    rw [h.jumps]
    rw [h.waiting] at hk
    exact hs.recorded l k hk
  · intro l
    rw [h.waiting]
    exact hs.once l

theorem later (hs : s.Sound code) (h : s.Returns r code kept) : s.Later r code kept := by
  obtain ⟨f, rfl, hf⟩ := h.code
  refine ⟨⟨f, [], by simp, hf⟩, ?_, ⟨[], by simp [h.jumps], by simp⟩,
    ⟨[], h.marked, by simp, fun l _ => h.marks l⟩, fun l => ?_, h.size, h.context⟩
  · rw [h.lines]
  · rw [h.waiting]
    exact hs.filter_waiting l (le_refl _)

end Returns

/-- Whatever leads from one journal to another, the later one is sound and the earlier one is
left. -/
theorem Reaches.sound (h : Reaches s t) (hs : s.Sound code) :
    ∃ code', t.Sound code' ∧ s.Later t code code' := by
  induction h generalizing code with
  | refl => exact ⟨code, hs, .refl hs⟩
  | perform _ ha ih =>
    obtain ⟨code', ht, hlater⟩ := ih hs
    obtain ⟨code'', hu, hlater', -⟩ := ht.perform ha
    exact ⟨code'', hu, hlater.trans hs ht hlater'⟩
  | rollback _ _ ih ih' =>
    obtain ⟨code', ht, hlater⟩ := ih hs
    obtain ⟨code'', hu, hlater'⟩ := ih' ht
    obtain ⟨kept, hback⟩ := hlater'.rollback ht hu
    exact ⟨kept, hback.sound ht, hlater.trans hs ht (hback.later ht)⟩

/-! ### In terms of the code -/

/-- The jumps of a journal are those that the decoding scan finds. A jump to a marked label holds
the position of the mark, and a jump to an unmarked label is recorded once; whatever is recorded is
the operand of such a jump. -/
structure Consistent (s : Journal) : Prop where
  scanned : ∀ n, (∃ op, (n, op) ∈ s.emitter.chunk.instructions ∧ op.isJump) ↔ ∃ j ∈ s.jumps,
    j.offset = n
  settled : ∀ j ∈ s.jumps, ∀ p, s.emitter.labels.markOf j.label = some p →
    s.emitter.chunk.word32? (j.offset + 1) = some p
  pending : ∀ j ∈ s.jumps, s.emitter.labels.markOf j.label = none →
    (s.emitter.labels.waiting j.label).count (j.offset + 1) = 1
  recorded : ∀ l, ∀ f ∈ s.emitter.labels.waiting l,
    ∃ j ∈ s.jumps, j.label = l ∧ f = j.offset + 1 ∧ f + 4 ≤ s.emitter.chunk.size

/-- What going back restores: the length of the code and its lines, all bytes but the targets of
jumps to labels that had no mark, the marks, and the records. -/
structure Restored (s r : Journal) : Prop where
  size : r.emitter.chunk.size = s.emitter.chunk.size
  lines : r.emitter.chunk.lines = s.emitter.chunk.lines
  bytes : ∀ n, r.emitter.chunk.byte? n = s.emitter.chunk.byte? n ∨
    ∃ j ∈ s.jumps, s.emitter.labels.markOf j.label = none ∧ j.offset + 1 ≤ n ∧ n < j.offset + 5
  jumps : r.jumps = s.jumps
  marked : r.emitter.labels.marked = s.emitter.labels.marked
  marks : ∀ l, r.emitter.labels.markOf l = s.emitter.labels.markOf l
  waiting : ∀ l, r.emitter.labels.waiting l = s.emitter.labels.waiting l

theorem Sound.consistent (h : s.Sound code) : s.Consistent where
  scanned n := by
    rw [← h.jumps n, h.holds.instructions]
    constructor
    · rintro ⟨op, hmem, hjump⟩
      obtain ⟨i, hi, heq⟩ := mem_map.mp hmem
      obtain ⟨rfl, rfl⟩ := Prod.mk.inj heq
      exact ⟨i, hi, rfl, Opcode.isJump_iff.mp hjump⟩
    · rintro ⟨i, hi, rfl, hsize⟩
      exact ⟨i.op, mem_map_of_mem hi, Opcode.isJump_iff.mpr hsize⟩
  settled j hj p hp := by
    obtain ⟨i, hi, hoff, hsize⟩ := (h.jumps j.offset).mpr ⟨j, hj, rfl⟩
    rw [← hoff, h.holds.word32? hi hsize, h.settled j hj p hp i hi hoff, UInt32.ofNat_toNat]
  pending j hj hnone := count_eq_one_of_mem (h.once _) (h.pending j hj hnone)
  recorded l f hf := by
    obtain ⟨j, hj, hlabel, rfl⟩ := h.recorded l f hf
    have hlt : j.offset + 5 ≤ s.emitter.chunk.size := h.jump_lt hj
    exact ⟨j, hj, hlabel, rfl, by omega⟩

/-- Bytes of code that differs in the targets of some jumps. -/
theorem getElem?_flatMap_bytes (hlaid : Laid n code) (hf : ∀ i ∈ code, s.Retargets f i)
    (hsize : ∀ i ∈ code, s.Waits i.offset → i.op.operandSize = 4) (k : Nat) :
    ((code.map f).flatMap bytes)[k]? = (code.flatMap bytes)[k]? ∨
      ∃ j ∈ s.jumps, s.emitter.labels.markOf j.label = none ∧ j.offset + 1 ≤ n + k ∧
      n + k < j.offset + 5 := by
  induction code generalizing n k with
  | nil => exact .inl rfl
  | cons i code ih =>
    obtain ⟨hi, hf⟩ := forall_mem_cons.mp hf
    obtain ⟨hjump, hsize⟩ := forall_mem_cons.mp hsize
    obtain ⟨hoff, -, hlaid⟩ := hlaid
    have hlen := hi.length_bytes
    rw [map_cons, flatMap_cons, flatMap_cons]
    by_cases hk : k < i.bytes.length
    · rw [getElem?_append_left (hlen ▸ hk), getElem?_append_left hk]
      rcases hi with hi | ⟨hwaits, target, hi⟩
      · exact .inl (by rw [hi])
      · cases k with
        | zero => exact .inl (by rw [hi]; rfl)
        | succ k =>
          rw [length_bytes, hjump hwaits] at hk
          obtain ⟨j, hj, hjoffset, hnone⟩ := hwaits
          exact .inr ⟨j, hj, hnone, by omega, by omega⟩
    · have hk : i.bytes.length ≤ k := Nat.le_of_not_lt hk
      rw [getElem?_append_right (hlen ▸ hk), getElem?_append_right hk, hlen]
      have hnext : i.next + (k - i.bytes.length) = n + k := by
        rw [length_bytes] at hk ⊢
        unfold Instr.next
        omega
      have hrest := ih hlaid hf hsize (k - i.bytes.length)
      rwa [hnext] at hrest

/-- Where a jump waits, a jump stands in the code. -/
theorem Sound.operandSize_of_waits (h : s.Sound code) {i : Instr} (hi : i ∈ code)
    (hwaits : s.Waits i.offset) : i.op.operandSize = 4 := by
  obtain ⟨j, hj, hjoffset, -⟩ := hwaits
  obtain ⟨i', hi', hoff', hsize⟩ := (h.jumps j.offset).mpr ⟨j, hj, rfl⟩
  have hlaid : Laid 0 (code.map id) := by rw [map_id]; exact h.holds.laid
  have hsame : i = i' := hlaid.eq_of_offset hi hi' (hjoffset.symm.trans hoff'.symm)
  rw [hsame, hsize]

theorem Returns.restored (hs : s.Sound code) (h : s.Returns r code kept) : s.Restored r := by
  refine ⟨h.code_size hs, h.lines, fun n => ?_, h.jumps, h.marked, h.marks, h.waiting⟩
  obtain ⟨f, rfl, hf⟩ := h.code
  rw [byte?_eq, byte?_eq, h.holds.bytes, hs.holds.bytes]
  have hbytes := getElem?_flatMap_bytes hs.holds.laid hf (fun i => hs.operandSize_of_waits) n
  rwa [Nat.zero_add] at hbytes

/-- A label can be marked unless it is foreign or marked already. -/
theorem Sound.mark_fails_iff (h : s.Sound code) (hsmall : s.emitter.offset < 4294967296)
    (l : Label) :
    (∃ err, ((markLabel l).outcome s.emitter).1 = .error err) ↔
      s.emitter.labels.Foreign l ∨ (s.emitter.labels.markOf l.index).isSome := by
  rw [(h.fillable l).markLabel_outcome]
  unfold LabelTable.Foreign LabelTable.state
  by_cases hctx : l.context = s.emitter.labels.context
  · rw [if_neg (by simpa using hctx)]
    cases hst : s.emitter.labels.labels[l.index]? with
    | none =>
      have hsize : s.emitter.labels.labels.size ≤ l.index := by simpa using hst
      simp [hsize]
    | some st =>
      have hsize : ¬ s.emitter.labels.labels.size ≤ l.index := by
        have := (Array.getElem?_eq_some_iff.mp hst).1
        omega
      rw [markOf_of_some hst]
      cases hpos : st.position with
      | none =>
        have hsmall : ¬ 4294967296 ≤ s.emitter.offset := by omega
        simp [hpos, hctx, hsize, hsmall]
      | some p => simp [hpos]
  · rw [if_pos (by simpa using hctx)]
    simp [hctx]

/-- Whatever an emitter was asked for since it was started, with checkpoints that it went back to:
its labels are consistent with its code, a label can be marked unless it is foreign or marked
already, and going back from any later point restores what was there. -/
theorem labels_hold_across_rollback {context : ContextId} {line : Nat}
    (h : Reaches (start context line) s) :
    s.Consistent ∧
      (s.emitter.offset < 4294967296 → ∀ l,
        (∃ err, ((Emitter.markLabel l).outcome s.emitter).1 = .error err) ↔
          s.emitter.labels.Foreign l ∨ (s.emitter.labels.markOf l.index).isSome) ∧
      ∀ t, Reaches s t → Restored s (t.rollback s.emitter.checkpoint) := by
  obtain ⟨code, hs, -⟩ := h.sound (sound_start context line)
  refine ⟨hs.consistent, hs.mark_fails_iff, fun t ht => ?_⟩
  obtain ⟨code', ht, hlater⟩ := ht.sound hs
  obtain ⟨kept, hback⟩ := hlater.rollback hs ht
  exact hback.restored hs

/-- A jump is filled in and waits again. -/
theorem labels_hold_across_rollback_refilled :
    let l : Label := ⟨⟨0⟩, 0⟩
    let s := ((start ⟨0⟩ 1).perform .define).perform (.jump .jump l)
    let t := s.perform (.mark l)
    let r := t.rollback s.emitter.checkpoint
    s.Consistent ∧ s.Restored r ∧ t.emitter.chunk.word32? 1 = some 5 ∧
      t.emitter.labels.markOf 0 = some 5 ∧ r.emitter.labels.markOf 0 = none ∧
      r.emitter.labels.waiting 0 = [1] := by
  intro l s t r
  have hs : Reaches (start ⟨0⟩ 1) s := .perform (.perform .refl trivial) rfl
  have hmain := labels_hold_across_rollback hs
  exact ⟨hmain.1, hmain.2.2 t (.perform .refl trivial), by decide +kernel⟩

end Journal

end StackCode
