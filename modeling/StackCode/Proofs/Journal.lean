import Mathlib.Data.List.Nodup
import StackCode.Proofs.WellFormed

/-!
# Journals of an emitter

An emitter can be asked for instructions, labels, marks and jumps in any order, and some of this it
refuses. A journal keeps, beside the emitter, which label each jump in the code was written for. In
a sound journal a jump to a marked label holds its position and a jump to an unmarked one is
recorded.
-/

namespace StackCode

open LabelTable List Instr UInt32

variable {index : Nat} {e : Emitter} {i : Instr} {code : List Instr}

/-- A jump in the code: where it stands, and the label that it was written for. -/
structure Jump where
  offset : Nat
  label : Nat
  deriving DecidableEq, Repr

/-- The jump that an action appends to the code of an emitter. -/
def Emitter.Action.jumps (e : Emitter) : Action → List Jump
  | .jump op l => if ((emitJump op l).outcome e).1.toBool then [⟨e.offset, l.index⟩] else []
  | _ => []

/-- The instruction that an action appends to the code, as it was asked for. -/
def Emitter.accepted (e : Emitter) (a : Action) : List Action :=
  if (a.instr? 0 0).isSome ∧ (a.emitting.outcome e).1.toBool then [a] else []

/-- An emitter, with the jumps in its code. -/
structure Journal where
  emitter : Emitter
  jumps : List Jump

namespace LabelTable

/-- Where a label is marked, by its number. -/
def markOf (t : LabelTable) (l : Nat) : Option UInt32 := t.labels[l]? >>= LabelState.position

/-- The operands of the jumps that are recorded for a label, by its number. -/
def waiting (t : LabelTable) (l : Nat) : List Nat := (t.labels[l]?.map LabelState.fixups).getD []

/-- The label is none of the labels of this table. -/
def Foreign (t : LabelTable) (l : Label) : Prop := l.context ≠ t.context ∨ t.labels.size ≤ l.index

end LabelTable

namespace Journal

/-- The code without instructions. -/
def start (context : ContextId) (line : Nat) : Journal := ⟨.start context line, []⟩

/-- What an action makes of a journal, whether or not it succeeds. -/
def perform (s : Journal) (a : Emitter.Action) : Journal :=
  ⟨(a.emitting.outcome s.emitter).2, s.jumps ++ a.jumps s.emitter⟩

/-- An instruction in the code is the one that was asked for: it refers to its constant by the place
that this has in the pool, and it is kept if it is a jump. -/
def Recorded (s : Journal) (a : Emitter.Action) (i : Instr) : Prop :=
  ∃ k, a.instr? i.offset k = some i ∧ (∀ c ∈ a.constant?, s.emitter.constants.Has c k) ∧
    ∀ op l, a = .jump op l → ⟨i.offset, l.index⟩ ∈ s.jumps

/-- What an action appends: the instruction asked for if it is accepted, at the current line. -/
structure Gains (s : Journal) (a : Emitter.Action) (more : List Instr) : Prop where
  recorded : s.emitter.constants.Valid →
    List.Forall₂ (s.perform a).Recorded (s.emitter.accepted a) more
  lines : (s.perform a).emitter.chunk.lines.toList =
    s.emitter.chunk.lines.toList ++ List.replicate (more.flatMap Instr.bytes).length s.emitter.line

/-- Going back takes jumps away together with the code. -/
def rollback (s : Journal) (k : Checkpoint) : Journal :=
  ⟨s.emitter.rollback k, s.jumps.filter fun j => decide (j.offset < k.offset)⟩

/-- The journals that actions lead to, where what follows a checkpoint may be taken back as a
whole. -/
inductive Reaches : Journal → Journal → Prop
  | refl {s} : Reaches s s
  | perform {s t a} (h : Reaches s t) (ha : a.WellFormed) : Reaches s (t.perform a)
  | rollback {s t u} (h : Reaches s t) (h' : Reaches t u) : Reaches s
    (u.rollback t.emitter.checkpoint)

end Journal

/-! ### Views of a table of labels -/

theorem Opcode.isJump_iff {op : Opcode} : op.isJump ↔ op.operandSize = 4 := by
  cases op with
  | constant wide => cases wide <;> simp [isJump, operandSize]
  | localSlot wide a => cases wide <;> simp [isJump, operandSize]
  | _ => simp [isJump, operandSize]

namespace LabelTable

variable {t : LabelTable} {s : LabelState}

theorem markOf_of_some (hs : t.labels[index]? = some s) : t.markOf index = s.position := by
  simp [markOf, hs]

theorem waiting_of_some (hs : t.labels[index]? = some s) : t.waiting index = s.fixups := by
  simp [waiting, hs]

@[simp] theorem waiting_empty (context : ContextId) (l : Nat) : (empty context).waiting l = [] := by
  simp [waiting, empty]

theorem markOf_define (t : LabelTable) (l : Nat) : t.define.2.markOf l = t.markOf l := by
  by_cases hl : l = t.labels.size
  · subst hl
    simp [markOf, define]
  · simp [markOf, define, Array.getElem?_push, hl]

theorem waiting_define (t : LabelTable) (l : Nat) : t.define.2.waiting l = t.waiting l := by
  by_cases hl : l = t.labels.size
  · subst hl
    simp [waiting, define]
  · simp [waiting, define, Array.getElem?_push, hl]

theorem markOf_set (hs : t.labels[index]? = some s) (s' : LabelState) (l : Nat) :
    (t.set index s').markOf l = if l = index then s'.position else t.markOf l := by
  rw [markOf, labels_set s' hs]
  split <;> simp [markOf]

theorem waiting_set (hs : t.labels[index]? = some s) (s' : LabelState) (l : Nat) :
    (t.set index s').waiting l = if l = index then s'.fixups else t.waiting l := by
  rw [waiting, labels_set s' hs]
  split <;> simp [waiting]

/-! ### Taking marks back -/

theorem getElem?_unmark (labels : Array LabelState) (index l : Nat) : (unmark labels index)[l]? =
      labels[l]?.map fun s => if l = index then { s with position := none } else s := by
  unfold unmark
  rw [Array.getElem?_modify]
  by_cases hl : index = l
  · simp [hl]
  · simp [hl, Ne.symm hl]

theorem getElem?_unmarkAll (marks : List Nat) (labels : Array LabelState) (l : Nat) :
    (marks.foldl unmark labels)[l]? =
      labels[l]?.map fun s => if l ∈ marks then { s with position := none } else s := by
  induction marks generalizing labels with
  | nil => simp
  | cons index marks ih =>
    rw [foldl_cons, ih, getElem?_unmark, Option.map_map]
    congr 1
    funext s
    by_cases hl : l = index <;> by_cases hmem : l ∈ marks <;> simp [hl, hmem]

variable {newer : List Nat} {n : Nat} {old : List Nat}

section

variable (h : t.marked = newer ++ old)
include h

theorem getElem?_rollback (l : Nat) :
    (t.rollback n old.length).labels[l]? = t.labels[l]?.map fun s =>
      ⟨if l ∈ newer then none else s.position, s.fixups.filter fun f => decide (f < n)⟩ := by
  have htake : t.marked.take (t.marked.length - old.length) = newer := by simp [h]
  simp only [rollback, htake, Array.getElem?_map, getElem?_unmarkAll, Option.map_map]
  congr 1
  funext s
  by_cases hmem : l ∈ newer <;> simp [hmem]

theorem markOf_rollback (l : Nat) :
    (t.rollback n old.length).markOf l = if l ∈ newer then none else t.markOf l := by
  rw [markOf, getElem?_rollback h, markOf]
  cases t.labels[l]? <;> simp

theorem waiting_rollback (l : Nat) :
    (t.rollback n old.length).waiting l = (t.waiting l).filter fun f => decide (f < n) := by
  rw [waiting, getElem?_rollback h, waiting]
  cases t.labels[l]? <;> simp

theorem marked_rollback : (t.rollback n old.length).marked = old := by
  simp [rollback, h]

end

theorem size_rollback (t : LabelTable) (n k : Nat) :
    (t.rollback n k).labels.size = t.labels.size := by
  have hsize : ∀ (marks : List Nat) (labels : Array LabelState),
      (marks.foldl unmark labels).size = labels.size := by
    intro marks
    induction marks with
    | nil => exact fun _ => rfl
    | cons index marks ih =>
      intro labels
      rw [foldl_cons, ih]
      simp [unmark]
  simp [rollback, hsize]

end LabelTable

/-! ### What an action does -/

namespace Emitter

/-- Instructions are appended, none of them a jump, and labels are left alone. -/
structure Writes (e e' : Emitter) (code : List Instr) : Prop where
  laid : Laid e.offset code
  straight : ∀ i ∈ code, i.op.operandSize ≠ 4
  chunk : e'.chunk = e.chunk.writeBytes (code.flatMap Instr.bytes) e.line
  labels : e'.labels = e.labels

variable {e' : Emitter}

theorem writes_nothing (hchunk : e'.chunk = e.chunk) (hlabels : e'.labels = e.labels) :
    e.Writes e' [] :=
  ⟨trivial, by simp, by simpa [Chunk.writeBytes] using hchunk, hlabels⟩

namespace Action

variable {a : Action}

theorem operandSize_instr? (ha : a.WellFormed) (hstraight : a.Straight) {offset k : Nat}
    (hi : a.instr? offset k = some i) : i.op.operandSize ≠ 4 := by
  cases a with
  | line | define | mark | jump => exact hstraight.elim
  | literal l =>
    have hconst : (Opcode.constant (decide (256 ≤ k))).operandSize ≠ 4 := by
      cases decide (256 ≤ k) <;> simp [Opcode.operandSize]
    cases l with
    | null | bool =>
      cases hi
      simp [Opcode.operandSize]
    | int | float | str =>
      cases hi
      exact hconst
  | slot narrow wide n =>
    cases hi
    by_cases hn : n.toNat < 256
    · simp [hn, ha.1]
    · simp [hn, ha.2]
  | plain op | byte op | word op | hash op | call op =>
    have hop : op.operandSize = _ := ha
    cases hi
    simp [hop]

theorem jumps_of_straight (hstraight : a.Straight) (e : Emitter) : a.jumps e = [] := by
  cases a with
  | jump => exact hstraight.elim
  | _ => rfl

theorem isSome_instr? (hstraight : a.Straight) (offset k : Nat) : (a.instr? offset k).isSome := by
  cases a with
  | line | define | mark | jump => exact hstraight.elim
  | literal l => cases l <;> rfl
  | plain | byte | word | hash | call | slot => rfl

/-- Instructions other than jumps are written if their operands fit. -/
theorem writes_emitting (ha : a.WellFormed) (hstraight : a.Straight) (e : Emitter) :
    ∃ i code, a.instr? e.offset (a.place e) = some i ∧ e.Writes (a.emitting.outcome e).2 code ∧
      (a.emitting.outcome e).2.constants = (a.provide e).constants ∧
      (i.Fits ∧ (a.emitting.outcome e).1 = .ok () ∧ code = [i] ∨
        ¬ i.Fits ∧ (∃ err, (a.emitting.outcome e).1 = .error err) ∧ code = []) := by
  obtain ⟨hchunk, hlabels, hline⟩ := a.provide_eq e
  obtain ⟨i, hi, ⟨hfits, hout⟩ | ⟨hfits, err, hout⟩⟩ :=
    outcome_emitting ha hstraight e <;> rw [hout]
  · refine ⟨i, [i], hi, ⟨⟨offset_instr? hi, hfits, trivial⟩, ?_, ?_, hlabels⟩, rfl,
      .inl ⟨hfits, rfl, rfl⟩⟩
    · simpa using operandSize_instr? ha hstraight hi
    · simp [write, hchunk, hline]
  · exact ⟨i, [], hi, writes_nothing hchunk hlabels, rfl, .inr ⟨hfits, ⟨err, rfl⟩, rfl⟩⟩

end Action

end Emitter

theorem Chunk.Holds.word32? {c : Chunk} (h : c.Holds code) (hi : i ∈ code)
    (hsize : i.op.operandSize = 4) :
    c.word32? (i.offset + 1) = some (ofNat i.operand) := by
  obtain ⟨before, after, rfl⟩ := append_of_mem hi
  obtain ⟨hlen, hcode⟩ := h.code_mid hsize
  rw [← hlen]
  exact Chunk.word32?_append hcode

namespace Journal

/-! ### Sound journals -/

/-- What holds of every journal: its code consists of instructions, its jumps are the jumps in the
code, and they fit the labels. -/
structure Sound (s : Journal) (code : List Instr) : Prop where
  holds : s.emitter.chunk.Holds code
  lines : s.emitter.chunk.lines.size = s.emitter.chunk.code.size
  /-- Every jump in the code is kept, and nothing else is. -/
  jumps : ∀ n, (∃ i ∈ code, i.offset = n ∧ i.op.operandSize = 4) ↔ ∃ j ∈ s.jumps, j.offset = n
  unique : ∀ j ∈ s.jumps, ∀ j' ∈ s.jumps, j.offset = j'.offset → j = j'
  /-- A jump to a marked label holds the position. -/
  settled : ∀ j ∈ s.jumps, ∀ p, s.emitter.labels.markOf j.label = some p →
    ∀ i ∈ code, i.offset = j.offset → i.operand = p.toNat
  /-- A jump to an unmarked label is recorded. -/
  pending : ∀ j ∈ s.jumps, s.emitter.labels.markOf j.label = none →
    j.offset + 1 ∈ s.emitter.labels.waiting j.label
  recorded : ∀ l, ∀ f ∈ s.emitter.labels.waiting l, ∃ j ∈ s.jumps, j.label = l ∧ f = j.offset + 1
  once : ∀ l, (s.emitter.labels.waiting l).Nodup

variable {s t u : Journal} {code' code'' : List Instr}

theorem sound_start (context : ContextId) (line : Nat) : (start context line).Sound [] where
  holds := ⟨trivial, rfl⟩
  lines := rfl
  jumps := by simp [start]
  unique := by simp [start]
  settled := by simp [start]
  pending := by simp [start]
  recorded := by simp [start, Emitter.start]
  once := by simp [start, Emitter.start]

namespace Sound

section

variable (h : s.Sound code)
include h

theorem size : s.emitter.offset = endOf 0 code := h.holds.size

theorem jump_lt {j : Jump} (hj : j ∈ s.jumps) : j.offset + 5 ≤ s.emitter.offset := by
  obtain ⟨i, hi, hoff, hsize⟩ := (h.jumps j.offset).mpr ⟨j, hj, rfl⟩
  have hend := h.holds.laid.offset_lt_endOf hi
  rw [length_bytes, hsize, hoff] at hend
  rw [h.size]
  omega

theorem writes {more : List Instr} (hw : s.emitter.Writes e more) :
    Sound ⟨e, s.jumps⟩ (code ++ more) where
  holds := hw.chunk ▸ h.holds.writeBytes hw.laid _
  lines := hw.chunk ▸ Chunk.size_lines_writeBytes h.lines _ _
  jumps n := by
    rw [← h.jumps n]
    constructor
    · rintro ⟨i, hi, hoff, hsize⟩
      rcases mem_append.mp hi with hi | hi
      · exact ⟨i, hi, hoff, hsize⟩
      · exact absurd hsize (hw.straight i hi)
    · rintro ⟨i, hi, hrest⟩
      exact ⟨i, mem_append_left _ hi, hrest⟩
  unique := h.unique
  settled j hj p hp i hi hoff := by
    rw [hw.labels] at hp
    rcases mem_append.mp hi with hi | hi
    · exact h.settled j hj p hp i hi hoff
    · have hle := hw.laid.le_offset hi
      have hlt := h.jump_lt hj
      omega
  pending := by rw [hw.labels]; exact h.pending
  recorded := by rw [hw.labels]; exact h.recorded
  once := by rw [hw.labels]; exact h.once

/-- Other labels with the same marks and records, and perhaps another line. -/
theorem congr (hchunk : e.chunk = s.emitter.chunk)
    (hmarks : ∀ l, e.labels.markOf l = s.emitter.labels.markOf l)
    (hwait : ∀ l, e.labels.waiting l = s.emitter.labels.waiting l) : Sound ⟨e, s.jumps⟩ code where
  holds := by rw [hchunk]; exact h.holds
  lines := by rw [hchunk]; exact h.lines
  jumps := h.jumps
  unique := h.unique
  settled j hj p hp := h.settled j hj p (by rw [← hmarks]; exact hp)
  pending j hj hnone := by
    rw [hwait]
    exact h.pending j hj (by rw [← hmarks]; exact hnone)
  recorded l f hf := h.recorded l f (by rw [← hwait]; exact hf)
  once l := by rw [hwait]; exact h.once l

theorem jump {l : Nat} (hoff : i.offset = s.emitter.offset) (hfits : i.Fits)
    (hsize : i.op.operandSize = 4) (hchunk : e.chunk =
      s.emitter.chunk.writeBytes i.bytes s.emitter.line)
    (hmarks : ∀ k, e.labels.markOf k = s.emitter.labels.markOf k)
    (haims : ∀ p, s.emitter.labels.markOf l = some p → i.operand = p.toNat)
    (hwait : ∀ k, e.labels.waiting k = if k = l ∧ s.emitter.labels.markOf l = none
      then s.emitter.labels.waiting k ++ [s.emitter.offset + 1] else s.emitter.labels.waiting k) :
    Sound ⟨e, s.jumps ++ [⟨s.emitter.offset, l⟩]⟩ (code ++ [i]) where
  holds := by
    have hlaid : Laid s.emitter.chunk.size [i] := ⟨hoff, hfits, trivial⟩
    have hholds := h.holds.writeBytes hlaid s.emitter.line
    rw [flatMap_singleton] at hholds
    rwa [hchunk]
  lines := hchunk ▸ Chunk.size_lines_writeBytes h.lines _ _
  jumps n := by
    have hold := h.jumps n
    constructor
    · rintro ⟨k, hk, hn, hjump⟩
      rcases mem_append.mp hk with hk | hk
      · obtain ⟨j, hj, hjn⟩ := hold.mp ⟨k, hk, hn, hjump⟩
        exact ⟨j, mem_append_left _ hj, hjn⟩
      · rw [mem_singleton.mp hk, hoff] at hn
        exact ⟨⟨s.emitter.offset, l⟩, by simp, hn⟩
    · rintro ⟨j, hj, hjn⟩
      rcases mem_append.mp hj with hj | hj
      · obtain ⟨k, hk, hrest⟩ := hold.mpr ⟨j, hj, hjn⟩
        exact ⟨k, mem_append_left _ hk, hrest⟩
      · rw [mem_singleton.mp hj] at hjn
        exact ⟨i, by simp, hoff.trans hjn, hsize⟩
  unique j hj j' hj' heq := by
    -- The new jump stands behind all the others.
    rcases mem_append.mp hj with hj | hj <;> rcases mem_append.mp hj' with hj' | hj'
    · exact h.unique j hj j' hj' heq
    · have hlt := h.jump_lt hj
      rw [heq, mem_singleton.mp hj'] at hlt
      simp only at hlt
      omega
    · have hlt := h.jump_lt hj'
      rw [← heq, mem_singleton.mp hj] at hlt
      simp only at hlt
      omega
    · rw [mem_singleton.mp hj, mem_singleton.mp hj']
  settled j hj p hp k hk hkj := by
    rw [hmarks] at hp
    rcases mem_append.mp hj with hj | hj <;> rcases mem_append.mp hk with hk | hk
    · exact h.settled j hj p hp k hk hkj
    · have hlt := h.jump_lt hj
      rw [mem_singleton.mp hk, hoff] at hkj
      omega
    · have hend := h.holds.laid.offset_lt_endOf hk
      rw [length_bytes, ← h.size] at hend
      rw [mem_singleton.mp hj] at hkj
      simp only at hkj
      omega
    · rw [mem_singleton.mp hk]
      rw [mem_singleton.mp hj] at hp
      exact haims p hp
  pending j hj hnone := by
    rw [hmarks] at hnone
    rw [hwait]
    rcases mem_append.mp hj with hj | hj
    · have hmem := h.pending j hj hnone
      split
      · exact mem_append_left _ hmem
      · exact hmem
    · rw [mem_singleton.mp hj] at hnone ⊢
      simp [hnone]
  recorded k f hf := by
    rw [hwait] at hf
    have hold : f ∈ s.emitter.labels.waiting k → ∃ j ∈ s.jumps ++ [⟨s.emitter.offset, l⟩],
        j.label = k ∧ f = j.offset + 1 := by
      intro hf
      obtain ⟨j, hj, hrest⟩ := h.recorded k f hf
      exact ⟨j, mem_append_left _ hj, hrest⟩
    split at hf
    · rename_i hk
      rcases mem_append.mp hf with hf | hf
      · exact hold hf
      · exact ⟨⟨s.emitter.offset, l⟩, by simp, hk.1.symm, mem_singleton.mp hf⟩
    · exact hold hf
  once k := by
    rw [hwait]
    split
    · refine Nodup.append (h.once k) (nodup_singleton _) fun f hf hf' => ?_
      obtain ⟨j, hj, -, rfl⟩ := h.recorded k f hf
      have hlt := h.jump_lt hj
      have heq := mem_singleton.mp hf'
      omega
    · exact h.once k

/-- The jumps that wait for a label can be filled in. -/
theorem patchAll (l : Nat) (target : UInt32) :
    ∃ c, LabelTable.patchAll target (s.emitter.labels.waiting l) s.emitter.chunk = (.ok (), c) ∧
      c.lines = s.emitter.chunk.lines ∧ c.Holds
        (code.map (patched (s.emitter.labels.waiting l) target)) := by
  refine h.holds.patchAll target fun f hf => ?_
  obtain ⟨j, hj, -, rfl⟩ := h.recorded l f hf
  obtain ⟨i, hi, hoff, hsize⟩ := (h.jumps j.offset).mpr ⟨j, hj, rfl⟩
  exact ⟨i, hi, hsize, by rw [hoff]⟩

theorem fillable (l : Label) : s.emitter.Fillable l := by
  intro st hst
  obtain ⟨c, hpatch, -⟩ := h.patchAll l.index (ofNat s.emitter.offset)
  rw [waiting_of_some hst] at hpatch
  exact ⟨c, hpatch⟩

/-- A label is marked, and the jumps that wait for it are filled in. -/
theorem withMark {st : LabelState} (hst : s.emitter.labels.labels[index]? = some st)
    (hpos : st.position = none) :
    Sound ⟨s.emitter.withMark index st, s.jumps⟩
      (code.map (patched st.fixups (ofNat s.emitter.offset))) := by
  have hwait := waiting_of_some hst
  have hmark := markOf_of_some hst
  obtain ⟨c, hpatch, hlines, hholds⟩ := h.patchAll index (ofNat s.emitter.offset)
  rw [hwait] at hpatch hholds
  have hchunk : (s.emitter.withMark index st).chunk = c := by rw [Emitter.withMark, hpatch]
  have hmarks : ∀ l, (s.emitter.withMark index st).labels.markOf l =
      if l = index then some (ofNat s.emitter.offset) else s.emitter.labels.markOf l :=
    markOf_set hst _
  have hwaits : ∀ l, (s.emitter.withMark index st).labels.waiting l =
    s.emitter.labels.waiting l := by
    intro l
    refine (waiting_set hst _ l).trans ?_
    split
    · rename_i hl
      rw [hl, hwait]
    · rfl
  constructor
  · rwa [← hchunk] at hholds
  · rw [hchunk, hlines, h.lines]
    have hsize := hholds.size
    rw [endOf_map fun _ => patched_op, ← h.holds.size] at hsize
    exact hsize.symm
  · intro n
    rw [← h.jumps n]
    constructor
    · rintro ⟨i', hi', hoff, hsize⟩
      obtain ⟨i, hi, rfl⟩ := mem_map.mp hi'
      exact ⟨i, hi, by simpa using hoff, by simpa using hsize⟩
    · rintro ⟨i, hi, hoff, hsize⟩
      exact ⟨_, mem_map_of_mem hi, by simpa using hoff, by simpa using hsize⟩
  · exact h.unique
  · intro j hj p hp i' hi' hoff
    obtain ⟨i, hi, rfl⟩ := mem_map.mp hi'
    rw [patched_offset] at hoff
    rw [hmarks] at hp
    by_cases hl : j.label = index
    · -- All jumps to this label were waiting for it.
      rw [if_pos hl] at hp
      cases hp
      have hmem := h.pending j hj (by rw [hl, hmark, hpos])
      rw [hl, hwait, ← hoff] at hmem
      rw [patched, if_pos hmem]
      rfl
    · rw [if_neg hl] at hp
      have hmem : i.offset + 1 ∉ st.fixups := by
        intro hmem
        rw [← hwait] at hmem
        obtain ⟨j', hj', hlabel, heq⟩ := h.recorded index _ hmem
        have hsame := h.unique j hj j' hj' (by omega)
        exact hl (hsame ▸ hlabel)
      rw [patched, if_neg hmem]
      exact h.settled j hj p hp i hi hoff
  · intro j hj hnone
    rw [hmarks] at hnone
    split at hnone
    · cases hnone
    · rw [hwaits]
      exact h.pending j hj hnone
  · intro l f hf
    rw [hwaits] at hf
    exact h.recorded l f hf
  · intro l
    rw [hwaits]
    exact h.once l

end

end Sound

end Journal

end StackCode
