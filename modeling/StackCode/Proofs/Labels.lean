import StackCode.Proofs.Emission

/-!
# Jumps and labels

The code of a body is a listing: commands, each with the instruction that stands for it. It is built
segment by segment, and labels are marked between segments only. A jump whose label is marked holds
the offset of the mark; a jump whose label is not marked yet is one of the label's fix-ups, and
there are no other fix-ups.
-/

namespace StackCode

open Instr LabelTable List UInt32

variable {i : Instr} {fixups : List Nat} {target : UInt32} {segs : List Listing} {l : Label}
  {xs : List Command} {f : Instr → Instr} {n index : Nat} {t : LabelTable} {s : LabelState}
  {seg : Listing} {op : Opcode}

/-- Commands with the instructions that stand for them. -/
abbrev Listing := List (Command × Instr)

namespace Listing

/-- The instructions of a listing. -/
def code (l : Listing) : List Instr := l.map Prod.snd

/-- The commands of a listing. -/
def commands (l : Listing) : List Command := l.map Prod.fst

@[simp] theorem code_append (l l' : Listing) : code (l ++ l') = l.code ++ l'.code := map_append

@[simp] theorem commands_append (l l' : Listing) : commands (l ++ l') = l.commands ++ l'.commands :=
  map_append

theorem mem_code {l : Listing} (h : i ∈ l.code) : ∃ x, (x, i) ∈ l := by
  obtain ⟨⟨x, j⟩, hy, rfl⟩ := mem_map.mp h
  exact ⟨x, hy⟩

/-- Commands and the instructions of their encoding make a listing. -/
theorem exists_of_encoded {p : Pool} {code : List Instr} (h : Forall₂ (Command.Encoded p) xs code) :
    ∃ l : Listing, l.commands = xs ∧ l.code = code ∧ ∀ y ∈ l, y.1.Encoded p y.2 := by
  induction h with
  | nil => exact ⟨[], rfl, rfl, by simp⟩
  | @cons x i xs code hx _ ih =>
    obtain ⟨l, hcmds, hcode, henc⟩ := ih
    refine ⟨(x, i) :: l, ?_, ?_, ?_⟩
    · rw [← hcmds]
      rfl
    · rw [← hcode]
      rfl
    · rintro y (_ | ⟨_, hy⟩)
      · exact hx
      · exact henc y hy

theorem endOf_code {k : Pool} {l : Listing} (h : ∀ y ∈ l, y.1.Encoded k y.2) :
    endOf 0 l.code = codeSize l.commands := by
  rw [endOf, Nat.zero_add]
  refine length_bytes_of_encoded (p := k) ?_
  induction l with
  | nil => exact .nil
  | cons y l ih =>
    obtain ⟨hy, hl⟩ := forall_mem_cons.mp h
    exact .cons hy (ih hl)

theorem commands_flatten (segs : List Listing) :
    commands segs.flatten = (segs.map commands).flatten := by
  rw [commands, map_flatten]
  rfl

/-- The offset behind some of the segments of a listing. -/
def cut (segs : List Listing) (k : Nat) : Nat := endOf 0 (code (segs.take k).flatten)

end Listing

namespace LabelState

/-- A jump to a label either holds its position or waits for it. -/
def Aims (s : LabelState) (i : Instr) : Prop := match s.position with
  | some p => i.operand = p.toNat
  | none => i.offset + 1 ∈ s.fixups

end LabelState

/-- The code of an emitter is a listing in segments, and its labels fit the listing. -/
structure Emitter.Linked (e : Emitter) (segs : List Listing) : Prop where
  holds : e.chunk.Holds (Listing.code segs.flatten)
  encoded : ∀ y ∈ segs.flatten, y.1.Encoded e.constants y.2
  jumps : ∀ y ∈ segs.flatten, ∀ l, y.1.operand = .label l → ∃ s, e.labels.labels[l]? = some s ∧
    s.Aims y.2
  fixups : ∀ l s, e.labels.labels[l]? = some s → ∀ f ∈ s.fixups,
    ∃ y ∈ segs.flatten, y.1.operand = .label l ∧ f = y.2.offset + 1
  marks : ∀ (l : Nat) (s : LabelState) (p : UInt32), e.labels.labels[l]? = some s →
    s.position = some p →
    ∃ k ≤ segs.length, p.toNat = Listing.cut segs k

/-! ### Filling in the targets of jumps -/

namespace Instr

/-- The jump with another target. -/
def aimAt (i : Instr) (target : UInt32) : Instr := { i with operand := target.toNat }

theorem bytes_jump (h : i.op.operandSize = 4) :
    i.bytes = i.op.byte :: bytes32 (ofNat i.operand) := by
  simp [bytes, operandBytes, h]

theorem Fits.aimAt (hsize : i.op.operandSize = 4) (h : i.Fits) (target : UInt32) :
    (i.aimAt target).Fits := by
  have htgt := target.toNat_lt
  simp only [Fits, Instr.aimAt, hsize] at h ⊢
  exact ⟨htgt, h.2⟩

end Instr

/-- The instruction as it is after the jumps at the given fix-ups were given a target. -/
def Instr.patched (fixups : List Nat) (target : UInt32) (i : Instr) : Instr :=
  if i.offset + 1 ∈ fixups then i.aimAt target else i

namespace Instr

@[simp] theorem patched_offset : (i.patched fixups target).offset = i.offset := by
  unfold patched
  split <;> rfl

@[simp] theorem patched_op : (i.patched fixups target).op = i.op := by
  unfold patched
  split <;> rfl

theorem patched_patched {f : Nat} (i : Instr) :
    (i.patched [f] target).patched fixups target = i.patched (f :: fixups) target := by
  by_cases hf : i.offset + 1 = f
  · have honce : i.patched [f] target = i.aimAt target := if_pos (by simp [hf])
    have hboth : i.patched (f :: fixups) target = i.aimAt target := if_pos (by simp [hf])
    rw [honce, hboth]
    unfold patched
    split <;> rfl
  · have honce : i.patched [f] target = i := if_neg (by simpa using hf)
    rw [honce]
    simp [patched, hf]

@[simp] theorem patched_next : (i.patched fixups target).next = i.next := by
  simp [next]

end Instr

theorem Laid.map (hoff : ∀ i, (f i).offset = i.offset) (hnext : ∀ i, (f i).next = i.next)
    {code : List Instr} (hfits : ∀ i ∈ code, i.Fits → (f i).Fits) (h : Laid n code) :
    Laid n (code.map f) := by
  induction code generalizing n with
  | nil => trivial
  | cons i code ih =>
    refine ⟨(hoff i).trans h.1, hfits i (mem_cons_self ..) h.2.1, ?_⟩
    rw [hnext]
    exact ih (fun j hj => hfits j (mem_cons_of_mem _ hj)) h.2.2

theorem endOf_map (hop : ∀ i, (f i).op = i.op) (n : Nat) (code : List Instr) :
    endOf n (code.map f) = endOf n code := by
  unfold endOf
  congr 1
  induction code with
  | nil => rfl
  | cons i code ih => simp [length_bytes, hop, ih]

theorem Laid.le_offset {code : List Instr} (h : Laid n code) (hi : i ∈ code) : n ≤ i.offset := by
  induction code generalizing n with
  | nil => cases hi
  | cons j code ih =>
    have hj := h.1
    rcases mem_cons.mp hi with rfl | hi
    · exact hj.ge
    · have := ih h.2.2 hi
      unfold Instr.next at this
      omega

theorem Laid.offset_lt_endOf {code : List Instr} (h : Laid n code) (hi : i ∈ code) :
    i.offset + i.bytes.length ≤ endOf n code := by
  obtain ⟨before, after, rfl⟩ := append_of_mem hi
  rw [h.offset_mid.1]
  simp only [endOf, flatMap_append, flatMap_cons, length_append]
  omega

/-- Instructions that stand one behind the other have different offsets. -/
theorem Laid.eq_of_offset {α : Type} {f : α → Instr} {l : List α} (h : Laid n (l.map f)) {y z : α}
    (hy : y ∈ l) (hz : z ∈ l) (heq : (f y).offset = (f z).offset) : y = z := by
  induction l generalizing n with
  | nil => cases hy
  | cons x l ih =>
    have hbehind : ∀ w ∈ l, (f x).offset < (f w).offset := fun w hw => by
      have hle := h.2.2.le_offset (mem_map_of_mem hw)
      unfold Instr.next at hle
      omega
    rcases mem_cons.mp hy with hyx | hyx <;> rcases mem_cons.mp hz with hzx | hzx
    · rw [hyx, hzx]
    · have := hbehind z hzx
      rw [hyx] at heq
      omega
    · have := hbehind y hyx
      rw [hzx] at heq
      omega
    · exact ih h.2.2 hyx hzx

namespace Chunk

variable {c : Chunk} {code : List Instr}

theorem patch32?_bytes {before after : List UInt8} {old : UInt32} (new : UInt32)
    (h : c.code.toList = before ++ (bytes32 old ++ after)) :
    ∃ c', c.patch32? before.length new = some c' ∧
      c'.code.toList = before ++ (bytes32 new ++ after) ∧ c'.lines = c.lines := by
  have hsize : before.length + 4 ≤ c.size := by
    rw [size, ← Array.length_toList, h]
    simp
  rw [patch32?, if_pos hsize]
  refine ⟨_, rfl, ?_, rfl⟩
  simp [h, bytes32]

/-- The bytes up to the operand of a jump, and those from there on. -/
theorem Holds.code_mid {before after : List Instr} (h : c.Holds (before ++ i :: after))
    (hsize : i.op.operandSize = 4) :
    (before.flatMap Instr.bytes ++ [i.op.byte]).length = i.offset + 1 ∧
      c.code.toList = (before.flatMap Instr.bytes ++ [i.op.byte]) ++
        (bytes32 (ofNat i.operand) ++ after.flatMap Instr.bytes) := by
  constructor
  · rw [h.laid.offset_mid.1, endOf, Nat.zero_add, length_append, length_singleton]
  · rw [h.bytes, flatMap_append, flatMap_cons, bytes_jump hsize]
    simp

/-- Overwriting the operand of a jump changes that jump only. -/
theorem Holds.patch (h : c.Holds code) (hi : i ∈ code) (hsize : i.op.operandSize = 4)
    (target : UInt32) :
    ∃ c', c.patch32? (i.offset + 1) target = some c' ∧ c'.lines = c.lines ∧
      c'.Holds (code.map (Instr.patched [i.offset + 1] target)) := by
  obtain ⟨before, after, rfl⟩ := append_of_mem hi
  have hmid := h.laid.offset_mid
  have hlaid := laid_append.mp h.laid
  have hbefore : before.map (Instr.patched [i.offset + 1] target) = before := by
    conv_rhs => rw [← map_id before]
    refine map_congr_left fun j hj => ?_
    have hlt := hlaid.1.offset_lt_endOf hj
    have hpos := j.length_bytes
    rw [Instr.patched, if_neg (by simp; omega), id]
  have hafter : after.map (Instr.patched [i.offset + 1] target) = after := by
    conv_rhs => rw [← map_id after]
    refine map_congr_left fun j hj => ?_
    have hle := hlaid.2.2.2.le_offset hj
    unfold Instr.next at hle
    rw [Instr.patched, if_neg (by simp; omega), id]
  have hself : i.patched [i.offset + 1] target = i.aimAt target := by
    rw [Instr.patched, if_pos (by simp)]
  obtain ⟨hlen, hcode⟩ := h.code_mid hsize
  obtain ⟨c', hpatch, hcode', hlines⟩ := patch32?_bytes target hcode
  rw [hlen] at hpatch
  refine ⟨c', hpatch, hlines, ?_, ?_⟩
  · refine h.laid.map (fun _ => patched_offset) (fun _ => patched_next) ?_
    intro j hmem hfits
    unfold Instr.patched
    split
    · rename_i hj
      have hlaid : Laid 0 ((before ++ i :: after).map id) := by rw [map_id]; exact h.laid
      have hji : j = i := hlaid.eq_of_offset hmem hi (by simpa using hj)
      exact hfits.aimAt (hji ▸ hsize) target
    · exact hfits
  · rw [hcode', map_append, map_cons, hbefore, hafter, hself, flatMap_append,
      flatMap_cons, bytes_jump (i := i.aimAt target) hsize]
    simp [Instr.aimAt]

theorem Holds.patchAll (h : c.Holds code) (target : UInt32)
    (hfixups : ∀ f ∈ fixups, ∃ i ∈ code, i.op.operandSize = 4 ∧ f = i.offset + 1) :
    ∃ c', LabelTable.patchAll target fixups c = (.ok (), c') ∧ c'.lines = c.lines ∧
      c'.Holds (code.map (Instr.patched fixups target)) := by
  induction fixups generalizing c code with
  | nil =>
    refine ⟨c, rfl, rfl, ?_⟩
    have hid : code.map (Instr.patched [] target) = code := by
      conv_rhs => rw [← map_id code]
      rfl
    rwa [hid]
  | cons f fixups ih =>
    obtain ⟨i, hi, hsize, rfl⟩ := hfixups f (mem_cons_self ..)
    obtain ⟨c₁, hpatch, hlines, hholds⟩ := h.patch hi hsize target
    obtain ⟨c₂, hall, hlines', hholds'⟩ := ih hholds fun f hf => by
      obtain ⟨j, hj, hjsize, rfl⟩ := hfixups f (mem_cons_of_mem _ hf)
      exact ⟨_, mem_map_of_mem hj, by rwa [patched_op], by rw [patched_offset]⟩
    refine ⟨c₂, ?_, hlines'.trans hlines, ?_⟩
    · rwa [LabelTable.patchAll, hpatch]
    · rw [map_map] at hholds'
      have htwice : Instr.patched fixups target ∘ Instr.patched [i.offset + 1] target =
          Instr.patched ((i.offset + 1) :: fixups) target := funext fun j => j.patched_patched
      rwa [htwice] at hholds'

end Chunk

/-! ### Labels fit the code -/

namespace Listing

theorem cut_append {k : Nat} (hk : k ≤ segs.length) (more : List Listing) :
    cut (segs ++ more) k = cut segs k := by
  rw [cut, cut, take_append_of_le_length hk]

theorem cut_length (segs : List Listing) : cut segs segs.length = endOf 0 (code segs.flatten) := by
  rw [cut, take_length]

theorem cut_le (segs : List Listing) (k : Nat) : cut segs k ≤ cut segs segs.length := by
  rw [cut_length, cut]
  conv_rhs => rw [← take_append_drop k segs, flatten_append, code_append, endOf_append]
  exact Nat.le_add_right _ _

/-- A listing with jumps patched. -/
def patched (fixups : List Nat) (target : UInt32) (l : Listing) : Listing :=
  l.map fun y => (y.1, y.2.patched fixups target)

theorem code_patched (l : Listing) :
    code (l.patched fixups target) = l.code.map (Instr.patched fixups target) := by
  simp [code, patched]

theorem commands_patched (l : Listing) : commands (l.patched fixups target) = l.commands := by
  simp [commands, patched]

theorem flatten_patched (segs : List Listing) :
    (segs.map (patched fixups target)).flatten = patched fixups target segs.flatten := by
  unfold patched
  rw [map_flatten]

theorem cut_patched (segs : List Listing) (k : Nat) :
    cut (segs.map (patched fixups target)) k = cut segs k := by
  rw [cut, ← map_take, flatten_patched, code_patched, endOf_map fun _ => patched_op]
  rfl

end Listing

namespace LabelTable

theorem state_ok (h : t.state l = .ok s) : l.context = t.context ∧ t.labels[l.index]? = some s := by
  unfold state at h
  split at h
  · cases h
  · rename_i hctx
    refine ⟨by simpa using hctx, ?_⟩
    split at h
    · rename_i hs
      cases h
      exact hs
    · cases h

/-- The table with another state of a label. -/
def set (t : LabelTable) (index : Nat) (s : LabelState) : LabelTable :=
  { t with labels := t.labels.setIfInBounds index s }

theorem labels_set (s' : LabelState) (hs : t.labels[index]? = some s) (l : Nat) :
    (t.set index s').labels[l]? = if l = index then some s' else t.labels[l]? := by
  have hlt := (Array.getElem?_eq_some_iff.mp hs).1
  rw [set, Array.getElem?_setIfInBounds]
  by_cases hl : index = l
  · subst hl
    simp [hlt]
  · rw [if_neg hl, if_neg (Ne.symm hl)]

/-- The table after a jump to a label that is not marked. -/
def wait (t : LabelTable) (index : Nat) (s : LabelState) (f : Nat) : LabelTable :=
  t.set index { s with fixups := s.fixups ++ [f] }

end LabelTable

namespace Emitter

variable {e e' e₁ : Emitter}

theorem Linked.size (h : e.Linked segs) : e.offset = Listing.cut segs segs.length := by
  rw [Listing.cut_length]
  exact h.holds.size

theorem Linked.jump_size (h : e.Linked segs) {y : Command × Instr} (hy : y ∈ segs.flatten) {l : Nat}
    (hl : y.1.operand = .label l) : y.2.op.operandSize = 4 := by
  obtain ⟨hop, hsort, -⟩ := h.encoded y hy
  rw [hl] at hsort
  rw [hop]
  exact Opcode.operandSize_of_sort_label hsort

theorem Linked.fixupsBelow (h : e.Linked segs) : e.labels.FixupsBelow e.chunk.size := by
  intro s hs f hf
  obtain ⟨l, hl⟩ := Array.getElem?_of_mem hs
  obtain ⟨y, hy, hlabel, rfl⟩ := h.fixups l s hl f hf
  have hend := h.holds.laid.offset_lt_endOf (mem_map_of_mem (f := Prod.snd) hy)
  rw [length_bytes, h.jump_size hy hlabel] at hend
  rw [h.holds.size]
  omega

theorem linked_start (context : ContextId) (line : Nat) : (start context line).Linked [] where
  holds := ⟨trivial, rfl⟩
  encoded := by simp
  jumps := by simp
  fixups := by simp [start, LabelTable.empty]
  marks := by simp [start, LabelTable.empty]

theorem Linked.congr (h : e.Linked segs) (hchunk : e'.chunk.code = e.chunk.code)
    (hpool : e.constants.Extends e'.constants)
    (hlabels : e'.labels = e.labels) : e'.Linked segs where
  holds := ⟨h.holds.laid, by rw [hchunk]; exact h.holds.bytes⟩
  encoded y hy := (h.encoded y hy).mono hpool
  jumps := by rw [hlabels]; exact h.jumps
  fixups := by rw [hlabels]; exact h.fixups
  marks := by rw [hlabels]; exact h.marks

theorem Linked.define (h : e.Linked segs) : Linked { e with labels := e.labels.define.2 } segs where
  holds := h.holds
  encoded := h.encoded
  jumps y hy l hl := by
    obtain ⟨s, hs, haims⟩ := h.jumps y hy l hl
    have hlt := (Array.getElem?_eq_some_iff.mp hs).1
    refine ⟨s, ?_, haims⟩
    simp only [LabelTable.define, Array.getElem?_push, if_neg (Nat.ne_of_lt hlt)]
    exact hs
  fixups l s hs f hf := by
    simp only [LabelTable.define, Array.getElem?_push] at hs
    split at hs
    · cases hs
      cases hf
    · exact h.fixups l s hs f hf
  marks l s p hs hp := by
    simp only [LabelTable.define, Array.getElem?_push] at hs
    split at hs
    · cases hs
      cases hp
    · exact h.marks l s p hs hp

/-- What a segment of code does to the labels: its jumps become fix-ups of labels without mark. -/
structure Gains (t t' : LabelTable) (seg : Listing) : Prop where
  kept : ∀ (l : Nat) (s : LabelState), t.labels[l]? = some s →
    ∃ s', t'.labels[l]? = some s' ∧ s'.position = s.position ∧ s.fixups ⊆ s'.fixups
  gained : ∀ (l : Nat) (s' : LabelState), t'.labels[l]? = some s' →
    ∃ s, t.labels[l]? = some s ∧ s'.position = s.position ∧
      ∀ f ∈ s'.fixups, f ∈ s.fixups ∨ ∃ y ∈ seg, y.1.operand = .label l ∧ f = y.2.offset + 1

theorem Gains.refl (t : LabelTable) (seg : Listing) : Gains t t seg where
  kept _ s hs := ⟨s, hs, rfl, fun _ hf => hf⟩
  gained _ s hs := ⟨s, hs, rfl, fun _ hf => .inl hf⟩

theorem Linked.snoc (h : e.Linked segs) (hlaid : Laid e.offset seg.code)
    (hchunk : e'.chunk = e.chunk.writeBytes (seg.code.flatMap Instr.bytes) e.line)
    (hpool : e.constants.Extends e'.constants) (henc : ∀ y ∈ seg, y.1.Encoded e'.constants y.2)
    (hgains : Gains e.labels e'.labels seg)
    (hjumps : ∀ y ∈ seg, ∀ l, y.1.operand = .label l → ∃ s, e'.labels.labels[l]? = some s ∧
      s.Aims y.2) :
    e'.Linked (segs ++ [seg]) := by
  have hflatten : (segs ++ [seg]).flatten = segs.flatten ++ seg := by simp
  constructor
  · rw [hflatten, Listing.code_append]
    exact hchunk ▸ h.holds.writeBytes hlaid _
  · rw [hflatten]
    intro y hy
    rcases mem_append.mp hy with hy | hy
    · exact (h.encoded y hy).mono hpool
    · exact henc y hy
  · rw [hflatten]
    intro y hy l hl
    rcases mem_append.mp hy with hy | hy
    · obtain ⟨s, hs, haims⟩ := h.jumps y hy l hl
      obtain ⟨s', hs', hpos, hfixups⟩ := hgains.kept l s hs
      refine ⟨s', hs', ?_⟩
      unfold LabelState.Aims at haims ⊢
      rw [hpos]
      split at haims
      · exact haims
      · exact hfixups haims
    · exact hjumps y hy l hl
  · rw [hflatten]
    intro l s' hs' f hf
    obtain ⟨s, hs, -, hfrom⟩ := hgains.gained l s' hs'
    rcases hfrom f hf with hf | ⟨y, hy, hyl, rfl⟩
    · obtain ⟨y, hy, hyl, rfl⟩ := h.fixups l s hs f hf
      exact ⟨y, mem_append_left _ hy, hyl, rfl⟩
    · exact ⟨y, mem_append_right _ hy, hyl, rfl⟩
  · intro l s' p hs' hp
    obtain ⟨s, hs, hpos, -⟩ := hgains.gained l s' hs'
    obtain ⟨k, hk, hcut⟩ := h.marks l s p hs (hpos ▸ hp)
    refine ⟨k, by simp; omega, ?_⟩
    rw [Listing.cut_append hk, hcut]

/-- Commands without jumps are one more segment. -/
theorem Linked.append (h : e.Linked segs) (happends : e.Appends e' xs)
    (hxs : ∀ x ∈ xs, x.operand.sort ≠ .label) :
    ∃ seg : Listing, seg.commands = xs ∧ e'.Linked (segs ++ [seg]) := by
  obtain ⟨code, hlaid, hchunk, henc⟩ := happends.commands
  obtain ⟨seg, hcmds, rfl, hlines⟩ := Listing.exists_of_encoded henc
  refine ⟨seg, hcmds, h.snoc hlaid hchunk happends.grows.constants hlines ?_ ?_⟩
  · rw [happends.grows.labels]
    exact .refl _ _
  · intro y hy l hl
    have hx : y.1 ∈ xs := hcmds ▸ mem_map_of_mem hy
    exact absurd (by rw [hl]; rfl) (hxs y.1 hx)

/-! ### Jumping and marking -/

/-- What a jump does: it is refused, or a jump instruction is appended and, for a label without
mark, noted. -/
theorem emitJump_outcome (op : Opcode) (hop : op.operandSize = 4) (l : Label) (e : Emitter) :
    (∃ err, e.labels.state l = .error err ∧ (emitJump op l).outcome e = (.error err, e)) ∨
    ∃ (s : LabelState) (i : Instr) (t : LabelTable), e.labels.state l = .ok s ∧
      i.offset = e.offset ∧ i.op = op ∧ i.Fits ∧
      (emitJump op l).outcome e =
        (.ok (), { e with chunk := e.chunk.writeBytes i.bytes e.line, labels := t }) ∧
      ((∃ p, s.position = some p ∧ i.operand = p.toNat ∧ t = e.labels) ∨
        (s.position = none ∧ t = e.labels.wait l.index s (e.offset + 1))) := by
  cases hs : e.labels.state l with
  | error err =>
    refine .inl ⟨err, rfl, ?_⟩
    show ((e.labels.jump op l e.chunk e.line).1, _) = _
    rw [LabelTable.jump, hs]
  | ok s =>
    refine .inr ?_
    obtain ⟨_ | p, fixups⟩ := s
    · refine ⟨_, ⟨e.offset, op, Chunk.unpatched.toNat, 0⟩, _, rfl, rfl, rfl, ?_, ?_,
        .inr ⟨rfl, rfl⟩⟩
      · simp only [Instr.Fits, hop]
        decide
      · show ((e.labels.jump op l e.chunk e.line).1, _) = _
        rw [LabelTable.jump, hs, bytes_jump hop]
        rfl
    · refine ⟨_, ⟨e.offset, op, p.toNat, 0⟩, e.labels, rfl, rfl, rfl, ?_, ?_,
        .inl ⟨p, rfl, rfl, rfl⟩⟩
      · simp only [Instr.Fits, hop]
        exact ⟨p.toNat_lt, trivial⟩
      · show ((e.labels.jump op l e.chunk e.line).1, _) = _
        rw [LabelTable.jump, hs, bytes_jump hop, UInt32.ofNat_toNat]
        rfl

theorem emitJump_ok (hop : op.sort = .label) (h : (emitJump op l).outcome e = (.ok (), e')) :
    ∃ (i : Instr) (t : LabelTable),
      e' = { e with chunk := e.chunk.writeBytes i.bytes e.line, labels := t } ∧
      t.context = e.labels.context := by
  rcases emitJump_outcome op (Opcode.operandSize_of_sort_label hop) l e with
    ⟨err, -, herr⟩ | ⟨s, i, t, -, -, -, -, hok, ht⟩
  · rw [h] at herr
    cases herr
  · rw [h] at hok
    cases hok
    refine ⟨i, t, rfl, ?_⟩
    rcases ht with ⟨p, -, -, rfl⟩ | ⟨-, rfl⟩ <;> rfl

theorem gains_wait {f : Nat} (hs : t.labels[index]? = some s)
    (hf : ∃ y ∈ seg, y.1.operand = .label index ∧ f = y.2.offset + 1) :
    Gains t (t.wait index s f) seg := by
  have hget := labels_set { s with fixups := s.fixups ++ [f] } hs
  unfold LabelTable.wait
  constructor
  · intro l s₀ hs₀
    rw [hget]
    by_cases hl : l = index
    · subst hl
      rw [hs] at hs₀
      cases hs₀
      exact ⟨_, if_pos rfl, rfl, subset_append_left _ _⟩
    · exact ⟨s₀, by rw [if_neg hl]; exact hs₀, rfl, fun _ h => h⟩
  · intro l s' hs'
    rw [hget] at hs'
    by_cases hl : l = index
    · subst hl
      rw [if_pos rfl] at hs'
      cases hs'
      refine ⟨s, hs, rfl, fun g hg => ?_⟩
      rcases mem_append.mp hg with hg | hg
      · exact .inl hg
      · rw [mem_singleton.mp hg]
        exact .inr hf
    · rw [if_neg hl] at hs'
      exact ⟨s', hs', rfl, fun _ hg => .inl hg⟩

/-- Commands and a jump behind them are one more segment. -/
theorem Linked.jump (h : e.Linked segs) (happends : e.Appends e₁ xs)
    (hxs : ∀ x ∈ xs, x.operand.sort ≠ .label) (hop : op.sort = .label)
    (hjump : (emitJump op l).outcome e₁ = (.ok (), e')) :
    ∃ seg : Listing, seg.commands = xs ++ [⟨op, .label l.index⟩] ∧ e'.Linked (segs ++ [seg]) := by
  have hsize := Opcode.operandSize_of_sort_label hop
  obtain ⟨code, hlaid, hchunk, henc⟩ := happends.commands
  obtain ⟨seg, hcmds, rfl, hlines⟩ := Listing.exists_of_encoded henc
  rcases emitJump_outcome op hsize l e₁ with
    ⟨err, -, herr⟩ | ⟨s, i, t, hs, hoff, hiop, hfits, hok, ht⟩
  · rw [hjump] at herr
    cases herr
  rw [hjump] at hok
  cases hok
  obtain ⟨-, hstate⟩ := state_ok hs
  rw [happends.grows.labels] at hstate ht
  have hend : endOf e.offset seg.code = e₁.offset := by
    rw [endOf, length_bytes_of_encoded henc, happends.offset]
  refine ⟨seg ++ [(⟨op, .label l.index⟩, i)], ?_, ?_⟩
  · rw [Listing.commands_append, hcmds]
    rfl
  have hcode : Listing.code (seg ++ [(⟨op, .label l.index⟩, i)]) = seg.code ++ [i] := by
    simp [Listing.code]
  have hlast : ((⟨op, .label l.index⟩, i) : Command × Instr) ∈ seg ++
    [(⟨op, .label l.index⟩, i)] := by
    simp
  refine h.snoc ?_ ?_ happends.grows.constants ?_ ?_ ?_
  · rw [hcode, laid_append, hend]
    exact ⟨hlaid, hoff, hfits, trivial⟩
  · rw [hcode]
    simp only [hchunk, happends.grows.line, Chunk.writeBytes_append, flatMap_append,
      flatMap_singleton]
  · intro y hy
    rcases mem_append.mp hy with hy | hy
    · exact hlines y hy
    · rw [mem_singleton.mp hy]
      exact ⟨hiop, hop, trivial⟩
  · rcases ht with ⟨p, -, -, rfl⟩ | ⟨-, rfl⟩
    · exact .refl _ _
    · exact gains_wait hstate ⟨_, hlast, rfl, by rw [hoff]⟩
  · intro y hy k hk
    rcases mem_append.mp hy with hy | hy
    · have hx : y.1 ∈ xs := hcmds ▸ mem_map_of_mem hy
      exact absurd (by rw [hk]; rfl) (hxs y.1 hx)
    · rw [mem_singleton.mp hy] at hk ⊢
      cases hk
      rcases ht with ⟨p, hp, htgt, rfl⟩ | ⟨hp, rfl⟩
      · refine ⟨s, hstate, ?_⟩
        rwa [LabelState.Aims, hp]
      · refine ⟨{ s with fixups := s.fixups ++ [e₁.offset + 1] }, ?_, ?_⟩
        · rw [LabelTable.wait, labels_set _ hstate, if_pos rfl]
        · simp [LabelState.Aims, hp, hoff]

/-- The emitter with a label marked at the end of the code. -/
def withMark (e : Emitter) (index : Nat) (s : LabelState) : Emitter := { e with
    chunk := (LabelTable.patchAll (UInt32.ofNat e.offset) s.fixups e.chunk).2
    labels := { e.labels.set index { s with position := some (UInt32.ofNat e.offset) } with
      marked := index :: e.labels.marked } }

theorem Linked.patchAll (h : e.Linked segs) (hs : e.labels.labels[index]? = some s)
    (target : UInt32) :
    ∃ c, LabelTable.patchAll target s.fixups e.chunk = (.ok (), c) ∧ c.lines = e.chunk.lines ∧
      c.Holds (Listing.code (segs.map (Listing.patched s.fixups target)).flatten) := by
  rw [Listing.flatten_patched, Listing.code_patched]
  refine h.holds.patchAll target fun f hf => ?_
  obtain ⟨y, hy, hyl, rfl⟩ := h.fixups index s hs f hf
  exact ⟨y.2, mem_map_of_mem hy, h.jump_size hy hyl, rfl⟩

/-- The jumps that wait for a label can be filled in. -/
def Fillable (e : Emitter) (l : Label) : Prop := ∀ s, e.labels.labels[l.index]? = some s →
  ∃ c, LabelTable.patchAll (ofNat e.offset) s.fixups e.chunk = (.ok (), c)

/-- Marking is refused, or the label is marked, if the jumps that wait for it can be filled in. -/
theorem Fillable.markLabel_outcome (hfill : e.Fillable l) :
    (markLabel l).outcome e = match e.labels.state l with
      | .error err => (.error err, e)
      | .ok s =>
        if s.position.isSome then (.error (.labelMisuse (.markedTwice l.index)), e)
        else if 4294967296 ≤ e.offset then (.error (.invalidOperand (.jumpTarget e.offset)), e)
        else (.ok (), e.withMark l.index s) := by
  show ((e.labels.mark l e.chunk).1, _) = _
  rw [LabelTable.mark]
  cases hs : e.labels.state l with
  | error err => rfl
  | ok s =>
    obtain ⟨c, hpatch⟩ := hfill s (state_ok hs).2
    by_cases hmark : s.position.isSome
    · simp only [if_pos hmark]
    by_cases hlarge : 4294967296 ≤ e.offset
    · have hlarge' : 4294967296 ≤ e.chunk.size := hlarge
      simp only [if_neg hmark, if_pos hlarge, if_pos hlarge']
      rfl
    · have hlarge' : ¬ 4294967296 ≤ e.chunk.size := hlarge
      simp only [if_neg hmark, if_neg hlarge, if_neg hlarge', withMark]
      unfold Emitter.offset at hpatch ⊢
      rw [hpatch]
      rfl

/-- In code with labels that fit it, jumps can always be filled in. -/
theorem Linked.fillable (h : e.Linked segs) (l : Label) : e.Fillable l := by
  intro s hs
  obtain ⟨c, hpatch, -⟩ := h.patchAll hs (ofNat e.offset)
  exact ⟨c, hpatch⟩

/-- A label may be marked at the end of the code: the jumps that wait for it are filled in. -/
theorem Linked.withMark (h : e.Linked segs) (hs : e.labels.labels[index]? = some s)
    (hpos : s.position = none) (hsmall : e.offset < 4294967296) :
    (e.withMark index s).Linked (segs.map (Listing.patched s.fixups (ofNat e.offset))) := by
  obtain ⟨c, hpatch, -, hholds⟩ := h.patchAll hs (ofNat e.offset)
  have hget := labels_set { s with position := some (ofNat e.offset) } hs
  -- Only jumps to this label are changed.
  have hsame : ∀ y ∈ segs.flatten, y.2.offset + 1 ∈ s.fixups → y.1.operand = .label index := by
    intro y hy hmem
    obtain ⟨z, hz, hzl, heq⟩ := h.fixups index s hs _ hmem
    have hyz : y = z := h.holds.laid.eq_of_offset hy hz (by omega)
    rwa [hyz]
  constructor
  · rwa [Emitter.withMark, hpatch]
  · rw [Listing.flatten_patched]
    intro y' hy'
    obtain ⟨y, hy, rfl⟩ := mem_map.mp hy'
    obtain ⟨hop, hsort, hmeans⟩ := h.encoded y hy
    refine ⟨by simpa using hop, hsort, ?_⟩
    by_cases hmem : y.2.offset + 1 ∈ s.fixups
    · simp only [hsame y hy hmem]
      trivial
    · simp only [Instr.patched, if_neg hmem]
      exact hmeans
  · rw [Listing.flatten_patched]
    intro y' hy' l hl
    obtain ⟨y, hy, rfl⟩ := mem_map.mp hy'
    obtain ⟨s', hs', haims⟩ := h.jumps y hy l hl
    show ∃ s, (LabelTable.set _ _ _).labels[l]? = some s ∧ _
    rw [hget]
    by_cases hlabel : l = index
    · subst hlabel
      rw [hs] at hs'
      cases hs'
      rw [LabelState.Aims, hpos] at haims
      refine ⟨_, if_pos rfl, ?_⟩
      simp only [LabelState.Aims, Instr.patched, if_pos haims, Instr.aimAt]
    · rw [if_neg hlabel]
      refine ⟨s', hs', ?_⟩
      have hmem : y.2.offset + 1 ∉ s.fixups := fun hmem => by
        have := (hsame y hy hmem).symm.trans hl
        cases this
        exact hlabel rfl
      simpa only [Instr.patched, if_neg hmem] using haims
  · rw [Listing.flatten_patched]
    intro l s' hs' f hf
    have hfixups : ∃ s₀, e.labels.labels[l]? = some s₀ ∧ f ∈ s₀.fixups := by
      change (LabelTable.set _ _ _).labels[l]? = some s' at hs'
      rw [hget] at hs'
      split at hs'
      · rename_i hlabel
        cases hs'
        exact ⟨s, hlabel ▸ hs, hf⟩
      · exact ⟨s', hs', hf⟩
    obtain ⟨s₀, hs₀, hf⟩ := hfixups
    obtain ⟨y, hy, hyl, rfl⟩ := h.fixups l s₀ hs₀ f hf
    exact ⟨_, mem_map_of_mem hy, hyl, by simp⟩
  · intro l s' p hs' hp
    change (LabelTable.set _ _ _).labels[l]? = some s' at hs'
    rw [hget] at hs'
    split at hs'
    · cases hs'
      cases hp
      refine ⟨segs.length, by simp, ?_⟩
      rw [Listing.cut_patched, ← h.size, toNat_ofNat']
      exact Nat.mod_eq_of_lt hsmall
    · obtain ⟨k, hk, hcut⟩ := h.marks l s' p hs' hp
      exact ⟨k, by simpa using hk, by rw [Listing.cut_patched, hcut]⟩

end Emitter

end StackCode
