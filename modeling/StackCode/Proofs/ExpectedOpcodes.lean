import StackCode.Proofs.Encoding

/-!
# Expected opcodes

A chunk is compared with expected opcodes on what its decoding finds, whatever its bytes are.
`Decodes` says what is found from an offset on, byte by byte. The comparison takes each expected
opcode where it first occurs; it succeeds just when the expected opcodes are a subsequence of those
found.
-/

namespace StackCode.Chunk

open List

variable {c : Chunk} {offset : Nat} {found : List (Nat × Opcode)}

/-- What is found in a chunk from an offset on. Behind an opcode its operand is skipped, even past
the end of the code; a byte that is no opcode is stepped over. -/
inductive Decodes (c : Chunk) : Nat → List (Nat × Opcode) → Prop
  | done {offset : Nat} (h : c.size ≤ offset) : Decodes c offset []
  | op {offset : Nat} {op : Opcode} {found : List (Nat × Opcode)} (h : c.op? offset = some op)
      (rest : Decodes c (offset + 1 + op.operandSize) found) : Decodes c offset
        ((offset, op) :: found)
  | other {offset : Nat} {found : List (Nat × Opcode)} (h : offset < c.size)
    (hop : c.op? offset = none)
      (rest : Decodes c (offset + 1) found) : Decodes c offset found

theorem drop_of_lt (h : offset < c.size) :
    ∃ b, c.code.toList.drop offset = b :: c.code.toList.drop (offset + 1) ∧
    c.op? offset = Opcode.ofByte? b := by
  refine ⟨c.code[offset], drop_eq_getElem_cons (Array.length_toList ▸ h), ?_⟩
  rw [op?, byte?, Array.getElem?_eq_getElem h]
  rfl

variable {op : Opcode}

theorem lt_of_op? (h : c.op? offset = some op) : offset < c.size := by
  by_contra hge
  rw [op?, byte?, Array.getElem?_eq_none (Nat.le_of_not_lt hge)] at h
  cases h

theorem scan_of_op (h : c.op? offset = some op) : scan 0 offset (c.code.toList.drop offset) =
    (offset, op) :: scan 0 (offset + 1 + op.operandSize)
    (c.code.toList.drop (offset + 1 + op.operandSize)) := by
  obtain ⟨b, hdrop, hb⟩ := drop_of_lt (lt_of_op? h)
  rw [hdrop, scan, ← hb, h]
  simp only
  rw [scan_drop, drop_drop]

theorem scan_of_other (hlt : offset < c.size) (h : c.op? offset = none) :
    scan 0 offset (c.code.toList.drop offset) = scan 0 (offset + 1)
      (c.code.toList.drop (offset + 1)) := by
  obtain ⟨b, hdrop, hb⟩ := drop_of_lt hlt
  rw [hdrop, scan, ← hb, h]

theorem Decodes.eq_scan (h : c.Decodes offset found) :
    found = scan 0 offset (c.code.toList.drop offset) := by
  induction h with
  | done h => rw [drop_eq_nil_of_le h, scan]
  | op h rest ih => rw [scan_of_op h, ← ih]
  | other h hop rest ih => rw [scan_of_other h hop, ← ih]

theorem decodes_scan (c : Chunk) (offset : Nat) :
    c.Decodes offset (scan 0 offset (c.code.toList.drop offset)) := by
  -- The induction is on what is left of the code; an operand may reach past its end.
  induction hleft : c.size - offset using Nat.strongRecOn generalizing offset with
  | ind left ih =>
    rcases Nat.lt_or_ge offset c.size with hlt | hge
    · cases hop : c.op? offset with
      | none =>
        rw [scan_of_other hlt hop]
        exact .other hlt hop (ih _ (by omega) _ rfl)
      | some op =>
        rw [scan_of_op hop]
        exact .op hop (ih _ (by omega) _ rfl)
    · rw [drop_eq_nil_of_le hge, scan]
      exact .done hge

/-- An expected opcode may be taken where it first occurs: what follows there holds what follows any
later occurrence. -/
theorem unmatched_eq_nil {actual expected : List Opcode} :
    unmatched actual expected = [] ↔ expected <+ actual := by
  fun_induction unmatched actual expected with
  | case1 expected => exact sublist_nil.symm
  | case2 op actual => simp
  | case3 actual op expected ih => rw [ih, cons_sublist_cons]
  | case4 op actual want expected hne ih =>
    rw [ih, sublist_cons_iff]
    simp [Ne.symm hne]

/-- The comparison with expected opcodes decides the subsequence relation to what is decoded. -/
theorem expected_opcodes_are_a_subsequence (c : Chunk) (expected : List Opcode) :
    (∀ found, c.Decodes 0 found ↔ found = c.instructions) ∧
    c.opcodes = c.instructions.map Prod.snd ∧
      (c.containsInOrder expected = true ↔ expected <+ c.opcodes) := by
  refine ⟨fun found => ⟨Decodes.eq_scan, ?_⟩, rfl, ?_⟩
  · rintro rfl
    exact decodes_scan c 0
  · rw [containsInOrder, List.isEmpty_iff, unmatched_eq_nil]

end StackCode.Chunk
