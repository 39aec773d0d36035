import StackCode.Machine.Step
import Mathlib.Data.List.Forall2

/-!
# Encoding of instructions

An instruction is its opcode byte followed by its operand bytes. Code that is a sequence of encoded
instructions is decoded to exactly that sequence: by the scan of a chunk, and by the machine at the
offset of each instruction.
-/

namespace StackCode

open List Nat Instr Chunk UInt8

variable {i : Instr} {offset : Nat} {code : List Instr}

/-! ### Words and opcodes -/

theorem word16_bytes16 (w : UInt16) : word16 (ofNat (w.toNat / 256)) (ofNat w.toNat) = w := by
  have hw := w.toNat_lt
  apply UInt16.toNat_inj.mp
  simp only [word16, UInt16.toNat_ofNat', toNat_ofNat']
  omega

theorem word32_bytes32 (w : UInt32) : word32 (ofNat (w.toNat / 16777216)) (ofNat (w.toNat / 65536))
      (ofNat (w.toNat / 256)) (ofNat w.toNat) = w := by
  have hw := w.toNat_lt
  apply UInt32.toNat_inj.mp
  simp only [word32, UInt32.toNat_ofNat', toNat_ofNat']
  omega

@[simp] theorem length_bytes16 (w : UInt16) : (bytes16 w).length = 2 := rfl

@[simp] theorem length_bytes32 (w : UInt32) : (bytes32 w).length = 4 := rfl

namespace Opcode

theorem ofByte?_byte (op : Opcode) : ofByte? op.byte = some op := by
  cases op with
  | constant wide => cases wide <;> rfl
  | pushBool value => cases value <;> rfl
  | localSlot wide access => cases wide <;> cases access <;> rfl
  | argument access => cases access <;> rfl
  | field access => cases access <;> rfl
  | staticField access => cases access <;> rfl
  | element access => cases access <;> rfl
  | loadIndirect width => cases width <;> rfl
  | storeIndirect width => cases width <;> rfl
  | arith op => cases op <;> rfl
  | compare op => cases op <;> rfl
  | jumpIf condition => cases condition <;> rfl
  | _ => rfl

theorem operandSize_le (op : Opcode) : op.operandSize ≤ 4 := by
  unfold operandSize
  split <;> (try split) <;> omega

end Opcode

/-! ### Instructions as bytes -/

namespace Instr

/-- The bytes behind the opcode. -/
def operandBytes (i : Instr) : List UInt8 := match i.op.operandSize with
  | 0 => []
  | 1 => [UInt8.ofNat i.operand]
  | 2 => bytes16 (UInt16.ofNat i.operand)
  | 3 => bytes16 (UInt16.ofNat i.operand) ++ [UInt8.ofNat i.argc]
  | _ => bytes32 (UInt32.ofNat i.operand)

/-- The encoding of an instruction. -/
def bytes (i : Instr) : List UInt8 := i.op.byte :: i.operandBytes

/-- Whether operand and argument count can be read back from the encoding. -/
def Fits (i : Instr) : Prop := match i.op.operandSize with
  | 0 => i.operand = 0 ∧ i.argc = 0
  | 1 => i.operand < 256 ∧ i.argc = 0
  | 2 => i.operand < 65536 ∧ i.argc = 0
  | 3 => i.operand < 65536 ∧ i.argc < 256
  | _ => i.operand < 4294967296 ∧ i.argc = 0

theorem length_operandBytes (i : Instr) : i.operandBytes.length = i.op.operandSize := by
  have h := i.op.operandSize_le
  unfold operandBytes
  split <;> simp_all
  omega

theorem length_bytes (i : Instr) : i.bytes.length = 1 + i.op.operandSize := by
  rw [bytes, length_cons, length_operandBytes, Nat.add_comm]

end Instr

namespace Chunk

variable {c : Chunk} {before after : List UInt8}

theorem byte?_eq (c : Chunk) (n : Nat) : c.byte? n = c.code.toList[n]? := by
  simp [byte?]

theorem byte?_append (h : c.code.toList = before ++ after) (n : Nat) :
    c.byte? (before.length + n) = after[n]? := by
  rw [byte?_eq, h, getElem?_append_right (by omega), Nat.add_sub_cancel_left]

theorem word16?_append {w : UInt16} (h : c.code.toList = before ++ (bytes16 w ++ after)) :
    c.word16? before.length = some w := by
  have h0 := byte?_append h 0
  have h1 := byte?_append h 1
  rw [Nat.add_zero] at h0
  rw [word16?, h0, h1]
  exact congrArg some (word16_bytes16 w)

theorem word32?_append {w : UInt32} (h : c.code.toList = before ++ (bytes32 w ++ after)) :
    c.word32? before.length = some w := by
  have h0 := byte?_append h 0
  have h1 := byte?_append h 1
  have h2 := byte?_append h 2
  have h3 := byte?_append h 3
  rw [Nat.add_zero] at h0
  rw [word32?, h0, h1, h2, h3]
  exact congrArg some (word32_bytes32 w)

end Chunk

/-- An encoded instruction is decoded at its offset, whatever stands around it. -/
theorem Method.fetch?_of_bytes {m : Method} (before after : List UInt8)
    (hcode : m.chunk.code.toList = before ++ (i.bytes ++ after)) (hoff : before.length = i.offset)
    (hfits : i.Fits) : m.fetch? i.offset = some i := by
  obtain ⟨offset, op, operand, argc⟩ := i
  subst hoff
  have hop : m.chunk.op? before.length = some op := by
    have h0 := byte?_append hcode 0
    rw [Nat.add_zero] at h0
    simp [op?, h0, bytes, Opcode.ofByte?_byte]
  -- The operand starts one byte behind the opcode.
  have hcode' : m.chunk.code.toList = (before ++ [op.byte]) ++
      (operandBytes ⟨before.length, op, operand, argc⟩ ++ after) := by
    rw [hcode, bytes, append_assoc]
    rfl
  have hlen : (before ++ [op.byte]).length = before.length + 1 := by simp
  have hsize := op.operandSize_le
  unfold Method.fetch?
  simp only [hop, Option.bind_eq_bind, Option.bind_some, operand?]
  have hcases : op.operandSize = 0 ∨ op.operandSize = 1 ∨ op.operandSize = 2 ∨
      op.operandSize = 3 ∨ op.operandSize = 4 := by omega
  rcases hcases with h | h | h | h | h <;> simp only [Instr.Fits, operandBytes, h] at hfits hcode' ⊢
  · obtain ⟨rfl, rfl⟩ := hfits
    rfl
  · have hbyte := byte?_append hcode' 0
    rw [Nat.add_zero, hlen] at hbyte
    obtain ⟨hlt, rfl⟩ := hfits
    simp [hbyte, mod_eq_of_lt hlt]
  · have hword := word16?_append hcode'
    obtain ⟨hlt, rfl⟩ := hfits
    rw [hlen] at hword
    simp [hword, mod_eq_of_lt hlt]
  · rw [append_assoc (bytes16 _)] at hcode'
    have hword := word16?_append hcode'
    have hbyte := byte?_append hcode' 2
    obtain ⟨hlt, hlt'⟩ := hfits
    rw [hlen] at hword hbyte
    rw [Nat.add_assoc] at hbyte
    simp [hword, hbyte, bytes16, mod_eq_of_lt hlt, mod_eq_of_lt hlt']
  · have hword := word32?_append hcode'
    obtain ⟨hlt, rfl⟩ := hfits
    rw [hlen] at hword
    simp [hword, mod_eq_of_lt hlt]

/-! ### Sequences of instructions -/

/-- Instructions that stand one behind the other from an offset on. -/
def Laid : Nat → List Instr → Prop
  | _, [] => True
  | offset, i :: code => i.offset = offset ∧ i.Fits ∧ Laid i.next code

/-- The offset behind instructions that are laid from an offset on. -/
def endOf (offset : Nat) (code : List Instr) : Nat := offset + (code.flatMap Instr.bytes).length

@[simp] theorem endOf_nil (offset : Nat) : endOf offset [] = offset := rfl

theorem endOf_cons (offset : Nat) (i : Instr) (code : List Instr) (h : i.offset = offset) :
    endOf offset (i :: code) = endOf i.next code := by
  simp only [endOf, flatMap_cons, length_append, length_bytes, Instr.next]
  omega

theorem endOf_append (offset : Nat) (code code' : List Instr) :
    endOf offset (code ++ code') = endOf (endOf offset code) code' := by
  simp [endOf, Nat.add_assoc]

theorem laid_append {code' : List Instr} :
    Laid offset (code ++ code') ↔ Laid offset code ∧ Laid (endOf offset code) code' := by
  induction code generalizing offset with
  | nil => simp [Laid]
  | cons i code ih =>
    simp only [cons_append, Laid, ih, and_assoc]
    refine and_congr_right fun h => ?_
    rw [endOf_cons offset i code h]

theorem Laid.offset_mid {rest : List Instr} (h : Laid offset (code ++ i :: rest)) :
    i.offset = endOf offset code ∧ i.Fits := by
  have hmid := (laid_append.mp h).2
  exact ⟨hmid.1, hmid.2.1⟩

/-- The code of a chunk is the encoding of the instructions. -/
structure Chunk.Holds (c : Chunk) (code : List Instr) : Prop where
  laid : Laid 0 code
  bytes : c.code.toList = code.flatMap Instr.bytes

namespace Chunk

theorem scan_drop (skip offset : Nat) (bytes : List UInt8) :
    scan skip offset bytes = scan 0 (offset + skip) (bytes.drop skip) := by
  induction bytes generalizing skip offset with
  | nil => cases skip <;> rfl
  | cons b bytes ih =>
    cases skip with
    | zero => rfl
    | succ skip => rw [scan, ih, drop_succ_cons, Nat.add_right_comm, Nat.add_assoc]

theorem scan_bytes (i : Instr) (bytes : List UInt8) :
    scan 0 i.offset (i.bytes ++ bytes) = (i.offset, i.op) :: scan 0 i.next bytes := by
  rw [Instr.bytes, cons_append, scan, Opcode.ofByte?_byte]
  simp only
  rw [scan_drop, drop_left' i.length_operandBytes]
  rfl

theorem scan_laid (h : Laid offset code) :
    scan 0 offset (code.flatMap bytes) = code.map fun i => (i.offset, i.op) := by
  induction code generalizing offset with
  | nil => rfl
  | cons i code ih =>
    obtain ⟨rfl, -, hrest⟩ := h
    rw [flatMap_cons, scan_bytes, ih hrest, map_cons]

namespace Holds

variable {c : Chunk} {code : List Instr}

theorem size (h : c.Holds code) : c.size = endOf 0 code := by
  rw [Chunk.size, ← Array.length_toList, h.bytes, endOf, Nat.zero_add]

theorem instructions (h : c.Holds code) : c.instructions = code.map fun i => (i.offset, i.op) := by
  rw [Chunk.instructions, h.bytes, scan_laid h.laid]

theorem fetch {m : Method} (h : m.chunk.Holds code) (hi : i ∈ code) :
    m.fetch? i.offset = some i := by
  obtain ⟨before, after, rfl⟩ := append_of_mem hi
  obtain ⟨hoff, hfits⟩ := h.laid.offset_mid
  refine Method.fetch?_of_bytes (before.flatMap Instr.bytes) (after.flatMap Instr.bytes) ?_ ?_ hfits
  · rw [h.bytes, flatMap_append, flatMap_cons]
  · rw [hoff, endOf, Nat.zero_add]

end Holds

end Chunk

end StackCode
