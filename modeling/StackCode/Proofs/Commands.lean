import StackCode.Proofs.Encoding
import StackCode.Proofs.Outcome
import StackCode.Proofs.Pool

/-!
# Commands

A command is an instruction as the emitter is asked for it: its operand is a literal, a hash, a slot
or a label, and not yet a number. Emitting commands appends their encodings; the constants that they
need are in the pool afterwards and stay where they are.
-/

namespace StackCode

open List Instr

variable {p : Pool} {i : Instr} {op : Opcode} {e : Emitter} {xs : List Command}
  {C : List Command → Prop}
  {x : Command} {code : List Instr}

/-- The sorts of operands. -/
inductive OperandSort
  | none
  | literal
  | hash
  | call
  | slot
  | label
  deriving DecidableEq, Repr

/-- The sort of operand that an opcode takes. -/
def Opcode.sort : Opcode → OperandSort
  | .constant _ => .literal
  | .localSlot _ _ | .argument _ | .loadCaptured | .capturedAddress => .slot
  | .field _ | .staticField _ | .newArray | .loadObject | .storeObject | .copyObject | .box
  | .unbox | .cast => .hash
  | .new | .call | .callMethod => .call
  | .jump | .jumpIf _ => .label
  | _ => .none

/-- What the operand of an instruction stands for. -/
inductive Operand
  | none
  | literal (value : Literal)
  | hash (value : TypeHash)
  | call (function : TypeHash) (argc : Nat)
  | slot (number : UInt16)
  | label (index : Nat)

/-- How an operand is encoded. -/
def Operand.sort : Operand → OperandSort
  | .none => .none
  | .literal _ => .literal
  | .hash _ => .hash
  | .call _ _ => .call
  | .slot _ => .slot
  | .label _ => .label

/-- What an instruction refers to, in a pool. Where a jump goes is up to the labels. -/
def Operand.Means (p : Pool) (i : Instr) : Operand → Prop
  | .none => True
  | .literal l => p.literal? i.operand = some l
  | .hash h => p.typeHash? i.operand = some h
  | .call f argc => p.typeHash? i.operand = some f ∧ i.argc = argc
  | .slot n => i.operand = n.toNat
  | .label _ => True

theorem Operand.Means.mono {q : Pool} (h : p.Extends q) {x : Operand} (hx : x.Means p i) :
    x.Means q i := by
  cases x with
  | literal l => exact h.literal? hx
  | hash t => exact h.typeHash? hx
  | call f argc => exact ⟨h.typeHash? hx.1, hx.2⟩
  | _ => exact hx

/-- An instruction as it is asked for. -/
structure Command where
  op : Opcode
  operand : Operand

namespace Command

/-- An instruction without operand. -/
def plain (op : Opcode) : Command := ⟨op, .none⟩

/-- The access to a local slot, in the narrow form if the slot number has one byte. -/
def onLocal (a : Access) (slot : UInt16) : Command :=
  ⟨.localSlot (decide (256 ≤ slot.toNat)) a, .slot slot⟩

/-- The number of bytes that a command takes. -/
def size (x : Command) : Nat := 1 + x.op.operandSize

/-- An instruction stands for a command. -/
def Encoded (p : Pool) (x : Command) (i : Instr) : Prop :=
  i.op = x.op ∧ x.op.sort = x.operand.sort ∧ x.operand.Means p i

theorem Encoded.mono {q : Pool} (h : p.Extends q) (hx : x.Encoded p i) : x.Encoded q i :=
  ⟨hx.1, hx.2.1, hx.2.2.mono h⟩

theorem Encoded.size (h : x.Encoded p i) : i.bytes.length = x.size := by
  rw [length_bytes, h.1, Command.size]

end Command

/-- The number of bytes that commands take. -/
def codeSize : List Command → Nat
  | [] => 0
  | x :: xs => x.size + codeSize xs

theorem codeSize_append (xs ys : List Command) :
    codeSize (xs ++ ys) = codeSize xs + codeSize ys := by
  induction xs with
  | nil => simp [codeSize]
  | cons x xs ih => rw [cons_append, codeSize, ih, codeSize, Nat.add_assoc]

theorem length_bytes_of_encoded (h : Forall₂ (Command.Encoded p) xs code) :
    (code.flatMap bytes).length = codeSize xs := by
  induction h with
  | nil => rfl
  | cons hx _ ih => rw [flatMap_cons, length_append, hx.size, ih, codeSize]

/-! ### Writing bytes -/

namespace Chunk

theorem writeBytes_append (c : Chunk) (bytes more : List UInt8) (line : Nat) :
    (c.writeBytes bytes line).writeBytes more line = c.writeBytes (bytes ++ more) line := by
  simp [writeBytes]

theorem code_writeBytes (c : Chunk) (bytes : List UInt8) (line : Nat) :
    (c.writeBytes bytes line).code.toList = c.code.toList ++ bytes := by
  induction bytes generalizing c with
  | nil => simp [writeBytes]
  | cons b bytes ih =>
    show ((c.writeByte b line).writeBytes bytes line).code.toList = _
    rw [ih]
    simp [writeByte]

theorem lines_writeBytes (c : Chunk) (bytes : List UInt8) (line : Nat) :
    (c.writeBytes bytes line).lines.toList = c.lines.toList ++
      List.replicate bytes.length line := by
  induction bytes generalizing c with
  | nil => simp [writeBytes]
  | cons b bytes ih =>
    show ((c.writeByte b line).writeBytes bytes line).lines.toList = _
    rw [ih]
    simp [writeByte, replicate_succ]

theorem size_lines_writeBytes {c : Chunk} (h : c.lines.size = c.code.size) (bytes : List UInt8)
    (line : Nat) : (c.writeBytes bytes line).lines.size = (c.writeBytes bytes line).code.size := by
  rw [← Array.length_toList, ← Array.length_toList, code_writeBytes, lines_writeBytes]
  simp [h]

theorem Holds.writeBytes {c : Chunk} {more : List Instr} (h : c.Holds code)
    (hmore : Laid c.size more)
    (line : Nat) :
    (c.writeBytes (more.flatMap Instr.bytes) line).Holds (code ++ more) where
  laid := laid_append.mpr ⟨h.laid, h.size ▸ hmore⟩
  bytes := by rw [code_writeBytes, h.bytes, flatMap_append]

theorem size_writeBytes (c : Chunk) (bytes : List UInt8) (line : Nat) :
    (c.writeBytes bytes line).size = c.size + bytes.length := by
  rw [size, size, ← Array.length_toList, code_writeBytes, length_append, Array.length_toList]

theorem take_of_toList_eq {α : Type} {longer shorter : Array α} {more : List α}
    (h : longer.toList = shorter.toList ++ more) : longer.take shorter.size = shorter := by
  apply Array.ext'
  rw [Array.take_eq_extract, Array.toList_extract, h]
  simp [extract_eq_take_drop]

theorem truncate_writeBytes (c : Chunk) (bytes : List UInt8) (line : Nat)
    (h : c.lines.size = c.code.size) : (c.writeBytes bytes line).truncate c.size = c := by
  have hcode := take_of_toList_eq (c.code_writeBytes bytes line)
  have hlines := take_of_toList_eq (c.lines_writeBytes bytes line)
  rw [h] at hlines
  rw [truncate, size, hcode, hlines]

end Chunk

namespace Emitter

/-- Append bytes at the current line. -/
def write (e : Emitter) (bytes : List UInt8) : Emitter :=
  { e with chunk := e.chunk.writeBytes bytes e.line }

/-- What an operation does to an emitter, whether it succeeds or fails, if it leaves the labels
alone: bytes of the current line and constants are added. -/
structure Grows (e e' : Emitter) : Prop where
  chunk : ∃ bytes, e'.chunk = e.chunk.writeBytes bytes e.line
  constants : e.constants.Extends e'.constants
  valid : e.constants.Valid → e'.constants.Valid
  labels : e'.labels = e.labels
  line : e'.line = e.line

/-- What an operation does to an emitter that emits commands. -/
structure Appends (e e' : Emitter) (xs : List Command) : Prop where
  grows : e.Grows e'
  commands : ∃ code, Laid e.offset code ∧ e'.chunk = e.chunk.writeBytes (code.flatMap Instr.bytes)
    e.line ∧
    List.Forall₂ (Command.Encoded e'.constants) xs code

variable {e' e'' : Emitter} {ys : List Command}

theorem Grows.refl (e : Emitter) : e.Grows e where
  chunk := ⟨[], rfl⟩
  constants := .refl _
  valid := id
  labels := rfl
  line := rfl

theorem Grows.trans (h : e.Grows e') (h' : e'.Grows e'') : e.Grows e'' where
  chunk := by
    obtain ⟨bytes, hbytes⟩ := h.chunk
    obtain ⟨more, hmore⟩ := h'.chunk
    exact ⟨bytes ++ more, by rw [hmore, h.line, hbytes, Chunk.writeBytes_append]⟩
  constants := h.constants.trans h'.constants
  valid := h'.valid ∘ h.valid
  labels := h'.labels.trans h.labels
  line := h'.line.trans h.line

theorem Appends.nil (e : Emitter) : e.Appends e [] where
  grows := .refl e
  commands := ⟨[], trivial, rfl, .nil⟩

theorem Appends.offset (h : e.Appends e' xs) : e'.offset = e.offset + codeSize xs := by
  obtain ⟨code, -, hchunk, henc⟩ := h.commands
  rw [Emitter.offset, hchunk, Chunk.size_writeBytes, length_bytes_of_encoded henc]
  rfl

theorem Appends.append (h : e.Appends e' xs) (h' : e'.Appends e'' ys) :
    e.Appends e'' (xs ++ ys) where
  grows := h.grows.trans h'.grows
  commands := by
    obtain ⟨code, hlaid, hchunk, henc⟩ := h.commands
    obtain ⟨code', hlaid', hchunk', henc'⟩ := h'.commands
    refine ⟨code ++ code', ?_, ?_, ?_⟩
    · rw [laid_append]
      refine ⟨hlaid, ?_⟩
      have hend : endOf e.offset code = e'.offset := by
        rw [endOf, length_bytes_of_encoded henc, h.offset]
      rwa [hend]
    · rw [hchunk', h.grows.line, hchunk, Chunk.writeBytes_append, flatMap_append]
    · have henc := henc.imp fun _ _ hx => Command.Encoded.mono h'.grows.constants hx
      exact rel_append henc henc'

/-! ### Actions -/

/-- The emitter with a constant added. -/
def withConstant (e : Emitter) (c : Constant) : Emitter :=
  { e with constants := (e.constants.add c).2 }

/-- What an emitter can be asked for. -/
inductive Action
  | line (n : Nat)
  | plain (op : Opcode)
  | byte (op : Opcode) (operand : UInt8)
  | word (op : Opcode) (operand : UInt16)
  | literal (l : Literal)
  | hash (op : Opcode) (h : TypeHash)
  | call (op : Opcode) (function : TypeHash) (argc : Nat)
  | slot (narrow wide : Opcode) (n : UInt16)
  | define
  | mark (l : Label)
  | jump (op : Opcode) (l : Label)

namespace Action

/-- The operation of an emitter. -/
def emitting : Action → Emitting Unit
  | .line n => setLine n
  | .plain op => emit op
  | .byte op operand => emitByte op operand
  | .word op operand => emit16 op operand
  | .literal l => emitLiteral l
  | .hash op h => emitHash op h
  | .call op f argc => emitCall op f argc
  | .slot narrow wide n => emitLocal narrow wide n
  | .define => do let _ ← defineLabel
  | .mark l => markLabel l
  | .jump op l => emitJump op l

/-- Instructions have operands of the size of their opcode. -/
def WellFormed : Action → Prop
  | .plain op => op.operandSize = 0
  | .byte op _ => op.operandSize = 1
  | .word op _ | .hash op _ => op.operandSize = 2
  | .call op _ _ => op.operandSize = 3
  | .slot narrow wide _ => narrow.operandSize = 1 ∧ wide.operandSize = 2
  | .jump op _ => op.operandSize = 4
  | .line _ | .literal _ | .define | .mark _ => True

/-- Instructions other than jumps. -/
def Straight : Action → Prop
  | .line _ | .define | .mark _ | .jump _ _ => False
  | _ => True

/-- The constant that an instruction refers to. -/
def constant? : Action → Option Constant
  | .literal .null | .literal (.bool _) => none
  | .literal l => some (.literal l)
  | .hash _ h => some (.hash h)
  | .call _ f argc => if argc < 256 then some (.hash f) else none
  | _ => none

/-- The instruction that is asked for. What it refers to by a number, the place of a constant or the
target of a jump, is given. -/
def instr? (offset k : Nat) : Action → Option Instr
  | .plain op => some ⟨offset, op, 0, 0⟩
  | .byte op n => some ⟨offset, op, n.toNat, 0⟩
  | .word op n => some ⟨offset, op, n.toNat, 0⟩
  | .slot narrow wide n => some ⟨offset, if n.toNat < 256 then narrow else wide, n.toNat, 0⟩
  | .literal .null => some ⟨offset, .pushNull, 0, 0⟩
  | .literal (.bool b) => some ⟨offset, .pushBool b, 0, 0⟩
  | .literal _ => some ⟨offset, .constant (decide (256 ≤ k)), k, 0⟩
  | .hash op _ | .jump op _ => some ⟨offset, op, k, 0⟩
  | .call op _ argc => some ⟨offset, op, k, argc⟩
  | .line _ | .define | .mark _ => none

/-- The place of the constant that an action refers to, once it is in the pool. -/
def place (a : Action) (e : Emitter) : Nat := a.constant?.elim 0 fun c => (e.constants.add c).1

/-- The emitter with the constant that an action refers to. -/
def provide (a : Action) (e : Emitter) : Emitter := a.constant?.elim e e.withConstant

end Action

theorem Grows.withConstant (e : Emitter) (c : Constant) : e.Grows (e.withConstant c) where
  chunk := ⟨[], rfl⟩
  constants := by
    unfold Emitter.withConstant Pool.add
    split
    · exact .refl _
    · simp [Pool.Extends]
  valid h := (h.add c).1
  labels := rfl
  line := rfl

theorem Grows.write (e : Emitter) (bytes : List UInt8) : e.Grows (e.write bytes) where
  chunk := ⟨bytes, rfl⟩
  constants := .refl _
  valid := id
  labels := rfl
  line := rfl

/-! ### Instructions -/

namespace Action

variable {a : Action} {k : Nat}

theorem offset_instr? {offset : Nat} (h : a.instr? offset k = some i) : i.offset = offset := by
  unfold instr? at h
  split at h <;> cases h <;> rfl

theorem provide_eq (a : Action) (e : Emitter) : (a.provide e).chunk = e.chunk ∧
    (a.provide e).labels = e.labels ∧ (a.provide e).line = e.line := by
  unfold provide
  cases a.constant? <;> exact ⟨rfl, rfl, rfl⟩

theorem grows_provide (a : Action) (e : Emitter) : e.Grows (a.provide e) := by
  unfold provide
  cases a.constant? with
  | none => exact .refl e
  | some c => exact .withConstant e c

theorem has_place (a : Action) (h : e.constants.Valid) :
    ∀ c ∈ a.constant?, (a.provide e).constants.Has c (a.place e) := by
  intro c hc
  unfold provide place
  rw [Option.mem_def.mp hc]
  exact (h.add c).2.2

/-- What an instruction does to an emitter: it is written if its operands fit. -/
def Outcome (o : Except EmitError Unit × Emitter) (e : Emitter) (i : Instr) : Prop :=
  i.Fits ∧ o = (.ok (), e.write i.bytes) ∨ ¬ i.Fits ∧ ∃ err, o = (.error err, e)

/-- An instruction whose operand is the place of a constant. -/
theorem outcome_pooled {c : Constant} {x : Nat → Emitting Unit} {i : Nat → Instr}
    (hfits : ∀ k, (i k).Fits ↔ k < 65536)
    (hsmall : ∀ k < 65536, (x k).outcome (e.withConstant c) =
      (.ok (), (e.withConstant c).write (i k).bytes))
    (hlarge : ∀ k, ¬ k < 65536 → ∃ err, (x k).outcome (e.withConstant c) =
      (.error err, e.withConstant c)) :
    Outcome ((addConstant c >>= x).outcome e) (e.withConstant c) (i (e.constants.add c).1) := by
  have hadd : (addConstant c).outcome e = (.ok (e.constants.add c).1, e.withConstant c) := rfl
  rw [Outcome, hfits, Emitting.outcome_bind, hadd]
  by_cases hk : (e.constants.add c).1 < 65536
  · exact .inl ⟨hk, hsmall _ hk⟩
  · exact .inr ⟨hk, hlarge _ hk⟩

theorem poolOperand_bind_small (x : UInt16 → Emitting Unit) (hk : k < 65536) :
    (poolOperand k >>= x) = x (UInt16.ofNat k) := by
  rw [poolOperand, if_pos hk, pure_bind]

theorem poolOperand_bind_large (x : UInt16 → Emitting Unit) (hk : ¬ k < 65536) (e : Emitter) :
    ∃ err, (poolOperand k >>= x).outcome e = (.error err, e) := by
  rw [poolOperand, if_neg hk]
  exact ⟨_, rfl⟩

/-- The literals that are kept in the pool. -/
theorem outcome_literal (l : Literal) (e : Emitter) : Outcome (Emitting.outcome (do
        let k ← addConstant (.literal l)
        if k < 256 then emitByte (.constant false) (UInt8.ofNat k)
        else emit16 (.constant true) (← poolOperand k)) e) (e.withConstant (.literal l))
      ⟨e.offset, .constant (decide (256 ≤ (e.constants.add (.literal l)).1)),
        (e.constants.add (.literal l)).1, 0⟩ := by
  refine outcome_pooled (i := fun k => ⟨e.offset, .constant (decide (256 ≤ k)), k, 0⟩) (fun k => ?_)
    (fun k hk => ?_) fun k hk => ?_
  · by_cases hk : 256 ≤ k <;> simp [Instr.Fits, Opcode.operandSize, hk]
    omega
  · by_cases hnarrow : k < 256
    · have hwide : decide (256 ≤ k) = false := by simpa using hnarrow
      rw [if_pos hnarrow, hwide]
      rfl
    · have hwide : decide (256 ≤ k) = true := by simpa using hnarrow
      rw [if_neg hnarrow, poolOperand_bind_small _ hk, hwide]
      rfl
  · rw [if_neg (by omega)]
    exact poolOperand_bind_large _ hk _

/-- What an instruction other than a jump does to an emitter. -/
theorem outcome_emitting (ha : a.WellFormed) (hstraight : a.Straight) (e : Emitter) :
    ∃ i, a.instr? e.offset (a.place e) = some i ∧ Outcome (a.emitting.outcome e)
      (a.provide e) i := by
  cases a with
  | plain op =>
    have hop : op.operandSize = 0 := ha
    exact ⟨_, rfl, .inl ⟨by simp [Instr.Fits, hop], by simp [bytes, operandBytes, hop]; rfl⟩⟩
  | byte op n =>
    have hop : op.operandSize = 1 := ha
    exact ⟨_, rfl,
      .inl ⟨by simp [Instr.Fits, hop, n.toNat_lt], by simp [bytes, operandBytes, hop]; rfl⟩⟩
  | word op n =>
    have hop : op.operandSize = 2 := ha
    exact ⟨_, rfl,
      .inl ⟨by simp [Instr.Fits, hop, n.toNat_lt], by simp [bytes, operandBytes, hop]; rfl⟩⟩
  | slot narrow wide n =>
    refine ⟨_, rfl, .inl ?_⟩
    simp only [emitting, emitLocal]
    by_cases hn : n.toNat < 256
    · rw [if_pos hn, if_pos hn]
      exact ⟨by simp [Instr.Fits, ha.1, hn], by simp [bytes, operandBytes, ha.1]; rfl⟩
    · rw [if_neg hn, if_neg hn]
      exact ⟨by simp [Instr.Fits, ha.2, n.toNat_lt], by simp [bytes, operandBytes, ha.2]; rfl⟩
  | literal l =>
    cases l with
    | null => exact ⟨_, rfl, .inl ⟨⟨rfl, rfl⟩, rfl⟩⟩
    | bool b => exact ⟨_, rfl, .inl ⟨⟨rfl, rfl⟩, rfl⟩⟩
    | int kind v => exact ⟨_, rfl, outcome_literal (.int kind v) e⟩
    | float kind v => exact ⟨_, rfl, outcome_literal (.float kind v) e⟩
    | str text => exact ⟨_, rfl, outcome_literal (.str text) e⟩
  | hash op t =>
    have hop : op.operandSize = 2 := ha
    refine ⟨_, rfl, outcome_pooled (i := fun k => ⟨e.offset, op, k, 0⟩) (fun k => ?_)
      (fun k hk => ?_)
      fun k hk => ?_⟩
    · simp [Instr.Fits, hop]
    · rw [poolOperand_bind_small _ hk]
      simp [bytes, operandBytes, hop]
      rfl
    · exact poolOperand_bind_large _ hk _
  | call op f argc =>
    have hop : op.operandSize = 3 := ha
    by_cases hargc : argc < 256
    · have hprovide : (Action.call op f argc).constant? = some (.hash f) := if_pos hargc
      have hemit : emitCall op f argc = (do
          let k ← addConstant (.hash f)
          let n ← poolOperand k
          emit16 op n
          onChunk fun c line => c.writeByte (UInt8.ofNat argc) line) := by
        simp [emitCall, emitHash, show ¬ 255 < argc by omega]
      refine ⟨_, rfl, ?_⟩
      rw [provide, place, hprovide, emitting, hemit]
      refine outcome_pooled (i := fun k => ⟨e.offset, op, k, argc⟩) (fun k => ?_)
        (fun k hk => ?_) fun k hk => ?_
      · simp [Instr.Fits, hop, hargc]
      · rw [poolOperand_bind_small _ hk, bytes, operandBytes, hop]
        rfl
      · exact poolOperand_bind_large _ hk _
    · have hprovide : (Action.call op f argc).constant? = none := if_neg hargc
      refine ⟨_, rfl, .inr ⟨?_, ?_⟩⟩
      · simp [Instr.Fits, hop]
        omega
      · rw [provide, hprovide, emitting, emitCall, if_pos (by omega)]
        exact ⟨_, rfl⟩
  | line | define | mark | jump => exact hstraight.elim

end Action

end Emitter

namespace Opcode

theorem operandSize_of_sort_none (h : op.sort = .none) : op.operandSize = 0 := by
  cases op <;> simp_all [sort, operandSize]

theorem operandSize_of_sort_hash (h : op.sort = .hash) : op.operandSize = 2 := by
  cases op <;> simp_all [sort, operandSize]

theorem operandSize_of_sort_call (h : op.sort = .call) : op.operandSize = 3 := by
  cases op <;> simp_all [sort, operandSize]

theorem operandSize_of_sort_label (h : op.sort = .label) : op.operandSize = 4 := by
  cases op <;> simp_all [sort, operandSize]

end Opcode

/-- What a literal is emitted as: an opcode of its own, or a constant with the key of the
literal. -/
def LiteralCode (l : Literal) (xs : List Command) : Prop :=
  (l = .null ∧ xs = [.plain .pushNull]) ∨ (∃ b, l = .bool b ∧ xs = [.plain (.pushBool b)]) ∨
    ∃ wide l', (Constant.literal l').key = (Constant.literal l).key ∧
      xs = [⟨.constant wide, .literal l'⟩]

namespace Emitting

/-- An operation on an emitter leaves labels alone, and when it succeeds it emits commands of a
certain form. -/
def Emits (x : Emitting Unit) (C : List Command → Prop) : Prop := ∀ e, e.Grows (x.outcome e).2 ∧
    (e.constants.Valid → (x.outcome e).1 = .ok () → ∃ xs, C xs ∧ e.Appends (x.outcome e).2 xs)

theorem Emits.mono {x : Emitting Unit} {D : List Command → Prop} (h : x.Emits C)
    (hCD : ∀ xs, C xs → D xs) : x.Emits D := by
  intro e
  refine ⟨(h e).1, fun hvalid hok => ?_⟩
  obtain ⟨xs, hxs, happ⟩ := (h e).2 hvalid hok
  exact ⟨xs, hCD xs hxs, happ⟩

open Emitter

variable {a : Emitter.Action}

/-- An instruction other than a jump is emitted as the command that it encodes. -/
theorem emits_action (ha : a.WellFormed) (hstraight : a.Straight)
    (hC : ∀ p n k i, (∀ c ∈ a.constant?, Pool.Has p c k) → a.instr? n k = some i →
      ∃ x, C [x] ∧ Command.Encoded p x i) : a.emitting.Emits C := by
  intro e
  obtain ⟨i, hi, ⟨hfits, hout⟩ | ⟨-, err, hout⟩⟩ := a.outcome_emitting ha hstraight e <;> rw [hout]
  · have hgrows := (a.grows_provide e).trans (.write _ i.bytes)
    refine ⟨hgrows, fun hvalid _ => ?_⟩
    obtain ⟨x, hx, henc⟩ := hC _ _ _ i (a.has_place hvalid) hi
    refine ⟨[x], hx, hgrows, [i], ⟨Emitter.Action.offset_instr? hi, hfits, trivial⟩, ?_,
      .cons henc .nil⟩
    rw [write, (a.provide_eq e).1, (a.provide_eq e).2.2]
    simp
  · exact ⟨a.grows_provide e, fun _ hok => by cases hok⟩

theorem emits_emit (h : op.sort = .none) : (emit op).Emits (· = [.plain op]) :=
  emits_action (a := .plain op) (Opcode.operandSize_of_sort_none h) trivial fun _ _ _ _ _ hi => by
    cases hi
    exact ⟨_, rfl, rfl, h, trivial⟩

theorem emits_emit16 (hsort : op.sort = .slot) (hsize : op.operandSize = 2) (n : UInt16) :
    (emit16 op n).Emits (· = [⟨op, .slot n⟩]) :=
  emits_action (a := .word op n) hsize trivial fun _ _ _ _ _ hi => by
    cases hi
    exact ⟨_, rfl, rfl, hsort, rfl⟩

theorem emits_emitLocal (a : Access) (slot : UInt16) :
    (emitLocal (.localSlot false a) (.localSlot true a) slot).Emits (· = [.onLocal a slot]) :=
  emits_action (a := .slot _ _ slot) ⟨rfl, rfl⟩ trivial fun _ _ _ _ _ hi => by
    cases hi
    refine ⟨_, rfl, ?_, rfl, rfl⟩
    by_cases hslot : slot.toNat < 256
    · simp [Command.onLocal, hslot]
    · simp [Command.onLocal, hslot, Nat.le_of_not_lt hslot]

theorem emits_emitHash (hsort : op.sort = .hash) (h : TypeHash) :
    (emitHash op h).Emits (· = [⟨op, .hash h⟩]) :=
  emits_action (a := .hash op h) (Opcode.operandSize_of_sort_hash hsort) trivial
    fun _ _ _ _ hconst hi => by
      cases hi
      exact ⟨_, rfl, rfl, hsort, (hconst _ rfl).typeHash?⟩

theorem emits_emitCall (hsort : op.sort = .call) (f : TypeHash) (argc : Nat) :
    (emitCall op f argc).Emits (· = [⟨op, .call f argc⟩]) := by
  by_cases hargc : argc < 256
  · refine emits_action (a := .call op f argc) (Opcode.operandSize_of_sort_call hsort) trivial
      fun _ _ _ _ hconst hi => ?_
    cases hi
    exact ⟨_, rfl, rfl, hsort, (hconst _ (if_pos hargc)).typeHash?, rfl⟩
  · intro e
    rw [emitCall, if_pos (by omega)]
    exact ⟨.refl e, fun _ hok => by cases hok⟩

theorem emits_emitLiteral (l : Literal) : (emitLiteral l).Emits (LiteralCode l) := by
  have hpooled : Emitter.Action.constant? (.literal l) = some (.literal l) →
      (∀ n k, Emitter.Action.instr? n k (.literal l) =
        some ⟨n, .constant (decide (256 ≤ k)), k, 0⟩) →
        (emitLiteral l).Emits (LiteralCode l) := by
    intro hl hinstr
    refine emits_action (a := .literal l) trivial trivial fun _ n k _ hconst hi => ?_
    obtain ⟨l', hl', hkey⟩ := (hconst _ hl).literal?
    rw [hinstr] at hi
    cases hi
    exact ⟨_, .inr (.inr ⟨_, l', hkey, rfl⟩), rfl, rfl, hl'⟩
  cases l with
  | null => exact (emits_emit rfl).mono fun xs hxs => .inl ⟨rfl, hxs⟩
  | bool b => exact (emits_emit rfl).mono fun xs hxs => .inr (.inl ⟨b, rfl, hxs⟩)
  | int kind v => exact hpooled rfl fun _ _ => rfl
  | float kind v => exact hpooled rfl fun _ _ => rfl
  | str text => exact hpooled rfl fun _ _ => rfl

end Emitting

end StackCode
