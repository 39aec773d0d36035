import StackCode.Code.Opcode

/-!
# Chunks of code

The bytes of one method body, with the source line of each byte. A chunk grows at its end; bytes
already written change only when the operand of a jump is filled in, and disappear only when the
chunk is truncated. Operands are big-endian.
-/

namespace StackCode

/-- The big-endian bytes of a 16-bit word. -/
def bytes16 (w : UInt16) : List UInt8 :=
  [UInt8.ofNat (w.toNat / 256), UInt8.ofNat w.toNat]

/-- The big-endian bytes of a 32-bit word. -/
def bytes32 (w : UInt32) : List UInt8 :=
  [UInt8.ofNat (w.toNat / 16777216), UInt8.ofNat (w.toNat / 65536), UInt8.ofNat (w.toNat / 256),
   UInt8.ofNat w.toNat]

/-- The 16-bit word with the given bytes. -/
def word16 (b1 b0 : UInt8) : UInt16 := UInt16.ofNat (b1.toNat * 256 + b0.toNat)

/-- The 32-bit word with the given bytes. -/
def word32 (b3 b2 b1 b0 : UInt8) : UInt32 :=
  UInt32.ofNat (b3.toNat * 16777216 + b2.toNat * 65536 + b1.toNat * 256 + b0.toNat)

/-- Code bytes with their source lines. -/
structure Chunk where
  code : Array UInt8
  lines : Array Nat
  deriving DecidableEq, Repr, Inhabited

namespace Chunk

/-- The chunk without code. -/
def empty : Chunk := ⟨#[], #[]⟩

/-- The number of code bytes. -/
def size (c : Chunk) : Nat := c.code.size

/-! ### Writing -/

/-- Append a byte that belongs to a source line. -/
def writeByte (c : Chunk) (byte : UInt8) (line : Nat) : Chunk :=
  { code := c.code.push byte, lines := c.lines.push line }

/-- Append bytes that belong to a source line. -/
def writeBytes (c : Chunk) (bytes : List UInt8) (line : Nat) : Chunk :=
  bytes.foldl (fun c b => c.writeByte b line) c

/-- Append an opcode. -/
def writeOp (c : Chunk) (op : Opcode) (line : Nat) : Chunk := c.writeByte op.byte line

/-- Append a 16-bit operand. -/
def write16 (c : Chunk) (word : UInt16) (line : Nat) : Chunk := c.writeBytes (bytes16 word) line

/-- Append a 32-bit operand. -/
def write32 (c : Chunk) (word : UInt32) (line : Nat) : Chunk := c.writeBytes (bytes32 word) line

/-- The operand of a jump whose target is not known yet. -/
def unpatched : UInt32 := 0xffffffff

/-- Append a jump without target; the offset of its operand is returned. -/
def writeJump (c : Chunk) (op : Opcode) (line : Nat) : Nat × Chunk :=
  (c.size + 1, (c.writeOp op line).write32 unpatched line)

/-- Overwrite the four bytes at `offset`, if they lie inside the chunk. -/
def patch32? (c : Chunk) (offset : Nat) (word : UInt32) : Option Chunk :=
  if offset + 4 ≤ c.size then
    some { c with
      code := (((c.code.setIfInBounds offset (UInt8.ofNat (word.toNat / 16777216))).setIfInBounds
        (offset + 1) (UInt8.ofNat (word.toNat / 65536))).setIfInBounds
        (offset + 2) (UInt8.ofNat (word.toNat / 256))).setIfInBounds
        (offset + 3) (UInt8.ofNat word.toNat) }
  else none

/-- Keep the first `n` bytes. -/
def truncate (c : Chunk) (n : Nat) : Chunk := { code := c.code.take n, lines := c.lines.take n }

/-! ### Reading -/

/-- The byte at an offset. -/
def byte? (c : Chunk) (offset : Nat) : Option UInt8 := c.code[offset]?

/-- The 16-bit word at an offset. -/
def word16? (c : Chunk) (offset : Nat) : Option UInt16 := do
  return word16 (← c.byte? offset) (← c.byte? (offset + 1))

/-- The 32-bit word at an offset. -/
def word32? (c : Chunk) (offset : Nat) : Option UInt32 := do
  return word32 (← c.byte? offset) (← c.byte? (offset + 1)) (← c.byte? (offset + 2))
    (← c.byte? (offset + 3))

/-- The opcode at an offset. -/
def op? (c : Chunk) (offset : Nat) : Option Opcode := c.byte? offset >>= Opcode.ofByte?

/-- The source line of the byte at an offset. -/
def line? (c : Chunk) (offset : Nat) : Option Nat := c.lines[offset]?

/-- The source lines in order of the bytes, equal neighbours merged and counted. -/
def lineRuns (c : Chunk) : List (Nat × Nat) :=
  c.lines.foldr (fun line runs =>
    match runs with
    | (l, n) :: rest => if line = l then (l, n + 1) :: rest else (line, 1) :: runs
    | [] => [(line, 1)]) []

/-- The operand behind an opcode at an offset, by the size of its operands: a byte, a word, or four
bytes. An operand of three bytes is a word and an argument count; the word is meant. -/
def operand? (c : Chunk) (offset : Nat) (op : Opcode) : Option Nat :=
  match op.operandSize with
  | 0 => some 0
  | 1 => (c.byte? (offset + 1)).map UInt8.toNat
  | 2 | 3 => (c.word16? (offset + 1)).map UInt16.toNat
  | _ => (c.word32? (offset + 1)).map UInt32.toNat

/-- Decode bytes from an offset on, after skipping operand bytes. A byte that is no opcode is
stepped over. -/
def scan : (skip offset : Nat) → List UInt8 → List (Nat × Opcode)
  | _, _, [] => []
  | skip + 1, offset, _ :: bytes => scan skip (offset + 1) bytes
  | 0, offset, b :: bytes =>
    match Opcode.ofByte? b with
    | some op => (offset, op) :: scan op.operandSize (offset + 1) bytes
    | none => scan 0 (offset + 1) bytes

/-- The instructions of a chunk with their offsets. -/
def instructions (c : Chunk) : List (Nat × Opcode) := scan 0 0 c.code.toList

/-- The opcodes of a chunk in order. -/
def opcodes (c : Chunk) : List Opcode := c.instructions.map Prod.snd

/-- The opcode of the last instruction. -/
def lastOp? (c : Chunk) : Option Opcode := c.opcodes.getLast?

/-! ### Comparing with expected opcodes -/

/-- Take each expected opcode where it first occurs; what was not found is returned. -/
def unmatched : (actual expected : List Opcode) → List Opcode
  | [], expected => expected
  | _ :: _, [] => []
  | op :: actual, want :: expected =>
    if op = want then unmatched actual expected else unmatched actual (want :: expected)

/-- Whether the opcodes occur in the chunk, in this order, with others in between. -/
def containsInOrder (c : Chunk) (expected : List Opcode) : Bool :=
  (unmatched c.opcodes expected).isEmpty

end Chunk

end StackCode
