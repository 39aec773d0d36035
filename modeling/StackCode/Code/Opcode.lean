/-!
# Opcodes

The instruction set of the stack machine. Opcodes come in families: one per way of reaching a
storage place, each with an `Access`; indirect loads and stores, each with the width it moves;
arithmetic, comparisons and jumps. An opcode is one byte, followed by its operand bytes.
-/

namespace StackCode

/-- What an instruction does with a storage place: push its value, pop a value into it, or push its
address. -/
inductive Access
  | get
  | set
  | address
  deriving DecidableEq, Repr, Inhabited

/-- What an indirect load expects to find. -/
inductive LoadWidth
  | int8
  | uint8
  | int16
  | uint16
  | int32
  | uint32
  | int64
  | float32
  | float64
  | native
  | reference
  deriving DecidableEq, Repr, Inhabited

/-- What an indirect store expects to move; the sign of an integer does not matter. -/
inductive StoreWidth
  | int8
  | int16
  | int32
  | int64
  | float32
  | float64
  | native
  | reference
  deriving DecidableEq, Repr, Inhabited

/-- An instruction that combines two operands of one type. -/
inductive ArithOp
  | add
  | sub
  | mul
  | div
  | rem
  | bitAnd
  | bitOr
  | bitXor
  deriving DecidableEq, Repr, Inhabited

/-- An instruction that compares two operands. -/
inductive CompareOp
  | eq
  | ne
  | lt
  | le
  | gt
  | ge
  deriving DecidableEq, Repr, Inhabited

/-- An operation code. -/
inductive Opcode
  /-- Push a literal of the constant pool; the index has one byte, or two in the wide form. -/
  | constant (wide : Bool)
  | pushNull
  | pushBool (value : Bool)
  | nop
  | pop
  | dup
  | swap
  /-- A local slot; the slot number has one byte, or two in the wide form. -/
  | localSlot (wide : Bool) (access : Access)
  | argument (access : Access)
  | field (access : Access)
  | staticField (access : Access)
  | element (access : Access)
  | newArray
  | arrayLength
  | loadCaptured
  | capturedAddress
  | loadIndirect (width : LoadWidth)
  | loadObject
  | storeIndirect (width : StoreWidth)
  | storeObject
  /-- Copy an aggregate from one address to another. -/
  | copyObject
  | box
  | unbox
  | cast
  /-- Construct an instance. -/
  | new
  | call
  /-- Call with a receiver below the arguments. -/
  | callMethod
  | ret
  | retVoid
  | arith (op : ArithOp)
  | neg
  | not
  | compare (op : CompareOp)
  | jump
  | jumpIf (condition : Bool)
  deriving DecidableEq, Repr, Inhabited

/-- The position of an access in its family of opcodes. -/
def Access.code : Access → Nat
  | .get => 0
  | .set => 1
  | .address => 2

/-- The position of a width in the family of indirect loads. -/
def LoadWidth.code : LoadWidth → Nat
  | .int8 => 0
  | .uint8 => 1
  | .int16 => 2
  | .uint16 => 3
  | .int32 => 4
  | .uint32 => 5
  | .int64 => 6
  | .float32 => 7
  | .float64 => 8
  | .native => 9
  | .reference => 10

/-- The position of a width in the family of indirect stores. -/
def StoreWidth.code : StoreWidth → Nat
  | .int8 => 0
  | .int16 => 1
  | .int32 => 2
  | .int64 => 3
  | .float32 => 4
  | .float64 => 5
  | .native => 6
  | .reference => 7

/-- The position of a comparison in its family of opcodes. -/
def CompareOp.code : CompareOp → Nat
  | .eq => 0
  | .ne => 1
  | .lt => 2
  | .le => 3
  | .gt => 4
  | .ge => 5

namespace Opcode

/-- The number of an opcode. -/
def code : Opcode → Nat
  | .constant wide => if wide then 1 else 0
  | .pushNull => 2
  | .pushBool b => if b then 3 else 4
  | .nop => 5
  | .pop => 6
  | .dup => 7
  | .swap => 8
  | .localSlot wide a => (if wide then 12 else 9) + a.code
  | .argument a => 15 + a.code
  | .field a => 18 + a.code
  | .staticField a => 21 + a.code
  | .element a => 24 + a.code
  | .newArray => 27
  | .arrayLength => 28
  | .loadCaptured => 29
  | .capturedAddress => 30
  | .loadIndirect w => 31 + w.code
  | .loadObject => 42
  | .storeIndirect w => 43 + w.code
  | .storeObject => 51
  | .copyObject => 52
  | .box => 53
  | .unbox => 54
  | .cast => 55
  | .new => 56
  | .call => 57
  | .callMethod => 58
  | .ret => 59
  | .retVoid => 60
  | .arith .add => 61
  | .arith .sub => 62
  | .arith .mul => 63
  | .arith .div => 64
  | .arith .rem => 65
  | .neg => 66
  | .not => 67
  | .compare c => 68 + c.code
  | .arith .bitAnd => 74
  | .arith .bitOr => 75
  | .arith .bitXor => 76
  | .jump => 77
  | .jumpIf b => if b then 79 else 78

/-- All opcodes, in the order of their numbers. -/
def all : Array Opcode :=
  #[.constant false, .constant true, .pushNull, .pushBool true, .pushBool false, .nop, .pop, .dup,
    .swap, .localSlot false .get, .localSlot false .set, .localSlot false .address,
    .localSlot true .get, .localSlot true .set, .localSlot true .address, .argument .get,
    .argument .set, .argument .address, .field .get, .field .set, .field .address,
    .staticField .get, .staticField .set, .staticField .address, .element .get, .element .set,
    .element .address, .newArray, .arrayLength, .loadCaptured, .capturedAddress,
    .loadIndirect .int8, .loadIndirect .uint8, .loadIndirect .int16, .loadIndirect .uint16,
    .loadIndirect .int32, .loadIndirect .uint32, .loadIndirect .int64, .loadIndirect .float32,
    .loadIndirect .float64, .loadIndirect .native, .loadIndirect .reference, .loadObject,
    .storeIndirect .int8, .storeIndirect .int16, .storeIndirect .int32, .storeIndirect .int64,
    .storeIndirect .float32, .storeIndirect .float64, .storeIndirect .native,
    .storeIndirect .reference, .storeObject, .copyObject, .box, .unbox, .cast, .new, .call,
    .callMethod, .ret, .retVoid, .arith .add, .arith .sub, .arith .mul, .arith .div, .arith .rem,
    .neg, .not, .compare .eq, .compare .ne, .compare .lt, .compare .le, .compare .gt, .compare .ge,
    .arith .bitAnd, .arith .bitOr, .arith .bitXor, .jump, .jumpIf false, .jumpIf true]

/-- The byte of an opcode. -/
def byte (op : Opcode) : UInt8 := op.code.toUInt8

/-- The opcode of a byte, if there is one. -/
def ofByte? (b : UInt8) : Option Opcode := all[b.toNat]?

/-- The number of operand bytes behind the opcode. -/
def operandSize : Opcode → Nat
  | .constant wide => if wide then 2 else 1
  | .localSlot wide _ => if wide then 2 else 1
  | .argument _ | .field _ | .staticField _ | .newArray | .loadCaptured | .capturedAddress
  | .loadObject | .storeObject | .copyObject | .box | .unbox | .cast => 2
  | .new | .call | .callMethod => 3
  | .jump | .jumpIf _ => 4
  | _ => 0

/-- Whether the operand is an index of the constant pool. -/
def usesPool : Opcode → Bool
  | .constant _ | .field _ | .staticField _ | .newArray | .loadObject | .storeObject | .copyObject
  | .box | .unbox | .cast | .new | .call | .callMethod => true
  | _ => false

/-- Whether the operand is the offset of an instruction. -/
def isJump : Opcode → Bool
  | .jump | .jumpIf _ => true
  | _ => false

/-- Whether control never reaches the next instruction. -/
def isTerminator : Opcode → Bool
  | .ret | .retVoid | .jump => true
  | _ => false

end Opcode

/-! ### Mnemonics -/

/-- The first word of the mnemonic of an access. -/
def Access.name (place : String) : Access → String
  | .get => "GET_" ++ place
  | .set => "SET_" ++ place
  | .address => place ++ "_ADDRESS"

/-- The mnemonic suffix of a width. -/
def LoadWidth.name : LoadWidth → String
  | .int8 => "I8"
  | .uint8 => "U8"
  | .int16 => "I16"
  | .uint16 => "U16"
  | .int32 => "I32"
  | .uint32 => "U32"
  | .int64 => "I64"
  | .float32 => "F32"
  | .float64 => "F64"
  | .native => "NATIVE"
  | .reference => "REF"

@[inherit_doc LoadWidth.name]
def StoreWidth.name : StoreWidth → String
  | .int8 => "I8"
  | .int16 => "I16"
  | .int32 => "I32"
  | .int64 => "I64"
  | .float32 => "F32"
  | .float64 => "F64"
  | .native => "NATIVE"
  | .reference => "REF"

/-- The mnemonic of an arithmetic instruction. -/
def ArithOp.name : ArithOp → String
  | .add => "ADD"
  | .sub => "SUB"
  | .mul => "MUL"
  | .div => "DIV"
  | .rem => "REM"
  | .bitAnd => "BIT_AND"
  | .bitOr => "BIT_OR"
  | .bitXor => "BIT_XOR"

/-- The mnemonic of a comparison. -/
def CompareOp.name : CompareOp → String
  | .eq => "EQ"
  | .ne => "NE"
  | .lt => "LT"
  | .le => "LE"
  | .gt => "GT"
  | .ge => "GE"

namespace Opcode

/-- The mnemonic of an opcode. -/
def name : Opcode → String
  | .constant wide => if wide then "CONSTANT_WIDE" else "CONSTANT"
  | .pushNull => "PUSH_NULL"
  | .pushBool b => if b then "PUSH_TRUE" else "PUSH_FALSE"
  | .nop => "NOP"
  | .pop => "POP"
  | .dup => "DUP"
  | .swap => "SWAP"
  | .localSlot wide a => a.name "LOCAL" ++ (if wide then "_WIDE" else "")
  | .argument a => a.name "ARG"
  | .field a => a.name "FIELD"
  | .staticField a => a.name "STATIC"
  | .element a => a.name "ELEMENT"
  | .newArray => "NEW_ARRAY"
  | .arrayLength => "ARRAY_LENGTH"
  | .loadCaptured => "LOAD_CAPTURED"
  | .capturedAddress => "CAPTURED_ADDRESS"
  | .loadIndirect w => "LOAD_IND_" ++ w.name
  | .loadObject => "LOAD_OBJ"
  | .storeIndirect w => "STORE_IND_" ++ w.name
  | .storeObject => "STORE_OBJ"
  | .copyObject => "COPY_OBJ"
  | .box => "BOX"
  | .unbox => "UNBOX_ANY"
  | .cast => "CAST"
  | .new => "NEW"
  | .call => "CALL"
  | .callMethod => "CALL_METHOD"
  | .ret => "RETURN"
  | .retVoid => "RETURN_VOID"
  | .arith op => op.name
  | .neg => "NEG"
  | .not => "NOT"
  | .compare op => op.name
  | .jump => "JUMP"
  | .jumpIf b => if b then "JUMP_IF_TRUE" else "JUMP_IF_FALSE"

/-- The opcode with a given mnemonic. -/
def ofName? (s : String) : Option Opcode := all.find? fun op => op.name == s

end Opcode

end StackCode
