import StackCode.Code.Opcode
import StackCode.Error
import StackCode.Literal
import StackCode.Registry.Conversion

/-!
# Symbols

A symbol describes how a value is produced. It belongs to one context and is composed of smaller
symbols of that context. Storage symbols can also be addressed or assigned to.
-/

namespace StackCode

/-- An operator with two operands. -/
inductive BinaryOp
  | arith (op : ArithOp)
  | compare (op : CompareOp)
  deriving DecidableEq, Repr, Inhabited

namespace BinaryOp

/-- All operators with two operands. -/
def all : List BinaryOp :=
  [.arith .add, .arith .sub, .arith .mul, .arith .div, .arith .rem, .arith .bitAnd, .arith .bitOr,
   .arith .bitXor, .compare .eq, .compare .ne, .compare .lt, .compare .le, .compare .gt,
   .compare .ge]

/-- The name of an operator. -/
def name : BinaryOp → String
  | .arith .add => "Add"
  | .arith .sub => "Sub"
  | .arith .mul => "Mul"
  | .arith .div => "Div"
  | .arith .rem => "Rem"
  | .arith .bitAnd => "BitAnd"
  | .arith .bitOr => "BitOr"
  | .arith .bitXor => "BitXor"
  | .compare .eq => "Eq"
  | .compare .ne => "Ne"
  | .compare .lt => "Lt"
  | .compare .le => "Le"
  | .compare .gt => "Gt"
  | .compare .ge => "Ge"

/-- The operator with a given name. -/
def ofName? (s : String) : Option BinaryOp := all.find? fun op => op.name == s

/-- The instruction of an operator. -/
def opcode : BinaryOp → Opcode
  | .arith op => .arith op
  | .compare op => .compare op

/-- Whether the result is a truth value. -/
def isComparison : BinaryOp → Bool
  | .arith _ => false
  | .compare _ => true

/-- The sign of an operator. -/
def sign : BinaryOp → String
  | .arith .add => "+"
  | .arith .sub => "-"
  | .arith .mul => "*"
  | .arith .div => "/"
  | .arith .rem => "%"
  | .arith .bitAnd => "&"
  | .arith .bitOr => "|"
  | .arith .bitXor => "^"
  | .compare .eq => "=="
  | .compare .ne => "!="
  | .compare .lt => "<"
  | .compare .le => "<="
  | .compare .gt => ">"
  | .compare .ge => ">="

end BinaryOp

/-- An operator with one operand. -/
inductive UnaryOp
  | neg
  | not
  deriving DecidableEq, Repr, Inhabited

namespace UnaryOp

/-- The instruction of an operator. -/
def opcode : UnaryOp → Opcode
  | .neg => .neg
  | .not => .not

/-- The name of an operator. -/
def name : UnaryOp → String
  | .neg => "Neg"
  | .not => "Not"

end UnaryOp

/-- A value that was captured when a type was built: its owner, its number and its type. -/
structure CapturedId where
  owner : TypeHash
  index : UInt16
  type : DataType
  deriving DecidableEq, Repr, Inhabited

/-- A description of a value. Every symbol carries the context it belongs to. -/
inductive Symbol
  /-- A local slot. -/
  | localSlot (context : ContextId) (slot : UInt16) (type : DataType)
  /-- An argument slot. -/
  | argument (context : ContextId) (slot : UInt16) (type : DataType)
  /-- A field of an instance. -/
  | field (context : ContextId) (holder : Symbol) (field : FieldDecl)
  | staticField (context : ContextId) (field : FieldDecl)
  /-- An element of an array. -/
  | element (context : ContextId) (array index : Symbol) (type : DataType)
  | captured (context : ContextId) (id : CapturedId)
  | literal (context : ContextId) (literal : Literal)
  | binary (context : ContextId) (op : BinaryOp) (lhs rhs : Symbol) (type : DataType)
  | unary (context : ContextId) (op : UnaryOp) (operand : Symbol) (type : DataType)
  /-- A call without receiver. -/
  | call (context : ContextId) (function : FunctionDecl) (args : List Symbol)
  /-- A call with a receiver. -/
  | callOn (context : ContextId) (function : FunctionDecl) (receiver : Symbol)
      (args : List Symbol)
  /-- A new instance, made by a constructor of the type. -/
  | construct (context : ContextId) (function : FunctionDecl) (type : TypeHash)
      (args : List Symbol)
  | newArray (context : ContextId) (element : TypeHash) (length : Symbol)
  | arrayLength (context : ContextId) (array : Symbol)
  | converted (context : ContextId) (source : Symbol) (conversion : Conversion)
  deriving Inhabited

namespace Symbol

/-- The context a symbol belongs to. -/
def context : Symbol → ContextId
  | .localSlot c _ _ | .argument c _ _ | .field c _ _ | .staticField c _ | .element c _ _ _
  | .captured c _ | .literal c _ | .binary c _ _ _ _ | .unary c _ _ _ | .call c _ _
  | .callOn c _ _ _ | .construct c _ _ _ | .newArray c _ _ | .arrayLength c _
  | .converted c _ _ => c

/-- The type of the value, with its indirection. -/
def dataType : Symbol → DataType
  | .localSlot _ _ t | .argument _ _ t | .element _ _ _ t | .binary _ _ _ _ t
  | .unary _ _ _ t => t
  | .field _ _ f | .staticField _ f => f.type
  | .captured _ id => id.type
  | .literal _ l => l.dataType
  | .call _ f _ | .callOn _ f _ _ => f.returns
  | .construct _ _ t _ => .plain t
  | .newArray _ h _ => .plain (.arrayOf h)
  | .arrayLength _ _ => .plain .int32
  | .converted _ _ k => .plain k.target

/-- The type of the value behind a managed reference. -/
def valueType (s : Symbol) : DataType := s.dataType.dereferenced

/-- What can be done with a symbol. Captured values have an address but are not assigned to. -/
def capabilities : Symbol → Capabilities
  | .localSlot _ _ _ | .argument _ _ _ | .field _ _ _ | .staticField _ _ | .element _ _ _ _ =>
    .storage
  | .captured _ _ => ⟨true, true, false⟩
  | _ => .justValue

/-- Whether the address of a symbol is that of its own storage. The address of a field of a value
type is as good as that of the instance it is in. -/
def inPlace (r : Registry) : Symbol → Bool
  | .field _ holder _ => !r.isValueType holder.valueType.hash || holder.inPlace r
  | .staticField _ _ => true
  | s => s.dataType.isByRef || s.capabilities.address

end Symbol

end StackCode
