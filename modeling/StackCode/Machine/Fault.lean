import StackCode.Machine.Value

/-!
# Faults

What can go wrong when code is run, and the words for it.
-/

namespace StackCode

/-- Why a run stopped. -/
inductive Fault
  | unknownFunction (function : TypeHash)
  | arityMismatch (function : String) (expected found : Nat)
  | stackUnderflow (offset : Nat)
  | typeMismatch (expected found : String)
  | invalidAddress (root : Root)
  | unknownField (field : TypeHash)
  | nullReference
  | danglingReference (object : ObjectId)
  | invalidCast (source target : String)
  | indexOutOfBounds (index : Int) (length : Nat)
  | divideByZero
  | invalidBytecode (offset : Nat)
  | stackOverflow (limit : Nat)
  | native (message : String)
  deriving DecidableEq, Repr

/-- The name of the kind of a fault. -/
def Fault.kind : Fault → String
  | .unknownFunction _ => "UnknownFunction"
  | .arityMismatch _ _ _ => "ArityMismatch"
  | .stackUnderflow _ => "StackUnderflow"
  | .typeMismatch _ _ => "TypeMismatch"
  | .invalidAddress _ | .unknownField _ => "InvalidAddress"
  | .nullReference => "NullReference"
  | .danglingReference _ => "DanglingReference"
  | .invalidCast _ _ => "InvalidCast"
  | .indexOutOfBounds _ _ => "IndexOutOfBounds"
  | .divideByZero => "DivideByZero"
  | .invalidBytecode _ => "InvalidBytecode"
  | .stackOverflow _ => "StackOverflow"
  | .native _ => "Native"

/-- The wording of a fault. -/
def Fault.message : Fault → String
  | .unknownFunction function =>
    "no body or native registered for function " ++ function.text
  | .arityMismatch function expected found =>
    s!"function {function} takes {expected} values but received {found}"
  | .stackUnderflow offset => s!"operand stack underflow at offset {offset}"
  | .typeMismatch expected found => s!"expected {expected}, found {found}"
  | .invalidAddress root => "invalid address: " ++ root.text
  | .unknownField field => "invalid address: unknown field " ++ field.text
  | .nullReference => "null reference"
  | .danglingReference object => object.text ++ " does not refer to a live object"
  | .invalidCast source target => s!"cannot cast '{source}' to '{target}'"
  | .indexOutOfBounds index length => s!"index {index} out of bounds for length {length}"
  | .divideByZero => "division by zero"
  | .invalidBytecode offset => s!"malformed bytecode at offset {offset}"
  | .stackOverflow limit => s!"call depth exceeded {limit}"
  | .native message => s!"native function failed: {message}"

/-- The fault of meeting a value of the wrong kind. -/
def Fault.mismatch (expected : String) (found : Value) : Fault :=
  .typeMismatch expected found.kindName

end StackCode
