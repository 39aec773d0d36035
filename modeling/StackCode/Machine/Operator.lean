import StackCode.Code.Opcode
import StackCode.Machine.Fault

/-!
# Operators on values

Arithmetic, comparison, negation and complement. Both operands of a binary operator have one type.
Integer arithmetic is modulo the width of the type; only division and remainder can fail.
-/

namespace StackCode

/-- An operator on integers of one kind. -/
def IntKind.apply (k : IntKind) (op : ArithOp) (a b : BitVec k.width) :
    Except Fault (BitVec k.width) :=
  match op with
  | .add => .ok (a + b)
  | .sub => .ok (a - b)
  | .mul => .ok (a * b)
  | .div => if b = 0 then .error .divideByZero else .ok (k.divide a b)
  | .rem => if b = 0 then .error .divideByZero else .ok (k.remainder a b)
  | .bitAnd => .ok (a &&& b)
  | .bitOr => .ok (a ||| b)
  | .bitXor => .ok (a ^^^ b)

/-- An operator on floating-point numbers of one kind, if it is defined for them. -/
def FloatKind.apply? (k : FloatKind) (op : ArithOp) (a b : BitVec k.width) :
    Option (BitVec k.width) :=
  match op with
  | .add => some (k.add a b)
  | .sub => some (k.sub a b)
  | .mul => some (k.mul a b)
  | .div => some (k.divide a b)
  | .rem => some (k.remainder a b)
  | _ => none

/-- An operator on truth values, if it is defined for them. -/
def ArithOp.onBool? (op : ArithOp) (a b : Bool) : Option Bool :=
  match op with
  | .bitAnd => some (a && b)
  | .bitOr => some (a || b)
  | .bitXor => some (a != b)
  | _ => none

namespace Value

/-- An arithmetic or bitwise operator. Texts can be added. -/
def arith (op : ArithOp) (lhs rhs : Value) : Except Fault Value :=
  match lhs, rhs with
  | .lit (.int k a), .lit (.int k' b) =>
    if h : k' = k then (k.apply op a (h ▸ b)).map fun v => .lit (.int k v)
    else .error (.mismatch "matching numeric operands" lhs)
  | .lit (.float k a), .lit (.float k' b) =>
    if h : k' = k then
      match k.apply? op a (h ▸ b) with
      | some v => .ok (.lit (.float k v))
      | none => .error (.mismatch "float instruction" lhs)
    else .error (.mismatch "matching numeric operands" lhs)
  | .bool a, .bool b =>
    match op.onBool? a b with
    | some v => .ok (.bool v)
    | none => .error (.mismatch "numeric operands" lhs)
  | .lit (.str a), .lit (.str b) =>
    if op = .add then .ok (.lit (.str (a ++ b)))
    else .error (.mismatch "matching numeric operands" lhs)
  | _, _ => .error (.mismatch "matching numeric operands" lhs)

/-- How two numbers of one type compare; a NaN compares with nothing. -/
def order (lhs rhs : Value) : Except Fault (Option Ordering) :=
  match lhs, rhs with
  | .lit (.int k a), .lit (.int k' b) =>
    if h : k' = k then .ok (some (k.order a (h ▸ b))) else .error (.mismatch "ordered operands" lhs)
  | .lit (.float k a), .lit (.float k' b) =>
    if h : k' = k then .ok (k.order a (h ▸ b)) else .error (.mismatch "ordered operands" lhs)
  | _, _ => .error (.mismatch "ordered operands" lhs)

/-- A comparison. Any two values can be compared for equality. -/
def compare (op : CompareOp) (lhs rhs : Value) : Except Fault Bool :=
  match op with
  | .eq => .ok (lhs.equal rhs)
  | .ne => .ok (!lhs.equal rhs)
  | .lt => (lhs.order rhs).map fun o => o == some .lt
  | .le => (lhs.order rhs).map fun o => o == some .lt || o == some .eq
  | .gt => (lhs.order rhs).map fun o => o == some .gt
  | .ge => (lhs.order rhs).map fun o => o == some .gt || o == some .eq

/-- The number with the other sign. -/
def negate (v : Value) : Except Fault Value :=
  match v with
  | .lit (.int k a) =>
    if k.signed || k.native then .ok (.lit (.int k (-a))) else .error (.mismatch "signed operand" v)
  | .lit (.float k a) => .ok (.lit (.float k (k.negate a)))
  | _ => .error (.mismatch "signed operand" v)

/-- The opposite truth value, or the complement of the bits of an integer. -/
def complement (v : Value) : Except Fault Value :=
  match v with
  | .bool b => .ok (.bool (!b))
  | .lit (.int k a) => .ok (.lit (.int k (~~~a)))
  | _ => .error (.mismatch "integer or bool operand" v)

end Value

end StackCode
