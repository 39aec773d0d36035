import StackCode.Code.Chunk
import StackCode.Code.Constant
import StackCode.Registry.Declaration

/-!
# Methods

A finished body: the function it implements, its code and constants, and the types of its local
slots. A method can be listed as text, one instruction per line with offset, source line, mnemonic
and operand.
-/

namespace StackCode

/-- The body of a function, ready to be run. -/
structure Method where
  function : FunctionDecl
  chunk : Chunk
  constants : Pool
  locals : Array DataType
  deriving Inhabited

/-- The methods of a type by hash, and the literals that its bodies captured. -/
structure BuiltType where
  type : TypeHash
  name : String
  methods : List (TypeHash × Method)
  captured : List Literal
  deriving Inhabited

/-- Equality of constants as values. -/
def Constant.equal : Constant → Constant → Bool
  | .literal a, .literal b => a.equal b
  | .hash a, .hash b => a == b
  | _, _ => false

/-- Whether two lists of constants agree place by place. -/
def Constant.equalAll : List Constant → List Constant → Bool
  | [], [] => true
  | a :: as, b :: bs => a.equal b && equalAll as bs
  | _, _ => false

namespace Method

/-- Whether two methods are the same; constants are compared as values. -/
def equal (a b : Method) : Bool :=
  a.function == b.function && a.chunk == b.chunk &&
    Constant.equalAll a.constants.constants.toList b.constants.constants.toList &&
    a.locals == b.locals

/-! ### Listing -/

/-- Fill a text on the left up to a width. -/
def padLeft (width : Nat) (fill : Char) (s : String) : String :=
  String.ofList (List.replicate (width - s.length) fill) ++ s

/-- Fill a text on the right with blanks up to a width. -/
def padRight (width : Nat) (s : String) : String :=
  s ++ String.ofList (List.replicate (width - s.length) ' ')

/-- An offset in four digits. -/
def offsetText (n : Nat) : String := padLeft 4 '0' (toString n)

/-- The operand of an instruction as text. -/
def operandText (m : Method) (offset : Nat) (op : Opcode) : String :=
  if op.operandSize = 0 then ""
  else
    match m.chunk.operand? offset op with
    | none => " <truncated>"
    | some n =>
      let main :=
        if op.usesPool then
          " #" ++ toString n ++ " " ++
            (match m.constants.get? n with
             | some c => c.text
             | none => "<missing>")
        else if op.isJump then " -> " ++ offsetText n
        else " " ++ toString n
      let count :=
        if op.operandSize = 3 then
          match m.chunk.byte? (offset + 3) with
          | some argc => " (" ++ toString argc.toNat ++ ")"
          | none => ""
        else ""
      main ++ count

/-- The lines of a listing. The source line is left out where it repeats. -/
def listingLines (m : Method) : Option Nat → List (Nat × Opcode) → List String
  | _, [] => []
  | previous, (offset, op) :: rest =>
    let line := m.chunk.line? offset
    let margin :=
      if line = previous then "    | " else " " ++ padLeft 4 ' ' (toString (line.getD 0)) ++ " "
    (offsetText offset ++ margin ++ padRight 16 op.name ++ m.operandText offset op ++ "\n") ::
      listingLines m line rest

/-- The method as text. -/
def listing (m : Method) : String :=
  "== " ++ m.function.name ++ " (" ++ toString m.locals.size ++ " locals, " ++
    toString m.chunk.size ++ " bytes) ==\n" ++
    String.join (m.listingLines none m.chunk.instructions)

end Method

end StackCode
