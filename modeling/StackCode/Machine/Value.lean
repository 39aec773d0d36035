import StackCode.Literal
import StackCode.Registry.Basic

/-!
# Machine values

What the machine computes with: literals, references to heap objects, aggregates of fields, and
addresses. An address is a root, which is a place that holds a value, and a path of member indexes
below it.
-/

namespace StackCode

/-- The identity of a heap object: its number in order of allocation. -/
structure ObjectId where
  number : Nat
  deriving DecidableEq, Repr, Inhabited

/-- The name of an object. -/
def ObjectId.text (id : ObjectId) : String := "obj#" ++ toString id.number

/-- A place that holds a value. Frames are numbered from the outermost. -/
inductive Root
  | localSlot (frame : Nat) (slot : UInt16)
  | argument (frame : Nat) (slot : UInt16)
  | static (field : TypeHash)
  | heap (object : ObjectId)
  | captured (owner : TypeHash) (index : UInt16)
  deriving DecidableEq, Repr, Inhabited

/-- A place below a root: members of nested aggregates, outermost first. -/
structure Address where
  root : Root
  path : List UInt16
  deriving DecidableEq, Repr, Inhabited

namespace Address

/-- The address of a root. -/
def ofRoot (root : Root) : Address := ⟨root, []⟩

/-- The address of a member of the aggregate at an address. -/
def member (a : Address) (index : UInt16) : Address := { a with path := a.path ++ [index] }

end Address

/-- A value of the machine. -/
inductive Value
  | void
  | lit (literal : Literal)
  | ref (object : ObjectId)
  | aggregate (items : List Value)
  | address (address : Address)
  deriving Repr, Inhabited

namespace Value

mutual

/-- Decide whether two values are identical. -/
def decEq : (a b : Value) → Decidable (a = b)
  | .void, b =>
    match b with
    | .void => isTrue rfl
    | .lit _ | .ref _ | .aggregate _ | .address _ => isFalse nofun
  | .lit l, b =>
    match b with
    | .lit l' => decidable_of_iff (l = l') (by simp)
    | .void | .ref _ | .aggregate _ | .address _ => isFalse nofun
  | .ref o, b =>
    match b with
    | .ref o' => decidable_of_iff (o = o') (by simp)
    | .void | .lit _ | .aggregate _ | .address _ => isFalse nofun
  | .aggregate vs, b =>
    match b with
    | .aggregate ws =>
      match decEqAll vs ws with
      | isTrue h => isTrue (h ▸ rfl)
      | isFalse h => isFalse fun e => h (by injection e)
    | .void | .lit _ | .ref _ | .address _ => isFalse nofun
  | .address a, b =>
    match b with
    | .address a' => decidable_of_iff (a = a') (by simp)
    | .void | .lit _ | .ref _ | .aggregate _ => isFalse nofun

/-- Decide whether two lists of values are identical. -/
def decEqAll : (vs ws : List Value) → Decidable (vs = ws)
  | [], ws =>
    match ws with
    | [] => isTrue rfl
    | _ :: _ => isFalse nofun
  | v :: vs, ws =>
    match ws with
    | [] => isFalse nofun
    | w :: ws =>
      match decEq v w, decEqAll vs ws with
      | isTrue h, isTrue h' => isTrue (by rw [h, h'])
      | isFalse h, _ => isFalse fun e => h (by injection e)
      | _, isFalse h => isFalse fun e => h (by injection e)

end

instance : DecidableEq Value := decEq

/-- The null reference. -/
@[match_pattern] abbrev null : Value := .lit .null

/-- A truth value. -/
@[match_pattern] abbrev bool (b : Bool) : Value := .lit (.bool b)

/-- The 32-bit integer of a number, modulo `2 ^ 32`. -/
def int32 (i : Int) : Value := .lit (.int32 i)

/-- Whether this is the null reference. -/
def isNull : Value → Bool
  | .null => true
  | _ => false

/-- Whether this is the absence of a value. -/
def isVoid : Value → Bool
  | .void => true
  | _ => false

/-- The truth value, if it is one. -/
def bool? : Value → Option Bool
  | .bool b => some b
  | _ => none

/-- The 32-bit integer, if it is one. -/
def int32? : Value → Option (BitVec 32)
  | .lit (.int .int32 v) => some v
  | _ => none

mutual

/-- Equality as the machine compares values: literals as values, everything else as it is. -/
def equal : Value → Value → Bool
  | .void, .void => true
  | .lit a, .lit b => a.equal b
  | .ref a, .ref b => a == b
  | .aggregate as, .aggregate bs => equalAll as bs
  | .address a, .address b => a == b
  | _, _ => false

/-- Equality of aggregates, member by member. -/
def equalAll : List Value → List Value → Bool
  | [], [] => true
  | a :: as, b :: bs => a.equal b && equalAll as bs
  | _, _ => false

end

/-! ### Names and text -/

/-- A word for the kind of a value. -/
def kindName : Value → String
  | .void => "void"
  | .null => "null"
  | .bool _ => "bool"
  | .lit (.int k _) => k.name
  | .lit (.float k _) => k.name
  | .lit (.str _) => "string"
  | .ref _ => "reference"
  | .aggregate _ => "aggregate"
  | .address _ => "address"

/-- The text of a literal as a value, without a suffix for its type. -/
def literalText : Literal → String
  | .int k v => Literal.intText k v
  | .float k v => k.text v
  | l => l.text

end Value

/-- The text of a root. -/
def Root.text : Root → String
  | .localSlot frame slot =>
    s!"Local \x7b frame: {frame}, slot: {slot.toNat} \x7d"
  | .argument frame slot =>
    s!"Arg \x7b frame: {frame}, slot: {slot.toNat} \x7d"
  | .static field => "Static(" ++ field.taggedText ++ ")"
  | .heap object => s!"Heap(ObjectId({object.number}))"
  | .captured owner index =>
    "Captured \x7b owner: " ++ owner.taggedText ++ s!", index: {index.toNat} \x7d"

/-- The text of an address. -/
def Address.text (a : Address) : String :=
  "&" ++ a.root.text ++ "[" ++ ", ".intercalate (a.path.map fun i => toString i.toNat) ++ "]"

namespace Value

mutual

/-- The text of a value. -/
def text : Value → String
  | .void => "void"
  | .lit l => literalText l
  | .ref id => id.text
  | .aggregate items => "\x7b" ++ ", ".intercalate (texts items) ++ "\x7d"
  | .address a => a.text

/-- The texts of the members of an aggregate. -/
def texts : List Value → List String
  | [] => []
  | v :: vs => v.text :: texts vs

end

/-- The zero of a primitive type. -/
def zero : Primitive → Value
  | .void => .void
  | .bool => .bool false
  | .int k => .lit (.int k 0)
  | .float k => .lit (.float k 0)

end Value

namespace Registry

/-- The value of a fresh slot, looking at most `depth` aggregates deep. -/
def defaultWithin (r : Registry) : (depth : Nat) → TypeHash → Value
  | 0, _ => .null
  | depth + 1, h =>
    match r.type? h with
    | none => .null
    | some t =>
      match t.kind with
      | .primitive p => .zero p
      | .value _ _ =>
        .aggregate ((inOrder t.instanceFields).map fun f => r.defaultWithin depth f.type.hash)
      | _ => .null

/-- The value of a fresh slot: zero for a primitive, an aggregate of defaults for a value type, the
null reference for everything else. Value types that do not contain themselves nest no deeper than
there are types. Registration does not ensure this; a value type that contains itself has no finite
default, and is cut off here with a null. -/
def defaultValue (r : Registry) (h : TypeHash) : Value := r.defaultWithin (r.types.size + 1) h

/-- The value of a fresh slot of a data type; a slot for addresses holds nothing at first. -/
def defaultSlot (r : Registry) (t : DataType) : Value :=
  if t.isByRef then .void else r.defaultValue t.hash

end Registry

end StackCode
