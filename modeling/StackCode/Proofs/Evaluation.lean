import StackCode.Context.Load
import StackCode.Machine.Run

/-!
# What symbols mean

A symbol is evaluated against a state of the machine, without any code: its parts one after the
other from left to right, storage read where it is, the operators of the machine applied to the
values. What a symbol refers to is a spot: a place of the machine, or a part of a value that is
stored nowhere.

The constant that stands for a literal in code is given by a function `κ`. It is the literal itself,
except that code keeps one constant for floating-point numbers that compare equal.
-/

namespace StackCode

variable {r : Registry} {h : TypeHash} {v : Value}

/-- Where something is: at a place of the machine, or below a value in hand. -/
inductive Spot
  | place (a : Address)
  | inHand (v : Value) (path : List UInt16)
  deriving DecidableEq, Repr

namespace Spot

/-- A member of the aggregate at a spot. -/
def member : Spot → UInt16 → Spot
  | .place a, index => .place (a.member index)
  | .inHand v path, index => .inHand v (path ++ [index])

/-- What is at a spot. -/
def fetch : Spot → Exec Value
  | .place a => Exec.fetch a
  | .inHand v path => MonadExcept.ofExcept (v.follow path)

end Spot

namespace Exec

/-- The value behind an address. -/
def deref : Value → Exec Value
  | .address a => fetch a
  | v => throw (.mismatch "address" v)

/-- The value in a new box. -/
def boxed (type : TypeHash) (v : Value) : Exec Value := return .ref (← alloc type v)

/-- The value in a box of the given type. -/
def unboxed (target : TypeHash) (v : Value) : Exec Value := do
  let id ← expectRef v
  let o ← object id
  let r := (← read).registry
  if o.type ≠ target then throw (.invalidCast (r.typeName o.type) (r.typeName target))
  return o.value

/-- A reference that is null or refers to an object of the given type. -/
def castTo (target : TypeHash) (v : Value) : Exec Value := do
  if !v.isNull then
    let actual ← dynamicType v
    let r := (← read).registry
    if !r.assignable actual target then
      throw (.invalidCast (r.typeName actual) (r.typeName target))
  return v

end Exec

/-- The value of an operator with two operands. -/
def BinaryOp.apply : BinaryOp → Value → Value → Except Fault Value
  | .arith op, a, b => Value.arith op a b
  | .compare op, a, b => (Value.compare op a b).map Value.bool

/-- The value of an operator with one operand. -/
def UnaryOp.apply : UnaryOp → Value → Except Fault Value
  | .neg, v => v.negate
  | .not, v => v.complement

/-- A converted value, where no function is called for it. -/
def ConversionRule.apply : ConversionRule → Value → Exec Value
  | .identity, v => pure v
  | .box h, v => Exec.boxed h v
  | .unbox h, v => Exec.unboxed h v
  | .cast h, v => Exec.castTo h v
  | .operator f _ _, _ | .constructor f, _ => throw (.unknownFunction f)

namespace Symbol

/-- The value of a symbol that is at a spot: a by-reference symbol holds the address of its
value. -/
def valueAt (s : Symbol) (spot : Exec Spot) : Exec Value := do
  let w ← (← spot).fetch
  if s.dataType.isByRef then Exec.deref w else pure w

/-- Where a symbol is. A field of a value type is where its instance is, or behind the address of
its instance; a field of another type is in the object that its instance refers to. -/
def spot (κ : Literal → Literal) : Symbol → Exec Spot
  | .localSlot _ slot _ => do return .place (.ofRoot (.localSlot (← Exec.level) slot))
  | .argument _ slot _ => do return .place (.ofRoot (.argument (← Exec.level) slot))
  | .field _ holder f => do
    if (← read).registry.isValueType holder.valueType.hash then
      if holder.dataType.isByRef then
        let w ← (← holder.spot κ).fetch
        return .place (← Exec.memberAddress w f.index)
      else return (← holder.spot κ).member f.index
    else
      let w ← holder.valueAt (holder.spot κ)
      return .place (← Exec.memberAddress w f.index)
  | .staticField _ f => return .place (.ofRoot (.static f.hash))
  | .element _ array index _ => do
    let a ← array.valueAt (array.spot κ)
    let i ← index.valueAt (index.spot κ)
    return .place (← Exec.elementAddress a i)
  | .captured _ id => return .place (.ofRoot (.captured id.owner id.index))
  | .literal _ l => return .inHand (.lit (κ l)) []
  | .binary _ op lhs rhs _ => do
    let a ← lhs.valueAt (lhs.spot κ)
    let b ← rhs.valueAt (rhs.spot κ)
    return .inHand (← MonadExcept.ofExcept (op.apply a b)) []
  | .unary _ op operand _ => do
    let v ← operand.valueAt (operand.spot κ)
    return .inHand (← MonadExcept.ofExcept (op.apply v)) []
  | .arrayLength _ array => do
    let v ← array.valueAt (array.spot κ)
    let id ← Exec.expectRef v
    return .inHand (.int32 (← Exec.arrayLength id)) []
  | .converted _ source k => do
    let v ← source.valueAt (source.spot κ)
    return .inHand (← k.rule.apply v) []
  | .call _ f _ | .callOn _ f _ _ | .construct _ f _ _ => throw (.unknownFunction f.hash)
  | .newArray _ type _ => throw (.unknownFunction type)

/-- What a symbol holds. By-reference symbols hold addresses. -/
def held (κ : Literal → Literal) (s : Symbol) : Exec Value := do (← s.spot κ).fetch

/-- The value that a symbol stands for. -/
def value (κ : Literal → Literal) (s : Symbol) : Exec Value := s.valueAt (s.spot κ)

theorem value_eq (κ : Literal → Literal) (s : Symbol) :
    s.value κ = s.held κ >>= fun w => if s.dataType.isByRef then Exec.deref w else pure w := by
  simp only [value, valueAt, held, bind_assoc]

/-- Symbols that are evaluated without calls. Literals are of a given sort, boxing is allowed or
not. -/
def Evaluable (literals : Literal → Prop) (boxing : Prop) : Symbol → Prop
  | .localSlot _ _ _ | .argument _ _ _ | .staticField _ _ | .captured _ _ => True
  | .literal _ l => literals l
  | .field _ s _ | .unary _ _ s _ | .arrayLength _ s => s.Evaluable literals boxing
  | .element _ s s' _ | .binary _ _ s s' _ =>
    s.Evaluable literals boxing ∧ s'.Evaluable literals boxing
  | .converted _ s k => s.Evaluable literals boxing ∧ match k.rule with
    | .identity | .unbox _ | .cast _ => True
    | .box _ => boxing
    | .operator _ _ _ | .constructor _ => False
  | .call _ _ _ | .callOn _ _ _ _ | .construct _ _ _ _ | .newArray _ _ _ => False

end Symbol

/-! ### Types of values -/

/-- The values of a primitive type. -/
def Primitive.Admits : Primitive → Value → Prop
  | .void, v => v = .void
  | .bool, v => ∃ b, v = .bool b
  | .int k, v => ∃ x, v = .lit (.int k x)
  | .float k, v => ∃ x, v = .lit (.float k x)

/-- A value is one of a type, as far as can be seen from the value alone. Of types that are not
registered nothing is known. -/
def Registry.Admits (r : Registry) (h : TypeHash) (v : Value) : Prop := match r.kind? h with
  | some (.primitive p) => p.Admits v
  | some (.value _ _) => ∃ items, v = .aggregate items
  | some .reference | some .object | some (.array _) =>
    v = .null ∨ (∃ text, v = .lit (.str text)) ∨ ∃ id, v = .ref id
  | none => True

theorem Registry.admits_reference (hh : r.isReferenceType h = true) :
    r.Admits h v ↔ v = .null ∨ (∃ text, v = .lit (.str text)) ∨ ∃ id, v = .ref id := by
  unfold Registry.Admits
  unfold Registry.isReferenceType at hh
  cases hkind : r.kind? h with
  | none => simp [hkind] at hh
  | some kind =>
    cases kind with
    | primitive | value => simp [hkind, TypeKind.isReferenceType, TypeKind.isValueType] at hh
    | reference | object | array _ => exact Iff.rfl

theorem Registry.admits_aggregate (hh : r.isAggregate h = true) :
    r.Admits h v ↔ ∃ items, v = .aggregate items := by
  unfold Registry.Admits
  unfold Registry.isAggregate at hh
  cases hkind : r.kind? h with
  | none => simp [hkind] at hh
  | some kind =>
    cases kind with
    | value => exact Iff.rfl
    | primitive | reference | object | array _ => simp [hkind, TypeKind.isAggregate] at hh

/-- How values are accepted when they are moved through an address. -/
def Indirect.accepts : Indirect → Value → String × Bool
  | .scalar w => w.accepts
  | .block _ => Value.acceptedAsBlock

/-- A load for a type accepts the values of the type. -/
theorem Indirect.accepts_of_admits {k : Indirect} (hk : ofType r h = .ok k) (hv : r.Admits h v) :
    (k.accepts v).2 = true := by
  unfold ofType at hk
  unfold Registry.Admits at hv
  cases hkind : r.kind? h with
  | none =>
    rw [hkind] at hk
    cases hk
  | some kind =>
    rw [hkind] at hk hv
    cases kind with
    | primitive q =>
      cases q with
      | void => cases hk
      | bool =>
        cases hk
        obtain ⟨b, rfl⟩ := hv
        rfl
      | int n =>
        cases hk
        obtain ⟨x, rfl⟩ := hv
        cases n <;> rfl
      | float n =>
        obtain ⟨x, rfl⟩ := hv
        cases n <;> (cases hk; rfl)
    | value size align =>
      cases hk
      obtain ⟨items, rfl⟩ := hv
      rfl
    | reference | object | array _ =>
      cases hk
      rcases hv with rfl | ⟨text, rfl⟩ | ⟨id, rfl⟩ <;> rfl

/-- What comes of a computation, if it ends without fault. -/
def Exec.After {α : Type} (p : Program) (x : Exec α) (s : State) (Q : α → State → Prop) : Prop :=
  ∀ a s', x.exec p s = (.ok a, s') → Q a s'

namespace Symbol

variable (κ : Literal → Literal) (p : Program)

/-- In a state a symbol has a value of its type; a by-reference symbol holds no aggregate itself. -/
def HasType (s : Symbol) (st : State) : Prop :=
  (s.value κ).After p st (fun v _ => p.registry.Admits s.valueType.hash v) ∧
    (s.dataType.isByRef → (s.held κ).After p st fun w _ => ∀ items, w ≠ .aggregate items)

/-- A state is well typed for a symbol: every part has a value of its type when its turn comes. -/
def Typed : Symbol → State → Prop
  | .field c holder f, st => holder.Typed st ∧ HasType κ p (.field c holder f) st
  | .element c array index t, st =>
    array.Typed st ∧ (array.value κ).After p st (fun _ st' => index.Typed st') ∧
      HasType κ p (.element c array index t) st
  | .binary c op lhs rhs t, st =>
    lhs.Typed st ∧ (lhs.value κ).After p st (fun _ st' => rhs.Typed st') ∧
      HasType κ p (.binary c op lhs rhs t) st
  | .unary c op operand t, st => operand.Typed st ∧ HasType κ p (.unary c op operand t) st
  | .arrayLength c array, st => array.Typed st ∧ HasType κ p (.arrayLength c array) st
  | .converted c source k, st => source.Typed st ∧ HasType κ p (.converted c source k) st
  | s, st => HasType κ p s st

variable {κ p}

theorem Typed.hasType {s : Symbol} {st : State} (h : s.Typed κ p st) : s.HasType κ p st := by
  cases s with
  | field | unary | arrayLength | converted => exact h.2
  | element | binary => exact h.2.2
  | _ => exact h

end Symbol

end StackCode
