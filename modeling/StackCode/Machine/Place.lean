import StackCode.Machine.State

/-!
# Places

Reading and writing at addresses. A root is looked up in the state; a static field that was never
touched gets the default of its type first. The path below a root is followed through aggregates.
-/

namespace StackCode

namespace State

/-- Give a declared static field that was never touched its default. -/
def materialize (r : Registry) (s : State) : Root → State
  | .static field =>
    match s.statics[field]?, r.fieldByHash? field with
    | none, some f => { s with statics := s.statics.insert field (r.defaultValue f.type.hash) }
    | _, _ => s
  | _ => s

/-- The value at a root. A static field must be declared and materialized. -/
def root (r : Registry) (s : State) : Root → Except Fault Value
  | .localSlot frame slot =>
    match s.frame? frame >>= fun f => f.locals[slot.toNat]? with
    | some v => .ok v
    | none => .error (.invalidAddress (.localSlot frame slot))
  | .argument frame slot =>
    match s.frame? frame >>= fun f => f.args[slot.toNat]? with
    | some v => .ok v
    | none => .error (.invalidAddress (.argument frame slot))
  | .static field =>
    match r.fieldByHash? field, s.statics[field]? with
    | some _, some v => .ok v
    | _, _ => .error (.invalidAddress (.static field))
  | .heap id => (s.heap.get id).map HeapObject.value
  | .captured owner index =>
    match s.captured[owner]? >>= fun vs => vs[index.toNat]? with
    | some v => .ok v
    | none => .error (.invalidAddress (.captured owner index))

/-- Put a value at a root that has one. -/
def setRoot (s : State) (v : Value) : Root → State
  | .localSlot frame slot =>
    s.modifyFrame frame fun f => { f with locals := f.locals.setIfInBounds slot.toNat v }
  | .argument frame slot =>
    s.modifyFrame frame fun f => { f with args := f.args.setIfInBounds slot.toNat v }
  | .static field => { s with statics := s.statics.insert field v }
  | .heap id => { s with heap := s.heap.setValue id v }
  | .captured owner index =>
    { s with captured := s.captured.modify owner fun vs => vs.setIfInBounds index.toNat v }

end State

namespace Value

/-- The member of an aggregate. -/
def member (v : Value) (index : UInt16) : Except Fault Value :=
  match v with
  | .aggregate items =>
    match items[index.toNat]? with
    | some item => .ok item
    | none => .error (.indexOutOfBounds index.toNat items.length)
  | .null => .error .nullReference
  | v => .error (.mismatch "aggregate" v)

/-- The value at the end of a path. -/
def follow : Value → List UInt16 → Except Fault Value
  | v, [] => .ok v
  | v, index :: path =>
    match v.member index with
    | .ok item => item.follow path
    | .error e => .error e

/-- Replace a member of an aggregate. -/
def setMember (v : Value) (index : UInt16) (item : Value) : Value :=
  match v with
  | .aggregate items => .aggregate (items.set index.toNat item)
  | v => v

/-- Replace the value at the end of a path. -/
def replace (new : Value) : Value → List UInt16 → Except Fault Value
  | _, [] => .ok new
  | v, index :: path =>
    match v.member index with
    | .ok item => (replace new item path).map (v.setMember index)
    | .error e => .error e

end Value

namespace Exec

/-- The value at a root, which is materialized first. -/
def readRoot (root : Root) : Exec Value := do
  let r := (← read).registry
  modify fun s => s.materialize r root
  MonadExcept.ofExcept ((← get).root r root)

/-- The value at an address. -/
def fetch (a : Address) : Exec Value := do
  let v ← readRoot a.root
  MonadExcept.ofExcept (v.follow a.path)

/-- Put a value at an address. -/
def store (a : Address) (new : Value) : Exec Unit := do
  let v ← readRoot a.root
  let v ← MonadExcept.ofExcept (Value.replace new v a.path)
  modify fun s => s.setRoot v a.root

/-! ### Addresses of members -/

/-- The address of a member of an instance. -/
def memberAddress (holder : Value) (index : UInt16) : Exec Address :=
  match holder with
  | .ref id => pure ((Address.ofRoot (.heap id)).member index)
  | .address a => pure (a.member index)
  | .null => throw .nullReference
  | v => throw (.mismatch "reference or address" v)

/-- The reference that a value is. -/
def expectRef : Value → Exec ObjectId
  | .ref id => pure id
  | .null => throw .nullReference
  | v => throw (.mismatch "reference" v)

/-- The length of an array. -/
def arrayLength (id : ObjectId) : Exec Nat := do
  match (← object id).value with
  | .aggregate items => pure items.length
  | v => throw (.mismatch "array" v)

/-- The address of an element of an array. -/
def elementAddress (array index : Value) : Exec Address := do
  let id ← expectRef array
  match index.int32? with
  | none => throw (.mismatch "int32" index)
  | some i =>
    let length ← arrayLength id
    if 0 ≤ i.toInt ∧ i.toInt < 65536 ∧ i.toInt < length then
      pure ((Address.ofRoot (.heap id)).member (UInt16.ofNat i.toNat))
    else throw (.indexOutOfBounds i.toInt length)

/-- The position of a field in the layout of its owner. -/
def fieldIndex (field : TypeHash) : Exec UInt16 := do
  match (← read).registry.fieldByHash? field with
  | some f => pure f.index
  | none => throw (.unknownField field)

/-- The type of the object that a reference refers to. -/
def dynamicType : Value → Exec TypeHash
  | .ref id => return (← object id).type
  | .lit (.str _) => pure .string
  | v => throw (.mismatch "reference" v)

end Exec

end StackCode
