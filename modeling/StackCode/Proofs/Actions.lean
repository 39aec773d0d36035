import StackCode.Proofs.Execution
import StackCode.Proofs.Factories

/-!
# What instructions do with their operands

An instruction pops a fixed number of operands. What it does then depends on these operands, on the
heap and on the program, and it is one of a few actions: it pushes values, it reads or writes at a
root or at an address, it allocates an object, it calls, or it jumps.
-/

namespace StackCode

open List State Value Registry

variable {α β : Type} {ws vs : List Value} {s : State} {f : Frame} {rest : List Frame}
  {offset : Nat}
  {y : Except Fault Unit × State}

/-! ### Actions -/

/-- What an instruction does when its operands are popped. -/
inductive Action
  /-- Push values, the first of them on top. -/
  | push (values : List Value)
  | get (root : Root)
  | set (root : Root) (value : Value)
  /-- Push the value at an address, if it is accepted. -/
  | load (place : Address) (accepts : Value → String × Bool)
  | store (place : Address) (value : Value)
  | copy (source target : Address)
  /-- Allocate an object and push the reference. -/
  | alloc (type : TypeHash) (value : Value)
  /-- Call a native function and push its result, also if there is none for a constructor. -/
  | native (f : Native) (args : List Value) (constructs : Bool)
  | enter (function : TypeHash) (args : List Value)
  /-- Make an instance of a type and call a constructor on it. -/
  | construct (owner function : TypeHash) (args : List Value)
  | goto (offset : Nat)

/-- Any value is accepted. -/
def acceptAll : Value → String × Bool := fun _ => ("", true)

namespace Exec

/-- Call a constructor on a fresh instance, or on a cell for an instance that is no reference. -/
def constructOn (owner function : TypeHash) (args : List Value) : Exec Unit := do
  match ← instantiate owner with
  | .ref id => enter function (.ref id :: args) (.built (.ref id))
  | v =>
    let id ← alloc owner v
    enter function (.address (.ofRoot (.heap id)) :: args) (.cell id)

end Exec

/-- What an action does to a state. -/
def Action.perform : Action → Exec Unit
  | .push values => modify fun s => s.modifyTop fun f => { f with stack := values ++ f.stack }
  | .get root => do Exec.push (← Exec.fetch (.ofRoot root))
  | .set root v => Exec.store (.ofRoot root) v
  | .load place accepts => do
    let v ← Exec.fetch place
    Exec.checkWidth (accepts v) v
    Exec.push v
  | .store place v => Exec.store place v
  | .copy source target => do
    let v ← Exec.fetch source
    Exec.checkWidth v.acceptedAsBlock v
    Exec.store target v
  | .alloc type v => do Exec.push (.ref (← Exec.alloc type v))
  | .native f args constructs => do
    let v ← Exec.callNative f args
    if constructs then Exec.push v else Exec.pushResult v
  | .enter function args => Exec.enter function args .caller
  | .construct owner function args => Exec.constructOn owner function args
  | .goto offset => Exec.goto offset

/-! ### Operands -/

namespace Value

/-- The address that a value is. -/
def address? : Value → Except Fault Address
  | .address a => .ok a
  | v => .error (.mismatch "address" v)

/-- The object that a value refers to. -/
def object? : Value → Except Fault ObjectId
  | .ref id => .ok id
  | .null => .error .nullReference
  | v => .error (.mismatch "reference" v)

/-- The address of a member of an instance. -/
def memberAddress? (index : UInt16) : Value → Except Fault Address
  | .ref id => .ok ((Address.ofRoot (.heap id)).member index)
  | .address a => .ok (a.member index)
  | .null => .error .nullReference
  | v => .error (.mismatch "reference or address" v)

/-- The member of an aggregate, if the value is one and has it. -/
def item? (index : UInt16) : Value → Option Value
  | .aggregate items => items[index.toNat]?
  | _ => none

end Value

namespace Heap

/-- The length of an array on the heap. -/
def arrayLength (heap : Heap) (id : ObjectId) : Except Fault Nat := do
  match (← heap.get id).value with
  | .aggregate items => pure items.length
  | v => throw (.mismatch "array" v)

/-- The address of an element of an array. -/
def elementAddress (heap : Heap) (array index : Value) : Except Fault Address := do
  let id ← array.object?
  match index.int32? with
  | none => throw (.mismatch "int32" index)
  | some i =>
    let length ← heap.arrayLength id
    if 0 ≤ i.toInt ∧ i.toInt < 65536 ∧ i.toInt < length then
      pure ((Address.ofRoot (.heap id)).member (UInt16.ofNat i.toNat))
    else throw (.indexOutOfBounds i.toInt length)

/-- The type of the object that a reference refers to. -/
def dynamicType (heap : Heap) : Value → Except Fault TypeHash
  | .ref id => return (← heap.get id).type
  | .lit (.str _) => pure .string
  | v => throw (.mismatch "reference" v)

end Heap

namespace Registry

/-- The position of a field in the layout of its owner. -/
def fieldIndex (r : Registry) (field : TypeHash) : Except Fault UInt16 :=
  match r.fieldByHash? field with
  | some f => .ok f.index
  | none => .error (.unknownField field)

/-- The value in a box, if it is of the given type. -/
def unboxed (r : Registry) (target : TypeHash) (o : HeapObject) : Except Fault Value :=
  if o.type ≠ target then .error (.invalidCast (r.typeName o.type) (r.typeName target))
  else .ok o.value

/-- Push a reference, if it is null or refers to an object of the given type. -/
def castAction (r : Registry) (heap : Heap) (target : TypeHash) (v : Value) : Except Fault Action :=
  if v.isNull then .ok (.push [v])
  else do
    let actual ← heap.dynamicType v
    if r.assignable actual target then .ok (.push [v])
    else .error (.invalidCast (r.typeName actual) (r.typeName target))

/-- The elements of a fresh array. -/
def elements (r : Registry) (element : TypeHash) (length : Value) : Except Fault (List Value) :=
  match length.int32? with
  | none => .error (.indexOutOfBounds (-1) 0)
  | some n =>
    if n.toInt < 0 then .error (.indexOutOfBounds n.toInt 0)
    else .ok (List.replicate n.toNat (r.defaultValue element))

end Registry

namespace Method

/-- The hash that the operand of an instruction refers to. -/
def hashAt (m : Method) (i : Instr) : Except Fault TypeHash :=
  match m.constants.typeHash? i.operand with
  | some h => .ok h
  | none => .error (.invalidBytecode i.offset)

/-- The literal that the operand of an instruction refers to. -/
def literalAt (m : Method) (i : Instr) : Except Fault Literal :=
  match m.constants.literal? i.operand with
  | some l => .ok l
  | none => .error (.invalidBytecode i.offset)

/-- The root of a captured value of the method's owner. -/
def capturedAt (m : Method) (i : Instr) : Except Fault Root := match m.function.owner with
  | some owner => .ok (.captured owner (UInt16.ofNat i.operand))
  | none => .error (.invalidBytecode i.offset)

end Method

/-- The value, unless it is refused. -/
def Value.accepted (v : Value) (accepts : Value → String × Bool) : Except Fault Value :=
  if (accepts v).2 then .ok v else .error (.mismatch (accepts v).1 v)

namespace Access

/-- The number of values that an access pops. -/
def pops : Access → Nat
  | .get | .address => 0
  | .set => 1

/-- An access to a root, with the value to be stored. -/
def onRoot (root : Root) (v : Value) : Access → Action
  | .get => .get root
  | .set => .set root v
  | .address => .push [.address (.ofRoot root)]

/-- An access to a place, with the value to be stored. -/
def onPlace (place : Address) (v : Value) : Access → Action
  | .get => .load place acceptAll
  | .set => .store place v
  | .address => .push [.address place]

/-- An access to a member of an instance, with the value to be stored. The value of a field can also
be taken out of an aggregate. -/
def onField (index : UInt16) (holder v : Value) (a : Access) : Except Fault Action :=
  match a, holder.item? index with
  | .get, some item => .ok (.push [item])
  | _, _ => return a.onPlace (← holder.memberAddress? index) v

end Access

namespace Program

/-- The action of a call: of a native function, or into a method. -/
def callAction (p : Program) (function : TypeHash) (args : List Value) : Action :=
  match p.natives[function]? with
  | some native => .native native args false
  | none => .enter function args

/-- The construction of an instance. -/
def constructAction (p : Program) (function : TypeHash) (args : List Value) : Except Fault Action :=
  match p.natives[function]? with
  | some native => .ok (.native native args true)
  | none =>
    match p.registry.function? function >>= FunctionDecl.owner with
    | some owner => .ok (.construct owner function args)
    | none => .error (.unknownFunction function)

end Program

/-- A jump if a truth value is the expected one. -/
def Value.branch (v : Value) (expected : Bool) (target : Nat) : Except Fault Action :=
  match v.bool? with
  | none => .error (.mismatch "bool" v)
  | some b => .ok (if b = expected then .goto target else .push [])

namespace Instr

/-- The number of operands that an instruction pops. The result of a method is popped by the call
that ends. -/
def pops (i : Instr) : Nat := match i.op with
  | .constant _ | .pushNull | .pushBool _ | .nop | .loadCaptured | .capturedAddress | .jump
  | .ret | .retVoid => 0
  | .localSlot _ a | .argument a | .staticField a => a.pops
  | .field a => a.pops + 1
  | .element a => a.pops + 2
  | .pop | .dup | .newArray | .arrayLength | .loadIndirect _ | .loadObject | .box | .unbox | .cast
  | .neg | .not | .jumpIf _ => 1
  | .swap | .storeIndirect _ | .storeObject | .copyObject | .arith _ | .compare _ => 2
  | .new | .call => i.argc
  | .callMethod => i.argc + 1

/-- What an instruction does with its operands, the top first, in the frame with a given number. -/
def action (p : Program) (m : Method) (i : Instr) (heap : Heap) (level : Nat) (us : List Value) :
    Except Fault Action :=
  let a := us.getD 0 .void
  let b := us.getD 1 .void
  let c := us.getD 2 .void
  match i.op with
  | .constant _ => do return .push [.lit (← m.literalAt i)]
  | .pushNull => return .push [.null]
  | .pushBool x => return .push [.bool x]
  | .nop | .pop | .ret | .retVoid => return .push []
  | .dup => return .push [a, a]
  | .swap => return .push [b, a]
  | .localSlot _ x => return x.onRoot (.localSlot level (UInt16.ofNat i.operand)) a
  | .argument x => return x.onRoot (.argument level (UInt16.ofNat i.operand)) a
  | .staticField x => do return x.onRoot (.static (← m.hashAt i)) a
  | .field x => do x.onField (← p.registry.fieldIndex (← m.hashAt i)) a b
  | .element x => do
    let place ← heap.elementAddress b a
    return x.onPlace place c
  | .newArray => do
    let element ← m.hashAt i
    return .alloc (.arrayOf element) (.aggregate (← p.registry.elements element a))
  | .arrayLength => do return .push [.int32 (← heap.arrayLength (← a.object?))]
  | .loadCaptured => do return .get (← m.capturedAt i)
  | .capturedAddress => do return .push [.address (.ofRoot (← m.capturedAt i))]
  | .loadIndirect w => do return .load (← a.address?) w.accepts
  | .loadObject => do return .load (← a.address?) Value.acceptedAsBlock
  | .storeIndirect w => do return .store (← b.address?) (← a.accepted w.accepts)
  | .storeObject => do return .store (← b.address?) (← a.accepted Value.acceptedAsBlock)
  | .copyObject => do return .copy (← a.address?) (← b.address?)
  | .box => do return .alloc (← m.hashAt i) a
  | .unbox => do
    let target ← m.hashAt i
    return .push [← p.registry.unboxed target (← heap.get (← a.object?))]
  | .cast => do p.registry.castAction heap (← m.hashAt i) a
  | .new => do p.constructAction (← m.hashAt i) us.reverse
  | .call => do return p.callAction (← m.hashAt i) us.reverse
  | .callMethod => do
    let receiver := us.getLastD .void
    if receiver.isNull then throw .nullReference
    return p.callAction (← m.hashAt i) us.reverse
  | .arith op => do return .push [← Value.arith op b a]
  | .neg => do return .push [← a.negate]
  | .not => do return .push [← a.complement]
  | .compare op => do return .push [.bool (← Value.compare op b a)]
  | .jump => return .goto i.operand
  | .jumpIf x => a.branch x i.operand

end Instr

/-! ### What operands have to be -/

namespace Value

theorem address?_eq_ok {v : Value} {a : Address} (h : v.address? = .ok a) : v = .address a := by
  cases v <;> cases h
  rfl

theorem object?_eq_ok {v : Value} {id : ObjectId} (h : v.object? = .ok id) : v = .ref id := by
  cases v with
  | ref id' =>
    cases h
    rfl
  | lit l => cases l <;> cases h
  | _ => cases h

theorem memberAddress?_eq_ok {v : Value} {index : UInt16} {a : Address}
    (h : v.memberAddress? index = .ok a) :
    (∃ id, v = .ref id ∧ a = (Address.ofRoot (.heap id)).member index) ∨
      ∃ b, v = .address b ∧ a = b.member index := by
  cases v with
  | ref id =>
    cases h
    exact .inl ⟨id, rfl, rfl⟩
  | address b =>
    cases h
    exact .inr ⟨b, rfl, rfl⟩
  | lit l => cases l <;> cases h
  | _ => cases h

theorem item?_eq_some {v item : Value} {index : UInt16} (h : v.item? index = some item) :
    ∃ items, v = .aggregate items ∧ items[index.toNat]? = some item := by
  cases v with
  | aggregate items => exact ⟨items, rfl, h⟩
  | _ => cases h

theorem accepted_eq_ok {v w : Value} {accepts : Value → String × Bool}
    (h : v.accepted accepts = .ok w) :
    w = v ∧ (accepts v).2 = true := by
  unfold accepted at h
  split at h
  · rename_i hacc
    cases h
    exact ⟨rfl, hacc⟩
  · cases h

theorem branch_eq_ok {v : Value} {expected : Bool} {target : Nat} {a : Action}
    (h : v.branch expected target = .ok a) : a = .goto target ∨ a = .push [] := by
  unfold branch at h
  split at h <;> cases h
  split
  · exact .inl rfl
  · exact .inr rfl

end Value

theorem Heap.elementAddress_eq_ok {heap : Heap} {array index : Value} {a : Address}
    (h : heap.elementAddress array index = .ok a) :
    ∃ id n, array = .ref id ∧ a = (Address.ofRoot (.heap id)).member n := by
  obtain ⟨id, hid, h⟩ := bind_eq_ok h
  split at h
  · cases h
  · obtain ⟨length, -, h⟩ := bind_eq_ok h
    split at h <;> cases h
    exact ⟨id, _, object?_eq_ok hid, rfl⟩

namespace Registry

variable {r : Registry}

theorem unboxed_eq_ok {target : TypeHash} {o : HeapObject} {v : Value}
    (h : r.unboxed target o = .ok v) : v = o.value ∧ o.type = target := by
  unfold unboxed at h
  split at h
  · cases h
  · rename_i htype
    cases h
    exact ⟨rfl, not_not.mp htype⟩

/-- A cast leaves a value as it is: null, or one with a type of its own that is assignable. -/
theorem castAction_eq_ok {heap : Heap} {target : TypeHash} {v : Value} {a : Action}
    (h : r.castAction heap target v = .ok a) : a = .push [v] ∧
      (v.isNull ∨ ∃ actual, heap.dynamicType v = .ok actual ∧ r.assignable actual target) := by
  unfold castAction at h
  split at h
  · rename_i hnull
    cases h
    exact ⟨rfl, .inl hnull⟩
  · obtain ⟨actual, hactual, h⟩ := bind_eq_ok h
    split at h <;> cases h
    exact ⟨rfl, .inr ⟨actual, hactual, ‹_›⟩⟩

theorem elements_eq_ok {element : TypeHash} {length : Value} {items : List Value}
    (h : r.elements element length = .ok items) :
    ∃ n, items = List.replicate n (r.defaultValue element) := by
  unfold elements at h
  split at h
  · cases h
  · split at h <;> cases h
    exact ⟨_, rfl⟩

end Registry

/-- A field is taken out of an aggregate, or it is accessed at its place. -/
theorem Access.onField_eq_ok {x : Access} {index : UInt16} {holder v : Value} {a : Action}
    (h : x.onField index holder v = .ok a) :
    (∃ item, x = .get ∧ holder.item? index = some item ∧ a = .push [item]) ∨
      ∃ place, holder.memberAddress? index = .ok place ∧ a = x.onPlace place v := by
  unfold onField at h
  split at h
  · rename_i item hitem
    cases h
    exact .inl ⟨item, rfl, hitem, rfl⟩
  · obtain ⟨place, hplace, h⟩ := bind_eq_ok h
    cases h
    exact .inr ⟨place, hplace, rfl⟩

/-- A call is one of a native function or enters a method. -/
theorem Program.callAction_cases (p : Program) (function : TypeHash) (args : List Value) :
    (∃ native, p.natives[function]? = some native ∧
      p.callAction function args = .native native args false) ∨
    p.natives[function]? = none ∧ p.callAction function args = .enter function args := by
  unfold callAction
  cases p.natives[function]? with
  | some native => exact .inl ⟨native, rfl, rfl⟩
  | none => exact .inr ⟨rfl, rfl⟩

theorem Program.constructAction_eq_ok {p : Program} {function : TypeHash} {args : List Value}
    {a : Action} (h : p.constructAction function args = .ok a) :
    (∃ native, p.natives[function]? = some native ∧ a = .native native args true) ∨
    p.natives[function]? = none ∧ ∃ f owner, p.registry.function? function = some f ∧
      f.owner = some owner ∧ a = .construct owner function args := by
  unfold constructAction at h
  cases hnative : p.natives[function]? with
  | some native =>
    rw [hnative] at h
    cases h
    exact .inl ⟨native, rfl, rfl⟩
  | none =>
    rw [hnative] at h
    dsimp only at h
    split at h <;> cases h
    rename_i owner howner
    obtain ⟨f, hf, howner⟩ := Option.bind_eq_some_iff.mp howner
    exact .inr ⟨rfl, f, owner, hf, howner, rfl⟩

theorem Method.hashAt_of_typeHash {m : Method} {i : Instr} {h : TypeHash}
    (hh : m.constants.typeHash? i.operand = some h) : m.hashAt i = .ok h := by
  rw [hashAt, hh]

namespace Instr

variable (p : Program) (m : Method) (i : Instr) (heap : Heap) (level : Nat) (us : List Value)

/-- The actions of instructions, with what their operands have to be. -/
inductive Acts : Opcode → Action → Prop
  | constant {wide l} (hl : m.literalAt i = .ok l) : Acts (.constant wide) (.push [.lit l])
  | pushNull : Acts .pushNull (.push [.null])
  | pushBool {b} : Acts (.pushBool b) (.push [.bool b])
  | nop : Acts .nop (.push [])
  | pop : Acts .pop (.push [])
  | ret : Acts .ret (.push [])
  | retVoid : Acts .retVoid (.push [])
  | dup : Acts .dup (.push [us.getD 0 .void, us.getD 0 .void])
  | swap : Acts .swap (.push [us.getD 1 .void, us.getD 0 .void])
  | localSlot {wide x} : Acts (.localSlot wide x)
      (x.onRoot (.localSlot level (UInt16.ofNat i.operand)) (us.getD 0 .void))
  | argument {x} : Acts (.argument x) (x.onRoot (.argument level (UInt16.ofNat i.operand))
    (us.getD 0 .void))
  | staticField {x h} (hh : m.hashAt i = .ok h) : Acts (.staticField x)
    (x.onRoot (.static h) (us.getD 0 .void))
  | field {x h index a} (hh : m.hashAt i = .ok h) (hindex : p.registry.fieldIndex h = .ok index)
      (ha : x.onField index (us.getD 0 .void) (us.getD 1 .void) = .ok a) : Acts (.field x) a
  | element {x place} (hplace : heap.elementAddress (us.getD 1 .void) (us.getD 0 .void) =
    .ok place) :
      Acts (.element x) (x.onPlace place (us.getD 2 .void))
  | newArray {h n} (hh : m.hashAt i = .ok h) : Acts .newArray
      (.alloc (.arrayOf h) (.aggregate (List.replicate n (p.registry.defaultValue h))))
  | arrayLength {n} : Acts .arrayLength (.push [.int32 n])
  | loadCaptured {root} (hroot : m.capturedAt i = .ok root) : Acts .loadCaptured (.get root)
  | capturedAddress {root} (hroot : m.capturedAt i = .ok root) :
      Acts .capturedAddress (.push [.address (.ofRoot root)])
  | loadIndirect {w place} (hplace : us.getD 0 .void = .address place) :
      Acts (.loadIndirect w) (.load place w.accepts)
  | loadObject {place} (hplace : us.getD 0 .void = .address place) :
      Acts .loadObject (.load place Value.acceptedAsBlock)
  | storeIndirect {w place} (hplace : us.getD 1 .void = .address place)
      (haccepts : (w.accepts (us.getD 0 .void)).2 = true) :
      Acts (.storeIndirect w) (.store place (us.getD 0 .void))
  | storeObject {place} (hplace : us.getD 1 .void = .address place)
      (haccepts : (us.getD 0 .void).acceptedAsBlock.2 = true) :
      Acts .storeObject (.store place (us.getD 0 .void))
  | copyObject {source target} (hsource : us.getD 0 .void = .address source)
      (htarget : us.getD 1 .void = .address target) : Acts .copyObject (.copy source target)
  | box {h} (hh : m.hashAt i = .ok h) : Acts .box (.alloc h (us.getD 0 .void))
  | unbox {id o} (hh : m.hashAt i = .ok o.type) (ho : heap.get id = .ok o) : Acts .unbox
    (.push [o.value])
  | cast {h} (hh : m.hashAt i = .ok h) (hcast : (us.getD 0 .void).isNull ∨
      ∃ actual, heap.dynamicType (us.getD 0 .void) = .ok actual ∧ p.registry.assignable actual h) :
      Acts .cast (.push [us.getD 0 .void])
  | new {h a} (hh : m.hashAt i = .ok h) (ha : p.constructAction h us.reverse = .ok a) : Acts .new a
  | call {h} (hh : m.hashAt i = .ok h) : Acts .call (p.callAction h us.reverse)
  | callMethod {h} (hh : m.hashAt i = .ok h) : Acts .callMethod (p.callAction h us.reverse)
  | arith {op v} (hv : Value.arith op (us.getD 1 .void) (us.getD 0 .void) = .ok v) : Acts
    (.arith op) (.push [v])
  | neg {v} (hv : (us.getD 0 .void).negate = .ok v) : Acts .neg (.push [v])
  | not {v} (hv : (us.getD 0 .void).complement = .ok v) : Acts .not (.push [v])
  | compare {op b} : Acts (.compare op) (.push [.bool b])
  | jump : Acts .jump (.goto i.operand)
  | jumpIf {x} : Acts (.jumpIf x) (.goto i.operand)
  | fall {x} : Acts (.jumpIf x) (.push [])

variable {p m i heap level us}

theorem acts {a : Action} (h : i.action p m heap level us = .ok a) :
    Acts p m i heap level us i.op a := by
  unfold action at h
  cases hop : i.op with rw [hop] at h
  | pushNull | pushBool | nop | pop | ret | retVoid | dup | swap | localSlot | argument | jump =>
    cases h
    constructor
  | constant | staticField | loadCaptured | capturedAddress | box | call | arith | neg | not =>
    obtain ⟨_, hread, h⟩ := bind_eq_ok h
    cases h
    constructor
    exact hread
  | compare =>
    obtain ⟨b, -, h⟩ := bind_eq_ok h
    cases h
    exact .compare
  | field =>
    obtain ⟨_, hh, h⟩ := bind_eq_ok h
    obtain ⟨_, hidx, h⟩ := bind_eq_ok h
    exact .field hh hidx h
  | element =>
    obtain ⟨_, hplace, h⟩ := bind_eq_ok h
    cases h
    exact .element hplace
  | newArray =>
    obtain ⟨_, hh, h⟩ := bind_eq_ok h
    obtain ⟨_, hitems, h⟩ := bind_eq_ok h
    cases h
    obtain ⟨n, rfl⟩ := elements_eq_ok hitems
    exact .newArray hh
  | arrayLength =>
    obtain ⟨_, -, h⟩ := bind_eq_ok h
    obtain ⟨_, -, h⟩ := bind_eq_ok h
    cases h
    exact .arrayLength
  | loadIndirect | loadObject =>
    obtain ⟨_, hplace, h⟩ := bind_eq_ok h
    cases h
    constructor
    exact address?_eq_ok hplace
  | storeIndirect | storeObject =>
    obtain ⟨_, hplace, h⟩ := bind_eq_ok h
    obtain ⟨_, hacc, h⟩ := bind_eq_ok h
    cases h
    obtain ⟨rfl, haccepts⟩ := accepted_eq_ok hacc
    constructor
    · exact address?_eq_ok hplace
    · exact haccepts
  | copyObject =>
    obtain ⟨_, hsrc, h⟩ := bind_eq_ok h
    obtain ⟨_, htgt, h⟩ := bind_eq_ok h
    cases h
    exact .copyObject (address?_eq_ok hsrc) (address?_eq_ok htgt)
  | unbox =>
    obtain ⟨_, hh, h⟩ := bind_eq_ok h
    obtain ⟨_, -, h⟩ := bind_eq_ok h
    obtain ⟨_, ho, h⟩ := bind_eq_ok h
    obtain ⟨_, hv, h⟩ := bind_eq_ok h
    cases h
    obtain ⟨rfl, rfl⟩ := unboxed_eq_ok hv
    exact .unbox hh ho
  | cast =>
    obtain ⟨_, hh, h⟩ := bind_eq_ok h
    obtain ⟨rfl, hcast⟩ := castAction_eq_ok h
    exact .cast hh hcast
  | new =>
    obtain ⟨_, hh, h⟩ := bind_eq_ok h
    exact .new hh h
  | callMethod =>
    dsimp only at h
    split at h
    · cases h
    · obtain ⟨_, hh, h⟩ := bind_eq_ok h
      cases h
      exact .callMethod hh
  | jumpIf =>
    rcases branch_eq_ok h with rfl | rfl
    · exact .jumpIf
    · exact .fall

end Instr

/-! ### Computations that agree -/

/-- Heap, static fields and captured values are the same, and so are the frames below the
innermost. -/
structure State.SameStorage (s t : State) : Prop where
  heap : s.heap = t.heap
  statics : s.statics = t.statics
  captured : s.captured = t.captured
  depth : s.depth = t.depth
  callers : s.frames.tail = t.frames.tail

theorem State.SameStorage.refl (s : State) : s.SameStorage s := ⟨rfl, rfl, rfl, rfl, rfl⟩

theorem State.SameStorage.trans {t u : State} (h : s.SameStorage t) (h' : t.SameStorage u) :
    s.SameStorage u :=
  ⟨h.heap.trans h'.heap, h.statics.trans h'.statics, h.captured.trans h'.captured,
    h.depth.trans h'.depth, h.callers.trans h'.callers⟩

/-- Two outcomes are the same; after a fault the innermost frame does not matter. -/
def Agrees {α : Type} : Except Fault α × State → Except Fault α × State → Prop
  | (.ok a, s), (.ok b, t) => a = b ∧ s = t
  | (.error e, s), (.error e', t) => e = e' ∧ s.SameStorage t
  | _, _ => False

theorem Agrees.refl (x : Except Fault α × State) : Agrees x x := by
  obtain ⟨_ | _, s⟩ := x
  · exact ⟨rfl, .refl s⟩
  · exact ⟨rfl, rfl⟩

theorem Agrees.of_eq {x y : Except Fault α × State} (h : x = y) : Agrees x y := h ▸ .refl x

namespace Exec

/-- Perform an action, if there is one. -/
def act (x : Except Fault Action) : Exec Unit := do (← MonadExcept.ofExcept x).perform

variable {p : Program} {m : Method} {i : Instr}

/-! ### Computations that read -/

/-- A computation that leaves the state alone, and its outcome. -/
def Reads {α : Type} (p : Program) (s : State) (x : Exec α) (o : Except Fault α) : Prop :=
  x.exec p s = (o, s)

section Reads

variable {heap : Heap}

theorem Reads.bind {x : Exec α} {o : Except Fault α} {f : α → Exec β} {g : α → Except Fault β}
    (hx : Reads p s x o) (hf : ∀ a, Reads p s (f a) (g a)) : Reads p s (x >>= f) (o >>= g) := by
  rw [Reads, exec_bind, hx]
  cases o with
  | error e => rfl
  | ok a => exact hf a

theorem Reads.exec_bind {x : Exec α} {a : α} (h : Reads p s x (.ok a)) (f : α → Exec β) :
    (x >>= f).exec p s = (f a).exec p s := by
  rw [Exec.exec_bind, h]

theorem reads_read_bind {f : Program → Exec α} {o : Except Fault α} (h : Reads p s (f p) o) :
    Reads p s (read >>= f) o := h

theorem exec_read_bind (f : Program → Exec α) : (read >>= f).exec p s = (f p).exec p s := rfl

theorem reads_ofExcept (x : Except Fault α) : Reads p s (MonadExcept.ofExcept x : Exec α) x := by
  cases x <;> rfl

theorem reads_object (hs : s.heap = heap) (id : ObjectId) : Reads p s (object id) (heap.get id) :=
  hs ▸ reads_ofExcept (s.heap.get id)

theorem reads_expectRef (v : Value) : Reads p s (expectRef v) v.object? := by
  cases v with
  | lit l => cases l <;> rfl
  | _ => rfl

theorem reads_memberAddress (v : Value) (index : UInt16) :
    Reads p s (memberAddress v index) (v.memberAddress? index) := by
  cases v with
  | lit l => cases l <;> rfl
  | _ => rfl

theorem reads_fieldIndex (field : TypeHash) :
    Reads p s (fieldIndex field) (p.registry.fieldIndex field) := by
  refine reads_read_bind ?_
  unfold Registry.fieldIndex
  cases p.registry.fieldByHash? field <;> rfl

theorem reads_arrayLength (hs : s.heap = heap) (id : ObjectId) :
    Reads p s (arrayLength id) (heap.arrayLength id) := by
  refine (reads_object hs id).bind fun o => ?_
  cases o.value <;> rfl

theorem reads_elementAddress (hs : s.heap = heap) (array index : Value) :
    Reads p s (elementAddress array index) (heap.elementAddress array index) := by
  refine (reads_expectRef array).bind fun id => ?_
  cases index.int32? with
  | none => rfl
  | some n =>
    refine (reads_arrayLength hs id).bind fun length => ?_
    split <;> rfl

theorem reads_dynamicType (hs : s.heap = heap) (v : Value) :
    Reads p s (dynamicType v) (heap.dynamicType v) := by
  cases v with
  | ref id => exact (reads_object hs id).bind fun o => rfl
  | lit l => cases l <;> rfl
  | _ => rfl

theorem reads_hashOperand : Reads p s (hashOperand m i) (m.hashAt i) := by
  unfold hashOperand Method.hashAt
  cases m.constants.typeHash? i.operand <;> rfl

theorem reads_literalOperand : Reads p s (literalOperand m i) (m.literalAt i) := by
  unfold literalOperand Method.literalAt
  cases m.constants.literal? i.operand <;> rfl

theorem reads_capturedRoot : Reads p s (capturedRoot m i) (m.capturedAt i) := by
  unfold capturedRoot Method.capturedAt
  cases m.function.owner <;> rfl

end Reads

/-! ### Instructions -/

end Exec

/-- The state with another operand stack of the innermost frame. -/
def State.withStack (s : State) (vs : List Value) : State :=
  s.modifyTop fun f => { f with stack := vs }

theorem State.withStack_eq (hs : s.frames = f :: rest) (vs : List Value) :
    s.withStack vs = { s with frames := { f with stack := vs } :: rest } := by
  unfold withStack modifyTop
  rw [hs]

theorem State.sameStorage_withStack (s : State) (us vs : List Value) :
    (s.withStack us).SameStorage (s.withStack vs) := by
  obtain ⟨_ | ⟨f, rest⟩, heap, statics, captured⟩ := s <;> exact ⟨rfl, rfl, rfl, rfl, rfl⟩

theorem State.sameStorage_moved (s : State) (vs : List Value) (n : Nat) :
    (s.moved vs n).SameStorage s := by
  obtain ⟨_ | ⟨f, rest⟩, heap, statics, captured⟩ := s <;> exact ⟨rfl, rfl, rfl, rfl, rfl⟩

theorem State.heap_withStack (s : State) (vs : List Value) : (s.withStack vs).heap = s.heap := by
  unfold withStack modifyTop
  cases s.frames <;> rfl

namespace Exec

variable {p : Program} {m : Method} {i : Instr} (hs : s.frames = f :: rest) {us : List Value}
include hs

theorem exec_pop_withStack (g : Value → Exec β) (v : Value) :
    (pop offset >>= g).exec p (s.withStack (v :: vs)) = (g v).exec p (s.withStack vs) := by
  rw [withStack_eq hs, withStack_eq hs]
  rfl

omit hs in
theorem popAddress_bind (g : Address → Exec β) :
    popAddress offset >>= g = pop offset >>= fun v => MonadExcept.ofExcept v.address? >>= g := by
  rw [popAddress, bind_assoc]
  exact bind_congr fun v => by cases v <;> rfl

theorem exec_popMany_withStack (g : List Value → Exec β) :
    (popMany offset us.length >>= g).exec p (s.withStack (us ++ vs)) =
      (g us.reverse).exec p (s.withStack vs) := by
  have hpop : (popMany offset us.length).exec p (s.withStack (us ++ vs)) =
    (.ok us.reverse, s.withStack vs) := by
    rw [withStack_eq hs, withStack_eq hs]
    have hlen : ¬(us ++ vs).length < us.length := by simp
    show (if (us ++ vs).length < us.length then _ else _ : Exec (List Value)).exec p _ = _
    rw [if_neg hlen]
    show (Except.ok ((us ++ vs).take us.length).reverse, State.mk
      ({ f with stack := (us ++ vs).drop us.length } :: rest) s.heap s.statics s.captured) = _
    simp
  rw [exec_bind, hpop]

theorem exec_push_withStack (v : Value) :
    (push v).exec p (s.withStack vs) = (act (.ok (.push [v]))).exec p (s.withStack vs) := by
  rw [withStack_eq hs]
  rfl

omit hs in
/-- What is read first may fail, or decide on the action. -/
theorem exec_bind_act {t : State} {x : Exec α} {o : Except Fault α} (hx : Reads p t x o)
    {g : α → Exec Unit} {k : α → Except Fault Action}
    (h : ∀ a, (g a).exec p t = (act (k a)).exec p t) :
    (x >>= g).exec p t = (act (o >>= k)).exec p t := by
  rw [exec_bind, hx]
  cases o with
  | error e => rfl
  | ok a => exact h a

omit hs in
theorem agrees_read {x : Exec α} {o : Except Fault α} (hx : Reads p (s.withStack ws) x o)
    {g : α → Exec Unit} {k : α → Except Fault Action}
    (h : ∀ a, Agrees ((g a).exec p (s.withStack ws)) ((act (k a)).exec p (s.withStack vs))) :
    Agrees ((x >>= g).exec p (s.withStack ws)) ((act (o >>= k)).exec p (s.withStack vs)) := by
  rw [exec_bind, hx]
  cases o with
  | error e => exact ⟨rfl, s.sameStorage_withStack ws vs⟩
  | ok a => exact h a

theorem agrees_pop {g : Value → Exec Unit} (v : Value)
    (h : Agrees ((g v).exec p (s.withStack ws)) y) :
    Agrees ((pop offset >>= g).exec p (s.withStack (v :: ws))) y := by
  rwa [exec_pop_withStack hs]

theorem agrees_popAddress {g : Address → Exec Unit} (v : Value) {k : Address → Except Fault Action}
    (h : ∀ a, Agrees ((g a).exec p (s.withStack ws)) ((act (k a)).exec p (s.withStack vs))) :
    Agrees ((popAddress offset >>= g).exec p (s.withStack (v :: ws)))
      ((act (v.address? >>= k)).exec p (s.withStack vs)) := by
  rw [popAddress_bind, exec_pop_withStack hs]
  exact agrees_read (reads_ofExcept _) h

theorem agrees_push (v : Value) : Agrees ((push v).exec p (s.withStack vs))
    ((act (.ok (.push [v]))).exec p (s.withStack vs)) :=
  .of_eq (exec_push_withStack hs v)

theorem agrees_push_push (v w : Value) : Agrees ((do push v; push w).exec p (s.withStack vs))
    ((act (.ok (.push [w, v]))).exec p (s.withStack vs)) := by
  rw [withStack_eq hs]
  exact .refl _

theorem agrees_nothing : Agrees ((pure () : Exec Unit).exec p (s.withStack vs))
    ((act (.ok (.push []))).exec p (s.withStack vs)) := by
  rw [withStack_eq hs]
  exact .refl _

theorem agrees_accessRoot (root : Root) (a : Access) (hus : us.length = a.pops) :
    Agrees ((accessRoot i root a).exec p (s.withStack (us ++ vs)))
      ((act (.ok (a.onRoot root (us.getD 0 .void)))).exec p (s.withStack vs)) := by
  cases a with
  | get =>
    rw [length_eq_zero_iff.mp hus]
    exact .refl _
  | set =>
    obtain ⟨v, rfl⟩ := length_eq_one_iff.mp hus
    exact .of_eq (exec_pop_withStack hs _ v)
  | address =>
    rw [length_eq_zero_iff.mp hus]
    exact agrees_push hs _

theorem agrees_accessField (index : UInt16) (a : Access) (hus : us.length = a.pops + 1) :
    Agrees ((accessField i index a).exec p (s.withStack (us ++ vs)))
      ((act (a.onField index (us.getD 0 .void) (us.getD 1 .void))).exec p (s.withStack vs)) := by
  cases a with
  | get =>
    obtain ⟨holder, rfl⟩ := length_eq_one_iff.mp hus
    refine agrees_pop hs holder ?_
    have hfetch : ∀ (h : holder.item? index = none), Agrees
        ((do push (← fetch (← memberAddress holder index))).exec p (s.withStack vs))
        ((act (Access.get.onField index holder .void)).exec p (s.withStack vs)) := by
      intro h
      unfold Access.onField
      rw [h]
      exact agrees_read (reads_memberAddress holder index) fun place => .refl _
    cases holder with
    | aggregate items =>
      cases hitem : items[index.toNat]? with
      | some v =>
        simp only [hitem]
        have hitem : (aggregate items).item? index = some v := hitem
        simp only [getD_cons_zero, Access.onField, hitem]
        exact agrees_push hs v
      | none =>
        simp only [hitem]
        exact hfetch hitem
    | _ => exact hfetch rfl
  | set =>
    obtain ⟨holder, v, rfl⟩ := length_eq_two.mp hus
    refine agrees_pop hs holder (agrees_pop hs v ?_)
    exact agrees_read (reads_memberAddress holder index) fun place => .refl _
  | address =>
    obtain ⟨holder, rfl⟩ := length_eq_one_iff.mp hus
    refine agrees_pop hs holder ?_
    exact agrees_read (reads_memberAddress holder index) fun place => agrees_push hs _

theorem agrees_accessElement (a : Access) (hus : us.length = a.pops + 2) :
    Agrees ((accessElement i a).exec p (s.withStack (us ++ vs))) ((act (do
        let place ← s.heap.elementAddress (us.getD 1 .void) (us.getD 0 .void)
        return a.onPlace place (us.getD 2 .void))).exec p (s.withStack vs)) := by
  have hread : ∀ array index, Reads p (s.withStack vs) (elementAddress array index) _ :=
    reads_elementAddress (s.heap_withStack vs)
  cases a with
  | get =>
    obtain ⟨index, array, rfl⟩ := length_eq_two.mp hus
    refine agrees_pop hs index (agrees_pop hs array ?_)
    exact agrees_read (hread array index) fun place => .refl _
  | set =>
    obtain ⟨index, array, v, rfl⟩ := length_eq_three.mp hus
    refine agrees_pop hs index (agrees_pop hs array (agrees_pop hs v ?_))
    exact agrees_read (hread array index) fun place => .refl _
  | address =>
    obtain ⟨index, array, rfl⟩ := length_eq_two.mp hus
    refine agrees_pop hs index (agrees_pop hs array ?_)
    exact agrees_read (hread array index) fun place => agrees_push hs _

theorem agrees_accessStatic (a : Access) (hus : us.length = a.pops) :
    Agrees ((accessStatic m i a).exec p (s.withStack (us ++ vs)))
      ((act (do
        return a.onRoot (.static (← m.hashAt i)) (us.getD 0 .void))).exec p (s.withStack vs)) := by
  cases a with
  | get =>
    rw [length_eq_zero_iff.mp hus]
    exact agrees_read reads_hashOperand fun h => .refl _
  | set =>
    obtain ⟨v, rfl⟩ := length_eq_one_iff.mp hus
    exact agrees_pop hs v (agrees_read reads_hashOperand fun h => .refl _)
  | address =>
    rw [length_eq_zero_iff.mp hus]
    exact agrees_read reads_hashOperand fun h => agrees_push hs _

theorem agrees_newArray (element : TypeHash) (v : Value) :
    Agrees ((newArray i element).exec p (s.withStack (v :: vs)))
      ((act (do
        return .alloc (.arrayOf element) (.aggregate (← p.registry.elements element v)))).exec p
        (s.withStack vs)) := by
  refine agrees_pop hs v ?_
  unfold elements
  cases v.int32? with
  | none => exact ⟨rfl, .refl _⟩
  | some n =>
    dsimp only
    by_cases hneg : n.toInt < 0
    · rw [if_pos hneg, if_pos hneg]
      exact ⟨rfl, .refl _⟩
    · rw [if_neg hneg, if_neg hneg, exec_read_bind]
      exact .refl _

theorem agrees_loadThrough (accepts : Value → String × Bool) (v : Value) :
    Agrees ((loadThrough i accepts).exec p (s.withStack (v :: vs)))
      ((act (do return .load (← v.address?) accepts)).exec p (s.withStack vs)) :=
  agrees_popAddress hs v fun _ => .refl _

theorem agrees_storeThrough (accepts : Value → String × Bool) (v place : Value) :
    Agrees ((storeThrough i accepts).exec p (s.withStack (v :: place :: vs)))
      ((act (do
        return .store (← place.address?) (← v.accepted accepts))).exec p (s.withStack vs)) := by
  refine agrees_pop hs v (agrees_popAddress hs place fun a => ?_)
  unfold checkWidth accepted
  split
  · exact .refl _
  · exact ⟨rfl, .refl _⟩

theorem agrees_copyBlock (source target : Value) :
    Agrees ((copyBlock i).exec p (s.withStack (source :: target :: vs)))
      ((act (do
        return .copy (← source.address?) (← target.address?))).exec p (s.withStack vs)) := by
  refine agrees_popAddress hs source fun a => ?_
  exact agrees_popAddress hs target fun b => .refl _

theorem exec_unbox_withStack (target : TypeHash) (v : Value) :
    (unbox i target).exec p (s.withStack (v :: vs)) =
      (act (do return .push [← p.registry.unboxed target (← s.heap.get (← v.object?))])).exec p
        (s.withStack vs) := by
  refine (exec_pop_withStack hs _ v).trans (exec_bind_act (reads_expectRef v) fun id => ?_)
  refine exec_bind_act (reads_object (s.heap_withStack vs) id) fun o => ?_
  unfold Registry.unboxed
  split
  · rfl
  · exact exec_push_withStack hs _

theorem exec_checkedCast_withStack (target : TypeHash) (v : Value) :
    (checkedCast i target).exec p (s.withStack (v :: vs)) =
      (act (p.registry.castAction s.heap target v)).exec p (s.withStack vs) := by
  refine (exec_pop_withStack hs _ v).trans ?_
  unfold castAction
  cases hnull : v.isNull with
  | true => exact exec_push_withStack hs v
  | false =>
    refine exec_bind_act (reads_dynamicType (s.heap_withStack vs) v) fun actual => ?_
    show (if !p.registry.assignable actual target then _ else _ : Exec Unit).exec p _ = _
    cases p.registry.assignable actual target with
    | true => exact exec_push_withStack hs v
    | false => rfl

omit hs in
theorem agrees_call (function : TypeHash) (args : List Value) :
    Agrees ((call function args).exec p (s.withStack vs))
      ((act (.ok (p.callAction function args))).exec p (s.withStack vs)) := by
  unfold call Program.callAction
  rw [exec_read_bind]
  cases p.natives[function]? <;> exact .refl _

omit hs in
theorem agrees_construct (function : TypeHash) (args : List Value) :
    Agrees ((construct function args).exec p (s.withStack vs))
      ((act (p.constructAction function args)).exec p (s.withStack vs)) := by
  unfold construct Program.constructAction
  rw [exec_read_bind]
  cases p.natives[function]? with
  | some native => exact .refl _
  | none =>
    cases p.registry.function? function >>= FunctionDecl.owner with
    | some owner => exact .refl _
    | none => exact ⟨rfl, .refl _⟩

theorem agrees_jumpIf (expected : Bool) (v : Value) :
    Agrees ((jumpIf i expected).exec p (s.withStack (v :: vs)))
      ((act (v.branch expected i.operand)).exec p (s.withStack vs)) := by
  refine agrees_pop hs v ?_
  unfold branch
  cases v.bool? with
  | none => exact ⟨rfl, .refl _⟩
  | some y =>
    dsimp only
    split
    · exact .refl _
    · exact agrees_nothing hs

theorem agrees_popMany (hus : us.length = i.argc) {g : List Value → Exec Unit}
    (h : Agrees ((g us.reverse).exec p (s.withStack vs)) y) :
    Agrees ((popMany i.offset i.argc >>= g).exec p (s.withStack (us ++ vs))) y := by
  rwa [← hus, exec_popMany_withStack hs]

theorem agrees_callMethod (hus : us.length = i.argc + 1) :
    Agrees ((callInstr m i true).exec p (s.withStack (us ++ vs))) ((act (do
        if (us.getLastD .void).isNull then throw .nullReference
        return p.callAction (← m.hashAt i) us.reverse)).exec p (s.withStack vs)) := by
  obtain ⟨args, receiver, rfl⟩ : ∃ args receiver, us = args ++ [receiver] := by
    have hne : us ≠ [] := by
      rintro rfl
      simp at hus
    exact ⟨us.dropLast, us.getLast hne, (dropLast_append_getLast hne).symm⟩
  have hargs : args.length = i.argc := by simpa using hus
  have hreverse : (args ++ [receiver]).reverse = receiver :: args.reverse := by simp
  rw [append_assoc, hreverse, getLastD_concat]
  refine agrees_popMany hs hargs (agrees_pop hs receiver ?_)
  cases receiver.isNull with
  | true => exact ⟨rfl, .refl _⟩
  | false => exact agrees_read reads_hashOperand fun h => agrees_call h _

/-- An instruction pops its operands and performs its action. -/
theorem agrees_effect (vs : List Value) (hus : us.length = i.pops) :
    Agrees ((effect m i).exec p (s.withStack (us ++ vs)))
      ((act (i.action p m s.heap rest.length us)).exec p (s.withStack vs)) := by
  have hlevel : ∀ ws, Reads p (s.withStack ws) level (.ok rest.length) := by
    intro ws
    rw [withStack_eq hs]
    rfl
  unfold Instr.pops at hus
  unfold effect Instr.action
  cases hop : i.op with rw [hop] at hus
  | constant wide =>
    rw [length_eq_zero_iff.mp hus]
    exact agrees_read reads_literalOperand fun l => agrees_push hs _
  | pushNull | pushBool =>
    rw [length_eq_zero_iff.mp hus]
    exact agrees_push hs _
  | nop | ret | retVoid =>
    rw [length_eq_zero_iff.mp hus]
    exact agrees_nothing hs
  | pop =>
    obtain ⟨a, rfl⟩ := length_eq_one_iff.mp hus
    exact agrees_pop hs a (agrees_nothing hs)
  | dup =>
    obtain ⟨a, rfl⟩ := length_eq_one_iff.mp hus
    exact agrees_pop hs a (agrees_push_push hs a a)
  | swap =>
    obtain ⟨a, b, rfl⟩ := length_eq_two.mp hus
    exact agrees_pop hs a (agrees_pop hs b (agrees_push_push hs a b))
  | localSlot wide a =>
    rw [Reads.exec_bind (hlevel _)]
    exact agrees_accessRoot hs _ a hus
  | argument a =>
    rw [Reads.exec_bind (hlevel _)]
    exact agrees_accessRoot hs _ a hus
  | field a =>
    refine agrees_read reads_hashOperand fun h => agrees_read (reads_fieldIndex h) fun index => ?_
    exact agrees_accessField hs index a hus
  | staticField a => exact agrees_accessStatic hs a hus
  | element a => exact agrees_accessElement hs a hus
  | newArray =>
    obtain ⟨a, rfl⟩ := length_eq_one_iff.mp hus
    exact agrees_read reads_hashOperand fun element => agrees_newArray hs element a
  | arrayLength =>
    obtain ⟨a, rfl⟩ := length_eq_one_iff.mp hus
    refine agrees_pop hs a (agrees_read (reads_expectRef a) fun id => ?_)
    exact agrees_read (reads_arrayLength (s.heap_withStack vs) id) fun n => agrees_push hs _
  | loadCaptured =>
    rw [length_eq_zero_iff.mp hus]
    exact agrees_read reads_capturedRoot fun root => .refl _
  | capturedAddress =>
    rw [length_eq_zero_iff.mp hus]
    exact agrees_read reads_capturedRoot fun root => agrees_push hs _
  | loadIndirect w =>
    obtain ⟨a, rfl⟩ := length_eq_one_iff.mp hus
    exact agrees_loadThrough hs w.accepts a
  | loadObject =>
    obtain ⟨a, rfl⟩ := length_eq_one_iff.mp hus
    exact agrees_loadThrough hs acceptedAsBlock a
  | storeIndirect w =>
    obtain ⟨a, b, rfl⟩ := length_eq_two.mp hus
    exact agrees_storeThrough hs w.accepts a b
  | storeObject =>
    obtain ⟨a, b, rfl⟩ := length_eq_two.mp hus
    exact agrees_storeThrough hs acceptedAsBlock a b
  | copyObject =>
    obtain ⟨a, b, rfl⟩ := length_eq_two.mp hus
    exact agrees_copyBlock hs a b
  | box =>
    obtain ⟨a, rfl⟩ := length_eq_one_iff.mp hus
    exact agrees_pop hs a (agrees_read reads_hashOperand fun h => .refl _)
  | unbox =>
    obtain ⟨a, rfl⟩ := length_eq_one_iff.mp hus
    exact agrees_read reads_hashOperand fun target => .of_eq (exec_unbox_withStack hs target a)
  | cast =>
    obtain ⟨a, rfl⟩ := length_eq_one_iff.mp hus
    exact agrees_read reads_hashOperand fun target =>
      .of_eq (exec_checkedCast_withStack hs target a)
  | new =>
    refine agrees_popMany hs hus ?_
    exact agrees_read reads_hashOperand fun h => agrees_construct h _
  | call =>
    refine agrees_popMany hs hus ?_
    exact agrees_read reads_hashOperand fun h => agrees_call h _
  | callMethod => exact agrees_callMethod hs hus
  | arith op =>
    obtain ⟨a, b, rfl⟩ := length_eq_two.mp hus
    refine agrees_pop hs a (agrees_pop hs b ?_)
    exact agrees_read (reads_ofExcept _) fun v => agrees_push hs v
  | neg | not =>
    obtain ⟨a, rfl⟩ := length_eq_one_iff.mp hus
    refine agrees_pop hs a ?_
    exact agrees_read (reads_ofExcept _) fun v => agrees_push hs v
  | compare op =>
    obtain ⟨a, b, rfl⟩ := length_eq_two.mp hus
    refine agrees_pop hs a (agrees_pop hs b ?_)
    exact agrees_read (reads_ofExcept _) fun v => agrees_push hs _
  | jump =>
    rw [length_eq_zero_iff.mp hus]
    exact .refl _
  | jumpIf x =>
    obtain ⟨a, rfl⟩ := length_eq_one_iff.mp hus
    exact agrees_jumpIf hs x a

end Exec

/-! ### Too few operands -/

namespace Exec

/-- A computation that fails and leaves storage alone. -/
def Fails {α : Type} (p : Program) (s : State) (x : Exec α) : Prop :=
  ∃ e t, x.exec p s = (.error e, t) ∧ t.SameStorage s

section Fails

variable {p : Program} {m : Method} {i : Instr} {n : Nat}

theorem Reads.fails_bind {x : Exec α} {o : Except Fault α} {g : α → Exec β} (hx : Reads p s x o)
    (h : ∀ a, Fails p s (g a)) : Fails p s (x >>= g) := by
  cases o with
  | error e => exact ⟨e, s, by rw [Exec.exec_bind, hx], .refl s⟩
  | ok a =>
    obtain ⟨e, t, ht, hsame⟩ := h a
    refine ⟨e, t, ?_, hsame⟩
    rwa [Exec.exec_bind, hx]

theorem Fails.bind {x : Exec α} (h : Fails p s x) (g : α → Exec β) : Fails p s (x >>= g) := by
  obtain ⟨e, t, ht, hsame⟩ := h
  exact ⟨e, t, by rw [exec_bind, ht], hsame⟩

theorem Fails.withStack {x y : Exec α} (h : Fails p (s.withStack ws) x)
    (heq : y.exec p (s.withStack vs) = x.exec p (s.withStack ws)) : Fails p (s.withStack vs) y := by
  obtain ⟨e, t, ht, hsame⟩ := h
  exact ⟨e, t, heq.trans ht, hsame.trans (s.sameStorage_withStack ws vs)⟩

variable (hs : s.frames = f :: rest)
include hs

theorem fails_pop {g : Value → Exec α} (hvs : vs.length < n + 1)
    (h : ∀ v ws, ws.length < n → Fails p (s.withStack ws) (g v)) :
    Fails p (s.withStack vs) (pop offset >>= g) := by
  cases vs with
  | nil =>
    rw [withStack_eq hs]
    exact Fails.bind ⟨.stackUnderflow offset, _, rfl, .refl _⟩ g
  | cons v vs =>
    simp only [length_cons, Nat.add_lt_add_iff_right] at hvs
    exact (h v vs hvs).withStack (exec_pop_withStack hs g v)

theorem fails_popAddress {g : Address → Exec α} (hvs : vs.length < n + 1)
    (h : ∀ a ws, ws.length < n → Fails p (s.withStack ws) (g a)) :
    Fails p (s.withStack vs) (popAddress offset >>= g) := by
  rw [popAddress_bind]
  exact fails_pop hs hvs fun v ws hws => (reads_ofExcept _).fails_bind fun a => h a ws hws

theorem fails_popMany {g : List Value → Exec α} {count : Nat} (hvs : vs.length < count + n)
    (h : ∀ us ws, ws.length < n → Fails p (s.withStack ws) (g us)) :
    Fails p (s.withStack vs) (popMany offset count >>= g) := by
  rcases Nat.lt_or_ge vs.length count with hlt | hge
  · refine Fails.bind ⟨.stackUnderflow offset, _, ?_, .refl _⟩ g
    rw [withStack_eq hs]
    show (if vs.length < count then _ else _ : Exec (List Value)).exec p _ = _
    rw [if_pos hlt]
    rfl
  · -- There are enough values, so the count is the length of those that are taken.
    obtain ⟨us, ws, rfl, hus⟩ : ∃ us ws, vs = us ++ ws ∧ us.length = count :=
      ⟨vs.take count, vs.drop count, (take_append_drop ..).symm, length_take_of_le hge⟩
    subst hus
    refine (h us.reverse ws ?_).withStack (exec_popMany_withStack hs g)
    rw [length_append] at hvs
    omega

/-- An instruction that does not find its operands fails. -/
theorem fails_effect (hvs : vs.length < i.pops) : Fails p (s.withStack vs) (effect m i) := by
  have hnone : ∀ {α : Type} {x : Exec α} {ws : List Value}, ws.length < 0 →
      Fails p (s.withStack ws) x := fun hws => absurd hws (Nat.not_lt_zero _)
  have hlevel : Reads p (s.withStack vs) level (.ok rest.length) := by
    rw [withStack_eq hs]
    rfl
  have hroot : ∀ (a : Access) (root : Root), vs.length < a.pops →
      Fails p (s.withStack vs) (accessRoot i root a) := by
    intro a root hvs
    cases a with
    | set => exact fails_pop hs hvs fun v ws hws => hnone hws
    | get | address => exact hnone hvs
  unfold Instr.pops at hvs
  unfold effect
  cases hop : i.op with rw [hop] at hvs
  | constant _ | pushNull | pushBool _ | nop | loadCaptured | capturedAddress | jump | ret
  | retVoid =>
    exact hnone hvs
  | localSlot wide a => exact hlevel.fails_bind fun n => hroot a _ hvs
  | argument a => exact hlevel.fails_bind fun n => hroot a _ hvs
  | staticField a =>
    cases a with
    | set => exact fails_pop hs hvs fun v ws hws => hnone hws
    | get | address => exact hnone hvs
  | field a =>
    refine reads_hashOperand.fails_bind fun h => (reads_fieldIndex h).fails_bind fun index => ?_
    cases a with
    | set =>
      refine fails_pop hs hvs fun holder ws hws => ?_
      exact fails_pop hs hws fun v ws hws => hnone hws
    | get | address => exact fails_pop hs hvs fun v ws hws => hnone hws
  | element a =>
    cases a with
    | set =>
      refine fails_pop hs hvs fun index ws hws => fails_pop hs hws fun array ws hws => ?_
      exact fails_pop hs hws fun v ws hws => hnone hws
    | get | address =>
      refine fails_pop hs hvs fun index ws hws => ?_
      exact fails_pop hs hws fun array ws hws => hnone hws
  | pop | dup | arrayLength | box | neg | not | jumpIf _ =>
    exact fails_pop hs hvs fun v ws hws => hnone hws
  | loadIndirect _ | loadObject => exact fails_popAddress hs hvs fun a ws hws => hnone hws
  | newArray | unbox | cast =>
    exact reads_hashOperand.fails_bind fun h => fails_pop hs hvs fun v ws hws => hnone hws
  | swap | arith _ | compare _ =>
    exact fails_pop hs hvs fun v ws hws => fails_pop hs hws fun w ws hws => hnone hws
  | storeIndirect _ | storeObject =>
    exact fails_pop hs hvs fun v ws hws => fails_popAddress hs hws fun a ws hws => hnone hws
  | copyObject =>
    exact fails_popAddress hs hvs fun a ws hws => fails_popAddress hs hws fun b ws hws => hnone hws
  | new | call => exact fails_popMany hs hvs fun us ws hws => hnone hws
  | callMethod =>
    refine fails_popMany hs hvs fun us ws hws => ?_
    exact fails_pop hs hws fun v ws hws => hnone hws

end Fails

end Exec

end StackCode
