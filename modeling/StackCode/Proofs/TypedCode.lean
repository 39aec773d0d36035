import StackCode.Proofs.Passage
import StackCode.Proofs.Typing

/-!
# Types of operands

In code that is emitted for statements every operand has a type: it is a value of a type, or the
address of a place of a type. What commands take and leave is said in these types. An address may
stand for one of the very same type only, since the place behind it is written as well as read.
-/

namespace StackCode

variable {c : Setting} {d d' : Discipline} {locals : Array DataType} {t : DataType}
  {args : List Symbol}

/-- The types that captured values are used at, over a regular registry. -/
structure Schema (r : Registry) where
  regular : r.Regular
  captured : TypeHash → UInt16 → Option TypeHash

/-- The type of an operand: a value, or an address of a place that holds a value. -/
inductive OperandType
  | value (type : TypeHash)
  | place (type : TypeHash)
  deriving DecidableEq, Repr

/-- An operand of one type may stand where another type is expected. -/
def OperandType.Le (r : Registry) : OperandType → OperandType → Prop
  | .value a, .value b => r.assignable a b
  | .place a, .place b => a = b
  | _, _ => False

/-- What a slot of a type holds. -/
def DataType.operandType (t : DataType) : OperandType :=
  if t.isByRef then .place t.hash else .value t.hash

theorem DataType.operandType_of_plain (h : t.isByRef = false) : t.operandType = .value t.hash := by
  simp [operandType, h]

theorem DataType.operandType_of_byRef (h : t.isByRef = true) : t.operandType = .place t.hash := by
  simp [operandType, h]

theorem DataType.hash_dereferenced (t : DataType) : t.dereferenced.hash = t.hash := by
  unfold DataType.dereferenced
  split <;> rfl

/-- What stands for a receiver of a type: value types by address. -/
def Registry.targetType (r : Registry) (h : TypeHash) : OperandType :=
  if r.isValueType h then .place h else .value h

namespace FunctionDecl

/-- What the receiver's slot holds. -/
def receiverOperand (r : Registry) (f : FunctionDecl) : OperandType :=
  r.targetType (f.owner.getD .empty)

/-- What the slots of the parameters hold. -/
def paramTypes (f : FunctionDecl) : List OperandType := f.params.map fun p => p.slotType.operandType

/-- What the argument slots hold. -/
def slotTypes (r : Registry) (f : FunctionDecl) : List OperandType :=
  (if f.isStatic then [] else [f.receiverOperand r]) ++ f.paramTypes

/-- What a call leaves on the stack. -/
def resultTypes (f : FunctionDecl) : List OperandType :=
  if f.returns.isVoid then [] else [.value f.returns.hash]

@[simp] theorem length_paramTypes (f : FunctionDecl) : f.paramTypes.length = f.params.length := by
  simp [paramTypes]

end FunctionDecl

/-- What an access to a place takes from the stack and leaves there. A place for addresses is not
addressed itself. -/
inductive Access.Uses : Access → OperandType → List OperandType → List OperandType → Prop
  | get {k} : Uses .get k [] [k]
  | set {k} : Uses .set k [k] []
  | address {h} : Uses .address (.value h) [] [.place h]

/-- What a command takes from the stack and leaves there, in a method of a function with given local
slots. -/
inductive Schema.Effect {r : Registry} (S : Schema r) (f : FunctionDecl) (locals : Array DataType) :
    Command → List OperandType → List OperandType → Prop
  | constant {wide l} : Effect S f locals ⟨.constant wide, .literal l⟩ [] [.value l.typeHash]
  | pushNull : Effect S f locals (.plain .pushNull) [] [.value .object]
  | pushBool {b} : Effect S f locals (.plain (.pushBool b)) [] [.value .bool]
  | nop : Effect S f locals (.plain .nop) [] []
  | pop {k} : Effect S f locals (.plain .pop) [k] []
  | jump {l} : Effect S f locals ⟨.jump, .label l⟩ [] []
  | jumpIf {b l k} : Effect S f locals ⟨.jumpIf b, .label l⟩ [k] []
  | localSlot {wide a slot t pops pushes} (ht : locals[slot.toNat]? = some t)
      (ha : a.Uses t.operandType pops pushes) :
      Effect S f locals ⟨.localSlot wide a, .slot slot⟩ pops pushes
  | argument {a slot k pops pushes} (hk : (f.slotTypes r)[slot.toNat]? = some k)
      (ha : a.Uses k pops pushes) : Effect S f locals ⟨.argument a, .slot slot⟩ pops pushes
  | staticField {a h d pops pushes} (hd : r.fieldByHash? h = some d)
      (ha : a.Uses (.value d.type.hash) pops pushes) :
      Effect S f locals ⟨.staticField a, .hash h⟩ pops pushes
  | field {a h d owner holder pops pushes} (hd : r.fieldByHash? h = some d)
      (hholder : holder = .place owner ∨ holder = .value owner ∧ r.isReferenceType owner)
      (hmember : r.Member owner d.index d.type.hash)
        (ha : a.Uses (.value d.type.hash) pops pushes) :
      Effect S f locals ⟨.field a, .hash h⟩ (holder :: pops) pushes
  | element {a array e index pops pushes} (he : r.arrayElement? array = some e)
      (ha : a.Uses (.value e) pops pushes) :
      Effect S f locals (.plain (.element a)) (index :: .value array :: pops) pushes
  | newArray {e k} (hknown : r.containsType (.arrayOf e)) (hvoid : e ≠ .void) :
      Effect S f locals ⟨.newArray, .hash e⟩ [k] [.value (.arrayOf e)]
  | arrayLength {k} : Effect S f locals (.plain .arrayLength) [k] [.value .int32]
  | loadCaptured {owner index h} (howner : f.owner = some owner)
    (hh : S.captured owner index = some h) :
      Effect S f locals ⟨.loadCaptured, .slot index⟩ [] [.value h]
  | capturedAddress {owner index h} (howner : f.owner = some owner)
    (hh : S.captured owner index = some h) :
      Effect S f locals ⟨.capturedAddress, .slot index⟩ [] [.place h]
  | load {k : Indirect} {h} : Effect S f locals k.loadCommand [.place h] [.value h]
  | store {k : Indirect} {h} : Effect S f locals k.storeCommand [.value h, .place h] []
  | copyObject {h h'} : Effect S f locals ⟨.copyObject, .hash h'⟩ [.place h, .place h] []
  | box {h} : Effect S f locals ⟨.box, .hash h⟩ [.value h] [.value .object]
  | unbox {h k} (hvalue : r.isValueType h) : Effect S f locals ⟨.unbox, .hash h⟩ [k] [.value h]
  | cast {h k} (href : r.isReferenceType h) : Effect S f locals ⟨.cast, .hash h⟩ [k] [.value h]
  | new {h g owner argc} (hg : r.function? h = some g) (hkind : g.kind = .constructor)
      (howner : g.owner = some owner) (hargc : argc = g.params.length) :
      Effect S f locals ⟨.new, .call h argc⟩ g.paramTypes.reverse [.value owner]
  | call {h g argc} (hg : r.function? h = some g) (hkind : g.kind ≠ .constructor)
      (hargc : argc = g.params.length) :
      Effect S f locals ⟨.call, .call h argc⟩ g.paramTypes.reverse g.resultTypes
  | callMethod {h g argc} (hg : r.function? h = some g) (hkind : g.kind ≠ .constructor)
      (hargc : argc = g.params.length) :
      Effect S f locals ⟨.callMethod, .call h argc⟩ (g.paramTypes.reverse ++ [g.receiverOperand r])
        g.resultTypes
  | ret (hreturns : f.returns.isVoid = false) : Effect S f locals (.plain .ret)
    [.value f.returns.hash] []
  | retVoid (hreturns : f.returns.isVoid) : Effect S f locals (.plain .retVoid) [] []
  | arith {op h} (hh : r.isReferenceType h = false ∨ h = .string) :
      Effect S f locals (.plain (.arith op)) [.value h, .value h] [.value h]
  | neg {h} (hh : r.isReferenceType h = false) : Effect S f locals (.plain .neg) [.value h]
    [.value h]
  | not {h} (hh : r.isReferenceType h = false) : Effect S f locals (.plain .not) [.value h]
    [.value h]
  | compare {op k k'} : Effect S f locals (.plain (.compare op)) [k, k'] [.value .bool]

/-- The rules of a method of a function with given local slots. -/
def Schema.rules {r : Registry} (S : Schema r) (f : FunctionDecl) (locals : Array DataType) :
    StackRules OperandType where
  le := OperandType.Le r
  refl k := by cases k <;> simp [OperandType.Le, Registry.assignable_refl]
  trans {a b c} hab hbc := by
    cases a <;> cases b <;> cases c <;> simp only [OperandType.Le] at hab hbc ⊢
    · exact S.regular.assignable_trans hab hbc
    · exact hab.trans hbc
  effect := S.Effect f locals

/-! ### Statements under the rules -/

/-- An argument that is passed by reference is a place of exactly the type of the parameter. -/
def PassedExactly (args : List Symbol) (params : List Param) : Prop :=
  ∀ e ∈ args.zip params, e.2.passing.isReference → e.1.valueType.hash = e.2.type.hash

/-- Names of fields are found in the type that they are looked up in, captured values are used at
their types, and references are passed to places of exactly the type of the parameter. -/
def Schema.Admits {r : Registry} (S : Schema r) : Factory → Prop
  | .field holder name => ∀ f, r.field? holder.valueType.hash name = some f → f.isStatic = false →
      f ∈ r.layout holder.valueType.hash
  | .captured id => S.captured id.owner id.index = some id.type.hash ∧ id.type.isByRef = false
  | .call h _ args | .construct h args => ∀ g, r.function? h = some g → PassedExactly args g.params
  | _ => True

/-- Statements that keep to the types of a schema. -/
def Discipline.typed {r : Registry} (S : Schema r) : Discipline :=
  { Discipline.statements with make := fun f => Discipline.statements.make f ∧ S.Admits f }

/-- One discipline is stricter than another. -/
structure Discipline.Refines (d d' : Discipline) : Prop where
  type : ∀ t, d.type t → d'.type t
  make : ∀ f, d.make f → d'.make f
  load : ∀ s, d.load s → d'.load s
  statement : ∀ s, d.statement s → d'.statement s
  operand : ∀ s, d.operand s → d'.operand s

theorem Discipline.typed_refines {r : Registry} (S : Schema r) :
    (Discipline.typed S).Refines .statements :=
  ⟨fun _ h => h, fun _ h => h.1, fun _ h => h, fun _ h => h, fun _ h => h⟩

theorem Setting.Made.refine {s : Symbol} (hd : d.Refines d') (h : c.Made d locals s) :
    c.Made d' locals s := by
  induction h with
  | declared h => exact .declared h
  | factory h hmake _ ih => exact .factory h (hd.make _ hmake) ih

theorem Segment.refine (hd : d.Refines d') {ts : List Temporary} {xs : List Command}
    (h : Segment c d locals ts xs) :
    Segment c d' locals ts xs := by
  cases h with
  | load hs hload hcode => exact .load (hs.refine hd) (hd.load _ hload) hcode
  | copy hdest hsrc hops hacc hcode =>
    exact .copy (hdest.refine hd) (hsrc.refine hd) ⟨hd.operand _ hops.1, hd.operand _ hops.2⟩ hacc
      hcode
  | statement hs hstmt hcode => exact .statement (hs.refine hd) (hd.statement _ hstmt) hcode
  | returnVoid hret => exact .returnVoid hret
  | returnValue hs hop hret hassign hcode =>
    exact .returnValue (hs.refine hd) (hd.operand _ hop) hret hassign hcode
  | nop => exact .nop
  | jump => exact .jump
  | guard hs hop hbool hcode => exact .guard (hs.refine hd) (hd.operand _ hop) hbool hcode

theorem Method.Built.refine {m : Method} {segs : List Listing} (hd : d.Refines d')
    (h : m.Built c d segs) : m.Built c d' segs where
  function := h.function
  holds := h.holds
  encoded := h.encoded
  segments seg hseg := by
    obtain ⟨ts, hsegment, hts⟩ := h.segments seg hseg
    exact ⟨ts, hsegment.refine hd, hts⟩
  types type htype := by
    rcases h.types type htype with htype | ⟨ts, xs, hsegment, ht⟩
    · exact .inl (hd.type type htype)
    · exact .inr ⟨ts, xs, hsegment.refine hd, ht⟩
  jumps := h.jumps
  last := h.last

/-! ### What the factories accept -/

namespace Setting

variable {s : Symbol}

/-- Arguments of types that may stand where the parameters are expected. -/
def Suits (c : Setting) (args : List Symbol) (params : List Param) : Prop :=
  List.Forall₂ (fun s p => c.registry.assignable s.valueType.hash p.type.hash) args params

theorem suits_of_checkTypes {params : List Param} (hlen : args.length = params.length)
    (h : c.checkTypes args params = .ok ()) :
    c.Suits args params := by
  induction args generalizing params with
  | nil =>
    cases List.length_eq_zero_iff.mp hlen.symm
    exact .nil
  | cons arg args ih =>
    cases params with
    | nil => cases hlen
    | cons p ps =>
      unfold checkTypes at h
      dsimp only at h
      split at h
      · obtain ⟨_, hno, _⟩ := bind_eq_ok h
        cases hno
      · rename_i hassign
        rw [DataType.hash_dereferenced] at hassign
        exact .cons (by simpa using hassign) (ih (Nat.succ.inj hlen) h)

theorem suits_of_checkArguments {f : FunctionDecl} (h : c.checkArguments f args = .ok ()) :
    c.Suits args f.params := by
  obtain ⟨hlen, -, htys⟩ := checkArguments_ok h
  exact suits_of_checkTypes hlen htys

/-- What was checked of types when a symbol was made. -/
def Accepted (c : Setting) : Symbol → Prop
  | .field _ _ f => f.isStatic = false
  | .binary _ op lhs rhs _ =>
    lhs.valueType = rhs.valueType ∧ c.supportsBinary op lhs.valueType.hash
  | .unary _ op operand _ => c.supportsUnary op operand.valueType.hash
  | .call _ f args | .callOn _ f _ args | .construct _ f _ args => c.Suits args f.params
  | .newArray _ type _ => c.registry.containsType (.arrayOf type)
  | _ => True

theorem Made.accepted (h : c.Made d locals s) : c.Accepted s := by
  cases h with
  | declared => trivial
  | @factory f _ h _ _ =>
    cases f with
    | argument index =>
      obtain ⟨p, -, rfl⟩ := argument_ok h
      trivial
    | this =>
      obtain ⟨owner, -, -, rfl⟩ := this_ok h
      trivial
    | literal l =>
      cases h
      trivial
    | field holder name =>
      obtain ⟨-, f, -, hstat, rfl⟩ := field_ok h
      exact hstat
    | staticField owner name =>
      obtain ⟨f, -, -, rfl⟩ := staticField_ok h
      trivial
    | element array index =>
      obtain ⟨-, -, e, -, -, rfl⟩ := element_ok h
      trivial
    | captured id =>
      obtain ⟨-, rfl⟩ := captured_ok h
      trivial
    | binary op lhs rhs =>
      obtain ⟨-, -, hsame, hsup, rfl⟩ := binary_ok h
      exact ⟨hsame, hsup⟩
    | unary op operand =>
      obtain ⟨-, hsup, rfl⟩ := unary_ok h
      exact hsup
    | call function receiver args =>
      obtain ⟨f, -, -, hargs, ⟨x, rfl, -, -, rfl⟩ | ⟨rfl, -, rfl⟩⟩ := call_ok h
      · exact suits_of_checkArguments hargs
      · exact suits_of_checkArguments hargs
    | construct function args =>
      obtain ⟨f, owner, -, -, -, hargs, rfl⟩ := construct_ok h
      exact suits_of_checkArguments hargs
    | newArray type length =>
      obtain ⟨-, hcontains, -, rfl⟩ := newArray_ok h
      exact hcontains
    | arrayLength array =>
      obtain ⟨-, rfl⟩ := arrayLength_ok h
      trivial
    | convert source target =>
      obtain ⟨-, k, -, rfl⟩ := convert_ok h
      trivial

end Setting

end StackCode
