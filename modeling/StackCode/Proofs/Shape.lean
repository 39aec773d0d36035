import StackCode.Proofs.Clean
import StackCode.Proofs.StackRules

/-!
# The shape of the operand stack

Every command takes operands of certain kinds from the stack and leaves others there. So commands
one after the other move the stack from one shape to another. Of a slot it is known what it may
hold: a clean value, or perhaps nothing if it is a slot for addresses.
-/

namespace StackCode

open List

/-! ### Commands -/

/-- The slot that an operand names. -/
def Operand.slot? : Operand → Option UInt16
  | .slot n => some n
  | _ => Option.none

/-- The hash that an operand stands for. -/
def Operand.hash? : Operand → Option TypeHash
  | .hash h => some h
  | _ => Option.none

/-- What an access to a place takes from the stack and leaves there. -/
def Access.kinds (k : Kind) : Access → List Kind × List Kind
  | .get => ([], [k])
  | .set => ([k], [])
  | .address => ([], [.loose])

namespace FunctionDecl

/-- What the receiver's slot may hold. -/
def receiverKind (r : Registry) (f : FunctionDecl) : Kind :=
  if r.isValueType (f.owner.getD .empty) then .loose else .clean

/-- What the slots of the parameters may hold. -/
def paramKinds (f : FunctionDecl) : List Kind := f.params.map fun p => p.slotType.kind

/-- What the argument slots may hold. -/
def slotKinds (r : Registry) (f : FunctionDecl) : List Kind :=
  (if f.isStatic then [] else [f.receiverKind r]) ++ f.paramKinds

/-- What the result of a function may be. The result of a conversion is used as a value, whatever
the operator declares. -/
def resultKind (f : FunctionDecl) : Kind := match f.kind with
  | .conversion _ => .clean
  | _ => f.returns.kind

/-- What a call leaves on the stack. -/
def resultKinds (f : FunctionDecl) : List Kind := if f.returns.isVoid then [] else [f.resultKind]

@[simp] theorem length_paramKinds (f : FunctionDecl) : f.paramKinds.length = f.params.length := by
  simp [paramKinds]

end FunctionDecl

/-- What the code of a method can refer to. -/
structure Env where
  registry : Registry
  function : FunctionDecl
  locals : Array DataType

namespace Env

/-- The kind of what a local slot holds. -/
def localKind (e : Env) (n : Nat) : Kind := match e.locals[n]? with
  | some t => t.kind
  | none => .clean

/-- What an argument slot may hold. Slots have numbers below 65536, so those of a function with more
parameters stand for several of them. -/
def argumentKind (e : Env) (n : Nat) : Kind :=
  if e.function.stackArity ≤ 65536 then ((e.function.slotKinds e.registry)[n]?).getD .clean
  else .clean

/-- The field that an operand refers to. -/
def field? (e : Env) : Operand → Option FieldDecl
  | .hash h => e.registry.fieldByHash? h
  | _ => none

/-- The function that a call refers to, if it takes the number of arguments. -/
def callee? (e : Env) : Operand → Option FunctionDecl
  | .call h argc => (e.registry.function? h).filter fun f => f.params.length = argc
  | _ => none

theorem callee?_eq {e : Env} {h : TypeHash} {f : FunctionDecl}
    (hf : e.registry.function? h = some f)
    {argc : Nat} (hargc : argc = f.params.length) : e.callee? (.call h argc) = some f := by
  simp [callee?, hf, hargc]

/-- The kinds of operands that a command takes from the stack, and of those that it leaves there,
the top first. -/
def effect? (e : Env) (x : Command) : Option (List Kind × List Kind) := match x.op with
  | .constant _ | .pushNull | .pushBool _ => some ([], [.clean])
  | .nop | .jump => some ([], [])
  | .pop | .jumpIf _ => some ([.loose], [])
  | .dup | .swap => none
  | .localSlot _ a => x.operand.slot?.map fun n => a.kinds (e.localKind n.toNat)
  | .argument a => x.operand.slot?.map fun n => a.kinds (e.argumentKind n.toNat)
  | .staticField a => (e.field? x.operand).map fun _ => a.kinds .clean
  | .field a => (e.field? x.operand).map fun _ => (.loose :: (a.kinds .clean).1, (a.kinds .clean).2)
  | .element a => some (.loose :: .loose :: (a.kinds .clean).1, (a.kinds .clean).2)
  | .newArray => x.operand.hash?.bind fun h => if h = .void then none else some ([.loose], [.clean])
  | .loadCaptured => if e.function.owner.isSome then some ([], [.clean]) else none
  | .capturedAddress => if e.function.owner.isSome then some ([], [.loose]) else none
  | .arrayLength | .loadIndirect _ | .loadObject | .unbox | .cast | .neg | .not =>
    some ([.loose], [.clean])
  | .storeIndirect _ | .storeObject | .copyObject => some ([.loose, .loose], [])
  | .box => some ([.clean], [.clean])
  | .arith _ | .compare _ => some ([.loose, .loose], [.clean])
  | .new => (e.callee? x.operand).bind fun f =>
    if f.kind = .constructor then some (f.paramKinds.reverse, [.clean]) else none
  | .call => (e.callee? x.operand).bind fun f =>
    if f.kind = .constructor then none else some (f.paramKinds.reverse, f.resultKinds)
  | .callMethod => (e.callee? x.operand).bind fun f =>
    if f.kind = .constructor then none
    else some (f.paramKinds.reverse ++ [f.receiverKind e.registry], f.resultKinds)
  | .ret => if e.function.returns.isVoid then none else some ([.clean], [])
  | .retVoid => if e.function.returns.isVoid then some ([], []) else none

/-- Two commands that one instruction stands for have one effect. -/
theorem effect?_congr (e : Env) {p : Pool} {x x' : Command} {i : Instr} (h : x.Encoded p i)
    (h' : x'.Encoded p i) : e.effect? x = e.effect? x' := by
  obtain ⟨hop, hsort, hmeans⟩ := h
  obtain ⟨hop', hsort', hmeans'⟩ := h'
  have hops : x.op = x'.op := hop.symm.trans hop'
  have hsorts : x.operand.sort = x'.operand.sort := by rw [← hsort, ← hsort', hops]
  obtain ⟨op, operand⟩ := x
  obtain ⟨op', operand'⟩ := x'
  subst hops
  have hoperands : operand.slot? = operand'.slot? ∧ operand.hash? = operand'.hash? ∧
      e.field? operand = e.field? operand' ∧ e.callee? operand = e.callee? operand' := by
    cases operand <;> cases operand' <;> cases hsorts
    case none | literal | label => exact ⟨rfl, rfl, rfl, rfl⟩
    case hash =>
      cases hmeans.symm.trans hmeans'
      exact ⟨rfl, rfl, rfl, rfl⟩
    case call =>
      obtain ⟨hf, rfl⟩ := hmeans
      obtain ⟨hf', rfl⟩ := hmeans'
      cases hf.symm.trans hf'
      exact ⟨rfl, rfl, rfl, rfl⟩
    case slot =>
      cases UInt16.toNat_inj.mp (hmeans.symm.trans hmeans')
      exact ⟨rfl, rfl, rfl, rfl⟩
  unfold effect?
  rw [hoperands.1, hoperands.2.1, hoperands.2.2.1, hoperands.2.2.2]

end Env

/-! ### Sequences of commands -/

section Pointwise

variable {α β : Type} {R : α → α → Prop} {M : α → β → Prop} {ks ls : List α} {vs : List β}

/-- What stands for entries one by one stands for weaker entries as well. -/
theorem forall₂_weaken (hM : ∀ {a b v}, R a b → M a v → M b v) (h : Forall₂ M ks vs)
    (hks : Forall₂ R ks ls) : Forall₂ M ls vs := by
  induction h generalizing ls with
  | nil =>
    cases hks
    exact .nil
  | cons hv _ ih =>
    cases hks with
    | cons hk hks => exact .cons (hM hk hv) (ih hks)

theorem forall₂_split (h : Forall₂ M (ks ++ ls) vs) :
    ∃ us ws, vs = us ++ ws ∧ Forall₂ M ks us ∧ Forall₂ M ls ws :=
  ⟨vs.take ks.length, vs.drop ks.length, (take_append_drop _ _).symm,
    (forall₂_take_append _ _ _ h.flip).flip, (forall₂_drop_append _ _ _ h.flip).flip⟩

end Pointwise

/-- Shapes one by one below others. -/
abbrev Below (ks ls : List Kind) : Prop := List.Forall₂ (· ≤ ·) ks ls

theorem Below.refl (ks : List Kind) : Below ks ks := forall₂_same.mpr fun k _ => k.le_refl

theorem below_loose (k : Kind) : Below [k] [.loose] := .cons k.le_loose .nil

theorem clean_below (k : Kind) : Below [.clean] [k] := .cons k.clean_le .nil

/-- What commands take and leave, in terms of kinds. -/
def Env.rules (e : Env) : StackRules Kind where
  le a b := a ≤ b
  refl := Kind.le_refl
  trans := Kind.le_trans
  effect x pops pushes := e.effect? x = some (pops, pushes)

end StackCode
