import StackCode.Proofs.TypedCode

/-!
# Types along emitted code

The code of a symbol leaves an operand of the type of the symbol, and every segment of a body passes
under the rules of types. This follows the structure of the symbols, with what was checked when they
were made.
-/

namespace StackCode

open DataType Discipline List Piece Registry StackRules OperandType Indirect FunctionDecl Emission
  Option Opcode

variable {a : Access} {function h target : TypeHash} {r : Registry} {xs : List Command}
  {c : Setting}
  {locals : Array DataType} {s source : Symbol} {ts : List Temporary} {t : DataType}
  {intent : LoadIntent} {f : FunctionDecl}

/-- What a symbol of a type leaves on the stack. -/
def DataType.operands (t : DataType) : List OperandType := if t.isVoid then [] else [t.operandType]

theorem DataType.operands_eq (h : t.hash ≠ .void) : t.operands = [t.operandType] := by
  simp [operands, isVoid_eq_false h]

/-- An operand for a symbol of a type, by address or by value. -/
def OperandType.of (byAddress : Bool) (h : TypeHash) : OperandType :=
  if byAddress then .place h else .value h

namespace Piece

/-- What a piece takes from the stack. -/
def takes : Piece → List OperandType
  | .access s .set => [.value s.dataType.hash]
  | _ => []

/-- What a piece leaves on the stack. -/
def operands (r : Registry) : Piece → List OperandType
  | .access s .get => s.dataType.operands
  | .access _ .set => []
  | .access s .address => [.place s.dataType.hash]
  | .load s .value => if s.dataType.isVoid then [] else [.value s.dataType.hash]
  | .load s (.reference _) => [.place s.dataType.hash]
  | .load s .callTarget => [.of (r.isValueType s.valueType.hash) s.dataType.hash]
  | .load s (.parameter passing) => [.of passing.isReference s.dataType.hash]
  | .arguments _ params => (params.map fun p => p.slotType.operandType).reverse

/-- What is assigned to or addressed is no reference itself, and arguments suit their parameters. -/
def Suitable (c : Setting) : Piece → Prop
  | .access s .set | .access s .address => s.dataType.isByRef = false
  | .arguments args params =>
    c.Suits args params ∧ PassedExactly args params ∧ ∀ p ∈ params, p.type.isByRef = false
  | _ => True

/-- A piece of typed statements. -/
structure Typable {r : Registry} (S : Schema r) (c : Setting) (locals : Array DataType)
    (p : Piece) :
    Prop where
  made : p.Made c (.typed S) locals
  ready : p.Ready c locals
  suitable : p.Suitable c

section Typable

variable {S : Schema c.registry}

theorem typable_load (h : c.Made (.typed S) locals s) (hval : s.dataType.hash ≠ .void) :
    Typable S c locals (.load s intent) where
  made := made_load.mpr h
  ready := ready_load (h.refine (typed_refines S)) hval
  suitable := trivial

theorem typable_get (h : c.Made (.typed S) locals s) (hval : s.dataType.hash ≠ .void) :
    Typable S c locals (.access s .get) where
  made := made_access.mpr h
  ready := .get (h.refine (typed_refines S)) hval
  suitable := trivial

namespace Typable

theorem symbol (h : Typable S c locals (.access s a)) : c.Made (.typed S) locals s :=
  made_access.mp h.made

theorem loaded (h : Typable S c locals (.load s intent)) : c.Made (.typed S) locals s :=
  made_load.mp h.made

theorem part_ne_void (h : Typable S c locals (.access s a)) {p : Symbol}
    (hp : p ∈ s.parts := by simp [Symbol.parts]) : p.dataType.hash ≠ .void :=
  (h.symbol.refine (typed_refines S)).part_ne_void p hp

theorem part (h : Typable S c locals (.access s a)) {p : Symbol} (intent : LoadIntent)
    (hp : p ∈ s.parts := by simp [Symbol.parts]) : Typable S c locals (.load p intent) :=
  typable_load (h.symbol.parts p hp) (h.part_ne_void hp)

theorem operands_get (h : Typable S c locals (.access s .get)) (hcall : s.isCall = false) :
    (access s .get).operands c.registry = [s.dataType.operandType] := by
  refine operands_eq fun hvoid => ?_
  rw [h.ready.2 hvoid] at hcall
  cases hcall

end Typable

theorem typable_arguments {args : List Symbol} (hr : c.registry.Regular)
    (hf : c.registry.function? function = some f) (hsuits : c.Suits args f.params)
    (hexact : PassedExactly args f.params)
    (hmade : ∀ s ∈ args, c.Made (.typed S) locals s ∧ s.dataType.hash ≠ .void) :
    Typable S c locals (.arguments args f.params) where
  made := fun s hs => (hmade s hs).1
  ready := ⟨hsuits.length_eq, fun s hs =>
    ⟨(hmade s hs).1.refine (typed_refines S), (hmade s hs).2⟩⟩
  suitable := ⟨hsuits, hexact, hr.params function f hf⟩

end Typable

theorem operands_value (h : s.dataType.hash ≠ .void) :
    (load s .value).operands r = [.value s.dataType.hash] := by
  simp [operands, isVoid_eq_false h]

theorem operands_choice (h : s.dataType.hash ≠ .void) (b : Bool) :
    (load s (if b then .reference true else .value)).operands r = [.of b s.dataType.hash] := by
  cases b with
  | true => rfl
  | false => exact operands_value h

end Piece

/-! ### Single symbols -/

section Symbols

variable {S : Schema c.registry}

theorem Setting.Made.slotType {d : Discipline} {id : ContextId} {slot : UInt16}
    (h : c.Made d locals (.argument id slot t)) (hfew : c.function.stackArity ≤ 65536) :
    (c.function.slotTypes c.registry)[slot.toNat]? = some t.operandType := by
  refine h.getElem?_slots hfew DataType.operandType fun owner howner => ?_
  unfold receiverOperand Registry.targetType Setting.receiverType
  rw [howner, getD_some]
  split <;> rfl

/-- Types of operators are no reference types, texts apart. -/
theorem Setting.isReferenceType_of_category (hcat : (c.category? h).isSome) :
    c.registry.isReferenceType h = false := by
  obtain ⟨k, hk⟩ := isSome_iff_exists.mp hcat
  obtain ⟨p, hp, -⟩ := bind_eq_some_iff.mp hk
  obtain ⟨kind, hkind, hprim⟩ := bind_eq_some_iff.mp hp
  rw [isReferenceType_of_kind hkind]
  cases kind with
  | primitive p => rfl
  | _ => cases hprim

theorem Setting.supports_arith {op : ArithOp} (hop : c.supportsBinary (.arith op) h) :
    c.registry.isReferenceType h = false ∨ h = .string := by
  cases op with
  | add =>
    rcases Bool.or_eq_true_iff.mp hop with hop | hop
    · exact .inl (isReferenceType_of_category (Bool.and_eq_true_iff.mp hop).1)
    · exact .inr (beq_iff_eq.mp hop)
  | bitAnd | bitOr | bitXor => exact .inl (isReferenceType_of_category (isSome_of_any hop))
  | sub | mul | div | rem =>
    exact .inl (isReferenceType_of_category (Bool.and_eq_true_iff.mp hop).1)

theorem Setting.supports_unary {op : UnaryOp} (hop : c.supportsUnary op h) :
    c.registry.isReferenceType h = false := by
  cases op <;> exact isReferenceType_of_category (isSome_of_any hop)

/-- The result of a call is what the call leaves. -/
theorem FunctionDecl.operands_eq_results (f : FunctionDecl) (hr : r.Regular)
    (hf : r.function? function = some f) : f.returns.operands = f.resultTypes := by
  rw [DataType.operands, resultTypes, operandType_of_plain (hr.returns function f hf)]

/-- An argument of its own type fits the slot of its parameter. -/
theorem Param.operand_le (p : Param) (hplain : p.type.isByRef = false)
    (hassignable : c.registry.assignable h p.type.hash)
    (hexact : p.passing.isReference → h = p.type.hash) :
    OperandType.Le c.registry (.of p.passing.isReference h) p.slotType.operandType := by
  unfold Param.slotType of
  cases href : p.passing.isReference with
  | true => exact hexact href
  | false =>
    rwa [if_neg (by simp), if_neg (by simp), operandType_of_plain hplain]

/-- What may stand for an aggregate is of the same type. -/
theorem Registry.eq_of_aggregate {source : TypeHash} (hagg : r.isAggregate target)
    (h : r.assignable source target) : source = target := by
  rcases assignable_iff.mp h with hsame | ⟨-, href, -⟩
  · exact hsame
  · unfold isAggregate at hagg
    cases hkind : r.kind? target with
    | none =>
      rw [hkind] at hagg
      cases hagg
    | some k =>
      rw [hkind] at hagg
      rw [isReferenceType_of_kind hkind] at href
      cases k with
      | value => cases href
      | _ => cases hagg

theorem Registry.target_le {owner : TypeHash} (hassignable : r.assignable h owner) :
    OperandType.Le r (.of (r.isValueType h) h) (r.targetType owner) := by
  unfold Registry.targetType of
  cases hval : r.isValueType h with
  | true =>
    rw [← eq_of_assignable hval hassignable, hval]
    rfl
  | false =>
    have howner : r.isValueType owner = false := by
      rcases assignable_iff.mp hassignable with rfl | ⟨-, href, -⟩
      · exact hval
      · cases hown : r.isValueType owner with
        | false => rfl
        | true =>
          rw [isReferenceType_of_valueType hown] at href
          cases href
    rwa [if_neg (by simp), howner]

/-- A function that converts says how it takes the source. -/
theorem operands_converted (hr : c.registry.Regular) (hf : c.registry.function? function = some f)
    (hparams : f.paramHashes = [source.valueType.hash]) :
    (∀ declaring op, (S.rules c.function locals).Below ((Piece.load source
        (sourceIntent c.registry (.operator function declaring op))).operands c.registry)
        f.paramTypes.reverse) ∧
      (S.rules c.function locals).Below ((Piece.load source
        (sourceIntent c.registry (.constructor function))).operands c.registry)
        f.paramTypes.reverse := by
  obtain ⟨p, hp⟩ := length_eq_one_iff.mp (length_of_paramHashes hparams)
  have hplain := hr.params function f hf p (by simp [hp])
  have hsource : source.dataType.hash = p.type.hash := by
    rw [← source.hash_valueType]
    simpa [FunctionDecl.paramHashes, paramHashes, hp] using hparams.symm
  have hle := p.operand_le (c := c) hplain (hsource ▸ assignable_refl _) fun _ => hsource
  obtain ⟨hash, name, owner, params, returns, isStatic, kind⟩ := f
  cases hp
  simp only [sourceIntent, hf]
  exact ⟨fun _ _ => .cons hle .nil, .cons hle .nil⟩

/-- The code of a conversion leaves a value of the target, if the source was pushed as it is
needed. -/
theorem typed_conversion {k : Conversion} (hk : c.registry.resolve source.valueType.hash target =
    .ok k)
    (hval : source.dataType.hash ≠ .void)
    (hsource : (S.rules c.function locals).Moves [] xs
      ((Piece.load source (sourceIntent c.registry k.rule)).operands c.registry)) :
    (S.rules c.function locals).Moves [] (xs ++ k.rule.code) [.value k.target] := by
  have hr := S.regular
  obtain ⟨htgt, hvoid, hrefers⟩ := hr.registered.coherent.resolve hk
  rw [htgt]
  have hplain : sourceIntent c.registry k.rule = .value →
      (S.rules c.function locals).Moves [] xs [.value source.dataType.hash] := by
    intro hintent
    rwa [hintent, operands_value hval] at hsource
  cases hrule : k.rule with rw [hrule] at hrefers hsource hplain
  | identity =>
    refine ((hplain rfl).trans (.refl _ _)).mono (.cons ?_ .nil)
    rwa [← source.hash_valueType]
  | box h =>
    obtain ⟨rfl, rfl⟩ := hrefers
    rw [source.hash_valueType]
    exact (hplain rfl).next .box
  | unbox h =>
    obtain ⟨rfl, htype⟩ := hrefers
    exact (hplain rfl).next (.unbox htype)
  | cast h =>
    obtain ⟨rfl, htype⟩ := hrefers
    exact (hplain rfl).next (.cast htype)
  | operator function declaring op =>
    obtain ⟨f, hf, hkind, hparams, rfl⟩ := hrefers
    have hres : f.resultTypes = [.value f.returns.hash] := by
      rw [resultTypes, isVoid_eq_false hvoid]
      rfl
    rw [← hres]
    exact hsource.snoc _ ((operands_converted hr hf hparams).1 declaring op)
      (.call hf (by simp [hkind]) (length_of_paramHashes hparams).symm)
  | constructor function =>
    obtain ⟨f, hf, hkind, hparams, hfound⟩ := hrefers
    exact hsource.snoc _ (operands_converted hr hf hparams).2
      (.new hf hkind (hr.converting _ _ f hfound) (length_of_paramHashes hparams).symm)

/-! ### Code -/

section Cases

variable {id : ContextId} {xs' : List Command}

theorem typed_slot {x : Command} (htyp : (access s a).Typable S c locals) (hcall : s.isCall = false)
    (hsort : x.op.sort ≠ .label)
    (heff : ∀ {pops pushes}, a.Uses s.dataType.operandType pops pushes →
      S.Effect c.function locals x pops pushes) :
    (S.rules c.function locals).Moves (access s a).takes [x]
    ((access s a).operands c.registry) := by
  refine .command x ?_ hsort
  cases a with
  | get =>
    rw [htyp.operands_get hcall]
    exact heff .get
  | set =>
    have hplain := operandType_of_plain htyp.suitable
    exact heff (hplain ▸ .set)
  | address =>
    have hplain := operandType_of_plain htyp.suitable
    exact heff (hplain ▸ .address)

theorem typed_field {holder : Symbol} {f : FieldDecl}
    (htyp : (access (.field id holder f) a).Typable S c locals)
    (hhold : (S.rules c.function locals).Moves [] xs
      ((Piece.load holder .callTarget).operands c.registry)) :
    (S.rules c.function locals).Moves (access (.field id holder f) a).takes
      (xs ++ [⟨.field a, .hash f.hash⟩]) ((access (.field id holder f) a).operands c.registry) := by
  have hr := S.regular
  obtain ⟨name, hf, -, hown⟩ := htyp.symbol.checked
  obtain ⟨hfound, kind, hkind⟩ := hr.registered.field hf
  have hmem : c.registry.Member holder.valueType.hash f.index f.type.hash :=
    .inr ⟨f, hown f hf htyp.symbol.accepted, rfl, rfl⟩
  have hplain := operandType_of_plain (hr.fields _ f hfound)
  have htgt : of (c.registry.isValueType holder.valueType.hash) holder.dataType.hash =
      .place holder.valueType.hash ∨ of (c.registry.isValueType holder.valueType.hash)
        holder.dataType.hash = .value holder.valueType.hash ∧
          c.registry.isReferenceType holder.valueType.hash := by
    rw [← holder.hash_valueType]
    cases hval : c.registry.isValueType holder.valueType.hash with
    | true => exact .inl rfl
    | false =>
      refine .inr ⟨rfl, ?_⟩
      unfold Registry.isValueType at hval
      rw [hkind] at hval
      have hval : kind.isValueType = false := hval
      rw [isReferenceType_of_kind hkind, TypeKind.isReferenceType, hval]
      rfl
  cases a with
  | get =>
    rw [htyp.operands_get rfl]
    show StackRules.Moves _ _ _ [f.type.operandType]
    rw [hplain]
    exact hhold.next (.field hfound htgt hmem .get)
  | set =>
    exact (hhold.frame [.value f.type.hash]).next (.field hfound htgt hmem .set)
  | address =>
    exact hhold.next (.field hfound htgt hmem .address)

theorem typed_element {array index : Symbol}
    (htyp : (access (.element id array index t) a).Typable S c locals)
    (harray : (S.rules c.function locals).Moves [] xs
      ((Piece.load array .value).operands c.registry))
    (hidx : (S.rules c.function locals).Moves [] xs'
      ((Piece.load index .value).operands c.registry)) :
    (S.rules c.function locals).Moves (access (.element id array index t) a).takes
      (xs ++ (xs' ++ [.plain (.element a)]))
      ((access (.element id array index t) a).operands c.registry) := by
  rw [operands_value htyp.part_ne_void] at harray hidx
  obtain ⟨e, he, rfl, -⟩ := htyp.symbol.checked
  rw [array.hash_valueType] at he
  have hboth := harray.pushes hidx
  rw [← append_assoc]
  cases a with
  | get =>
    rw [htyp.operands_get rfl]
    exact hboth.next (.element he .get)
  | set =>
    exact (hboth.frame [.value e]).next (.element he .set)
  | address =>
    exact hboth.next (.element he .address)

theorem typed_binary {op : BinaryOp} {lhs rhs : Symbol}
    (htyp : (access (.binary id op lhs rhs t) .get).Typable S c locals)
    (hlhs : (S.rules c.function locals).Moves [] xs ((Piece.load lhs .value).operands c.registry))
    (hrhs : (S.rules c.function locals).Moves [] xs'
      ((Piece.load rhs .value).operands c.registry)) :
    (S.rules c.function locals).Moves [] (xs ++ (xs' ++ [.plain op.opcode]))
      ((access (.binary id op lhs rhs t) .get).operands c.registry) := by
  rw [operands_value htyp.part_ne_void] at hlhs hrhs
  obtain ⟨rfl, -⟩ := htyp.symbol.checked
  obtain ⟨hsame, hsup⟩ := htyp.symbol.accepted
  have hboth := hlhs.pushes hrhs
  rw [← rhs.hash_valueType, ← hsame, ← lhs.hash_valueType] at hboth
  rw [← append_assoc, htyp.operands_get rfl]
  cases op with
  | arith op =>
    show StackRules.Moves _ _ _ [lhs.valueType.operandType]
    rw [operandType_of_plain lhs.isByRef_valueType]
    exact hboth.next (.arith (Setting.supports_arith hsup))
      (by simp [Command.plain, BinaryOp.opcode, sort])
  | compare op =>
    exact hboth.next .compare (by simp [Command.plain, BinaryOp.opcode, sort])

theorem typed_unary {op : UnaryOp} {operand : Symbol}
    (htyp : (access (.unary id op operand t) .get).Typable S c locals)
    (hop : (S.rules c.function locals).Moves [] xs
      ((Piece.load operand .value).operands c.registry)) :
    (S.rules c.function locals).Moves [] (xs ++ [.plain op.opcode])
      ((access (.unary id op operand t) .get).operands c.registry) := by
  rw [operands_value htyp.part_ne_void] at hop
  obtain ⟨rfl, -⟩ := htyp.symbol.checked
  have hsup := Setting.supports_unary htyp.symbol.accepted
  rw [← operand.hash_valueType] at hop
  rw [htyp.operands_get rfl]
  show StackRules.Moves _ _ _ [operand.valueType.operandType]
  rw [operandType_of_plain operand.isByRef_valueType]
  cases op with
  | neg =>
    exact hop.next (.neg hsup) (by simp [Command.plain, UnaryOp.opcode, sort])
  | not =>
    exact hop.next (.not hsup) (by simp [Command.plain, UnaryOp.opcode, sort])

theorem typed_spilled {slot : UInt16} (hval : s.dataType.hash ≠ .void)
    (hplain : s.dataType.isByRef = false) (hslot : locals[slot.toNat]? = some s.dataType)
    (hget : (S.rules c.function locals).Moves [] xs ((access s .get).operands c.registry)) :
    (S.rules c.function locals).Moves [] (xs ++ [.onLocal .set slot, .onLocal .address slot])
      [.place s.dataType.hash] := by
  rw [Piece.operands, operands_eq hval] at hget
  have hset := hget.snoc (.onLocal .set slot) (below_refl _ _) (.localSlot hslot .set)
  have huses : Access.Uses .address s.dataType.operandType [] [.place s.dataType.hash] := by
    rw [operandType_of_plain hplain]
    exact .address
  have haddr := hset.snoc (.onLocal .address slot) .nil (.localSlot hslot huses)
  rwa [append_assoc] at haddr

end Cases

/-- The code of a symbol leaves an operand of its type. -/
theorem Code.typed (hfew : c.function.stackArity ≤ 65536) {p : Piece} (h : Code c.registry p ts xs)
    (htyp : p.Typable S c locals) (hts : ∀ t ∈ ts, locals[t.slot.toNat]? = some t.type) :
    (S.rules c.function locals).Moves p.takes xs (p.operands c.registry) := by
  have hr := S.regular
  have hcoh := hr.registered.coherent
  -- A case puts what the parts leave under the effect of the command that ends the code.
  induction h with
  | localSlot =>
    exact typed_slot htyp rfl (by simp [Command.onLocal, sort]) (.localSlot htyp.symbol.checked)
  | argument =>
    exact typed_slot htyp rfl (by simp [sort]) (.argument (htyp.symbol.slotType hfew))
  | field _ _ ih => exact typed_field htyp (ih (htyp.part _) hts)
  | @staticField _ f a =>
    obtain ⟨owner, name, hf, -⟩ := htyp.symbol.checked
    obtain ⟨hfound, -⟩ := hr.registered.field hf
    refine .command _ ?_
    cases a with
    | get =>
      have hplain := operandType_of_plain (hr.fields _ f hfound)
      rw [htyp.operands_get rfl]
      exact .staticField hfound (hplain ▸ .get)
    | set => exact .staticField hfound .set
    | address => exact .staticField hfound .address
  | element _ _ ih ih' =>
    obtain ⟨hts, hts'⟩ := forall_mem_append.mp hts
    exact typed_element htyp (ih (htyp.part _) hts) (ih' (htyp.part _) hts')
  | @capturedValue _ id =>
    obtain ⟨howner, -, hcapt, hplain⟩ := htyp.symbol.checked
    have hplain := operandType_of_plain hplain
    rw [htyp.operands_get rfl]
    refine .command _ ?_
    show S.Effect _ _ _ _ [id.type.operandType]
    rw [hplain]
    exact .loadCaptured howner hcapt
  | @capturedAddress _ id =>
    obtain ⟨howner, -, hcapt, -⟩ := htyp.symbol.checked
    exact .command _ (.capturedAddress howner hcapt)
  | @literal _ l _ hl =>
    rw [htyp.operands_get rfl]
    rcases hl with ⟨rfl, rfl⟩ | ⟨b, rfl, rfl⟩ | ⟨wide, l', hkey, rfl⟩
    · exact .command _ .pushNull
    · exact .command _ .pushBool
    · show StackRules.Moves _ _ _ [OperandType.value l.typeHash]
      rw [← Constant.typeHash_of_key hkey]
      exact .command _ .constant
  | binary _ _ ih ih' =>
    obtain ⟨hts, hts'⟩ := forall_mem_append.mp hts
    exact typed_binary htyp (ih (htyp.part _) hts) (ih' (htyp.part _) hts')
  | unary _ ih => exact typed_unary htyp (ih (htyp.part _) hts)
  | @call _ f args _ _ _ ih =>
    obtain ⟨function, hf, hkind, -, hlen, -, hexact⟩ := htyp.symbol.checked
    have hargs := ih (typable_arguments hr hf htyp.symbol.accepted (hexact f hf)
      fun s hs => ⟨htyp.symbol.parts s hs, htyp.part_ne_void hs⟩) hts
    show StackRules.Moves _ _ _ f.returns.operands
    rw [f.operands_eq_results hr hf]
    exact hargs.next (.call (hcoh.function hf) hkind hlen)
  | @callOn _ f receiver args _ _ xs xs' _ _ ih ih' =>
    obtain ⟨hts, hts'⟩ := forall_mem_append.mp hts
    obtain ⟨function, hf, hkind, -, hlen, hassignable, -, hexact⟩ := htyp.symbol.checked
    have hrecv := ih (htyp.part _) hts
    have hargs := ih' (typable_arguments hr hf htyp.symbol.accepted (hexact f hf)
      fun s hs => ⟨htyp.symbol.parts s (mem_cons_of_mem _ hs),
        htyp.part_ne_void (mem_cons_of_mem _ hs)⟩) hts'
    have htgt := target_le hassignable
    rw [receiver.hash_valueType] at htgt
    simp only [Piece.operands, receiver.hash_valueType] at hrecv
    have hboth := (hrecv.mono (.cons htgt .nil)).pushes hargs
    show StackRules.Moves _ _ _ f.returns.operands
    rw [← append_assoc, f.operands_eq_results hr hf]
    exact hboth.next (.callMethod (hcoh.function hf) hkind hlen)
  | @construct _ f t args _ _ _ ih =>
    obtain ⟨function, hf, hkind, howner, hlen, -, hexact⟩ := htyp.symbol.checked
    have hargs := ih (typable_arguments hr hf htyp.symbol.accepted (hexact f hf)
      fun s hs => ⟨htyp.symbol.parts s hs, htyp.part_ne_void hs⟩) hts
    rw [htyp.operands_get rfl]
    exact hargs.next (.new (hcoh.function hf) hkind howner hlen)
  | @newArray _ element length _ _ _ ih =>
    have hlen := ih (htyp.part _) hts
    have hval : element ≠ .void := htyp.symbol.checked.1.2 element length rfl
    rw [operands_value htyp.part_ne_void] at hlen
    rw [htyp.operands_get rfl]
    exact hlen.next (.newArray htyp.symbol.accepted hval)
  | arrayLength _ ih =>
    have harray := ih (htyp.part _) hts
    rw [operands_value htyp.part_ne_void] at harray
    rw [htyp.operands_get rfl]
    exact harray.next .arrayLength
  | converted _ ih =>
    have hsource := ih (htyp.part _) hts
    rw [htyp.operands_get rfl]
    obtain ⟨target, hk, -⟩ := htyp.symbol.checked
    exact typed_conversion hk htyp.part_ne_void hsource
  | @referred s k _ _ href _ _ ih =>
    have hget := ih ⟨made_access.mpr htyp.loaded, htyp.ready, trivial⟩ hts
    have hvoid : s.dataType.isVoid = false := by
      rw [DataType.isByRef, beq_iff_eq] at href
      simp [DataType.isVoid, href]
    simp only [Piece.operands, DataType.operands, hvoid, operandType_of_byRef href] at hget ⊢
    refine hget.snoc k.loadCommand (below_refl _ _) .load ?_
    cases k <;> simp [loadCommand, command, loadOp, Command.plain, sort]
  | value hplain _ ih =>
    have hget := ih ⟨made_access.mpr htyp.loaded, htyp.ready, trivial⟩ hts
    simp only [Piece.operands, DataType.operands, operandType_of_plain hplain] at hget ⊢
    exact hget
  | held href _ ih =>
    have hget := ih (typable_get htyp.loaded htyp.ready.2) hts
    rwa [Piece.operands, operands_eq htyp.ready.2, operandType_of_byRef href] at hget
  | placed hplain _ _ _ ih =>
    exact ih ⟨made_access.mpr htyp.loaded, htyp.ready, hplain⟩ hts
  | spilled hplain _ _ ih =>
    obtain ⟨hslot, hts⟩ := forall_mem_cons.mp hts
    exact typed_spilled htyp.ready.2 hplain hslot (ih (typable_get htyp.loaded htyp.ready.2) hts)
  | target _ ih | parameter _ ih =>
    have hload := ih (typable_load htyp.loaded htyp.ready.2) hts
    rwa [operands_choice htyp.ready.2] at hload
  | noArguments =>
    rw [Piece.operands, length_eq_zero_iff.mp htyp.ready.1.symm]
    exact .refl _ _
  | noParameters =>
    cases htyp.ready.1
  | @arguments arg args p ps _ _ _ _ _ _ ih ih' =>
    obtain ⟨hts, hts'⟩ := forall_mem_append.mp hts
    obtain ⟨hmade, ⟨hlen, hready⟩, hsuits, hexact, hplain⟩ := htyp
    obtain ⟨hmade, hmades⟩ := forall_mem_cons.mp hmade
    obtain ⟨hready, hreadies⟩ := forall_mem_cons.mp hready
    obtain ⟨hplain, hplains⟩ := forall_mem_cons.mp hplain
    obtain ⟨hexact, hexacts⟩ := forall_mem_cons.mp hexact
    obtain ⟨hsuits, hsuitss⟩ := forall₂_cons.mp hsuits
    rw [arg.hash_valueType] at hsuits
    have hfirst := (ih (typable_load hmade hready.2) hts).mono
      (.cons (p.operand_le hplain hsuits fun href => arg.hash_valueType ▸ hexact href) .nil)
    have hrest := ih' ⟨hmades, ⟨Nat.succ.inj hlen, hreadies⟩, hsuitss, hexacts, hplains⟩ hts'
    rw [Piece.operands, map_cons, reverse_cons]
    exact hfirst.pushes hrest

/-! ### Segments -/

section Copy

variable {dest : Symbol} {path : CopyPath} (hdest : c.Made (.typed S) locals dest)
  (hsource : c.Made (.typed S) locals source)
  (hvalues : dest.dataType.hash ≠ .void ∧ source.dataType.hash ≠ .void)
  (hassignable : c.registry.assignable source.dataType.hash dest.dataType.hash)
include hdest hsource hvalues hassignable

theorem CopyCode.typed (hfew : c.function.stackArity ≤ 65536)
    (h : CopyCode c.registry dest source path ts xs)
    (hpath : path.Suits c.registry dest source)
    (hts : ∀ t ∈ ts, locals[t.slot.toNat]? = some t.type) :
    (S.rules c.function locals).Moves [] xs [] := by
  cases h with
  | direct hd hs =>
    obtain ⟨hts, hts'⟩ := forall_mem_append.mp hts
    have hd := hd.typed hfew (typable_load hdest hvalues.1) hts
    have hs := hs.typed hfew (typable_load hsource hvalues.2) hts'
    have hsame := eq_of_aggregate (dest.hash_valueType ▸ hpath.2.2) hassignable
    have hboth := hd.pushes hs
    simp only [Piece.operands, hsame] at hboth
    rw [← append_assoc]
    exact hboth.next .copyObject
  | @indirect k pointer value _ _ _ _ _ hd hs =>
    simp only [forall_mem_cons, forall_mem_append] at hts
    obtain ⟨hptr, hval, hts, hts'⟩ := hts
    have hd := hd.typed hfew (typable_get hdest hvalues.1) hts
    have hs := hs.typed hfew (typable_load hsource hvalues.2) hts'
    have hpath : dest.dataType.isByRef = true := hpath
    rw [Piece.operands, operands_eq hvalues.1] at hd
    rw [operands_value hvalues.2] at hs
    have hvalueType : dest.valueType.operandType = .value dest.dataType.hash := by
      rw [operandType_of_plain dest.isByRef_valueType, dest.hash_valueType]
    have hset := hd.snoc (.onLocal .set pointer) (below_refl _ _) (.localSlot hptr .set)
    have hset' := (hset.trans hs).snoc (.onLocal .set value)
      (.cons (hvalueType ▸ hassignable) .nil) (.localSlot hval .set)
    have hget := hset'.snoc (.onLocal .get pointer) .nil (.localSlot hptr .get)
    have hget' := hget.pushes (.command (.onLocal .get value) (.localSlot hval .get))
    rw [operandType_of_byRef hpath, hvalueType] at hget'
    have hstore := hget'.snoc k.storeCommand (below_refl _ _) .store
      (by cases k <;> simp [storeCommand, command, storeOp, Command.plain, sort])
    simpa using hstore
  | stack hs hd =>
    obtain ⟨hts, hts'⟩ := forall_mem_append.mp hts
    have hs := hs.typed hfew (typable_load hsource hvalues.2) hts
    rw [operands_value hvalues.2] at hs
    have hd :=
      hd.typed hfew ⟨made_access.mpr hdest, ⟨hdest.refine (typed_refines S), hvalues.1⟩, hpath⟩ hts'
    have hfits : (S.rules c.function locals).Below [.value source.dataType.hash]
        [.value dest.dataType.hash] := .cons hassignable .nil
    exact (hs.mono hfits).trans hd

end Copy

theorem Segment.typed (hfew : c.function.stackArity ≤ 65536) (h : Segment c (.typed S) locals ts xs)
    (hts : ∀ t ∈ ts, locals[t.slot.toNat]? = some t.type) :
    (S.rules c.function locals).Passes [] xs [] := by
  cases h with
  | load _ hload => exact absurd hload id
  | @copy dest source force _ _ hdest hsource hops hacc hcode =>
    have hassignable : c.registry.assignable source.dataType.hash dest.dataType.hash := by
      rw [← source.hash_valueType, ← dest.hash_valueType]
      rcases Bool.or_eq_true .. ▸ hacc.2 with hsame | hassignable
      · rw [eq_of_beq hsame]
        exact assignable_refl _
      · exact hassignable
    exact (hcode.typed hdest hsource hops hassignable hfew (c.suits_copyPath dest source force)
      hts).passes
  | @statement s _ _ hs hstmt hcode =>
    have hload := hcode.typed hfew ⟨made_load.mpr hs, ⟨hs.refine (typed_refines S), hstmt⟩, trivial⟩
      hts
    cases hvoid : s.dataType.isVoid with
    | true =>
      simp only [Piece.operands, hvoid] at hload
      rw [if_pos rfl, append_nil]
      exact hload.passes
    | false =>
      simp only [Piece.operands, hvoid] at hload
      exact hload.passes_snoc (.plain .pop) (below_refl _ _) .pop
  | returnVoid hret =>
    exact (StackRules.Moves.refl _ []).passes_snoc (.plain .retVoid) .nil (.retVoid hret)
  | @returnValue s _ _ hs hop hret hassignable hcode =>
    have hload := hcode.typed hfew (typable_load hs hop) hts
    rw [operands_value hop] at hload
    rw [s.hash_valueType] at hassignable
    have hfits : (S.rules c.function locals).Below [.value s.dataType.hash]
        [.value c.function.returns.hash] := .cons hassignable .nil
    exact hload.passes_snoc (.plain .ret) hfits (.ret hret)
  | nop => exact (StackRules.Moves.refl _ []).passes_snoc (.plain .nop) .nil .nop
  | jump => exact (StackRules.Moves.refl _ []).passes_snoc ⟨.jump, .label _⟩ .nil .jump
  | guard hs hop _ hcode =>
    have hload := hcode.typed hfew (typable_load hs hop) hts
    rw [operands_value hop] at hload
    exact hload.passes_snoc ⟨.jumpIf false, .label _⟩ (below_refl _ _) .jumpIf

end Symbols

/-- A method of typed statements starts with nothing on its stack. -/
theorem Method.Built.point_start {m : Method} {S : Schema c.registry}
    (hfew : c.function.stackArity ≤ 65536) {segs : List Listing} (h : m.Built c (.typed S) segs) :
    (S.rules m.function m.locals).Point m 0 [] := by
  refine StackRules.point_start h fun seg hseg => ?_
  obtain ⟨ts, hsegment, hts⟩ := h.segments seg hseg
  rw [h.function]
  exact hsegment.typed hfew hts

end StackCode
