import StackCode.Proofs.Emission

/-!
# The code of symbols

What is emitted for a symbol follows the structure of the symbol. The relation `Code` says which
commands push a symbol for an intent, access it, or push arguments, and which temporaries are
acquired for that, in order. It is what proofs about emitted code go by.
-/

namespace StackCode

open Emitting List

/-- What is to be emitted: an access to a symbol, a symbol for an intent, or arguments. -/
inductive Piece
  | access (s : Symbol) (a : Access)
  | load (s : Symbol) (intent : LoadIntent)
  | arguments (args : List Symbol) (params : List Param)

namespace Indirect

/-- The instruction for a type; blocks name their type. -/
def command (k : Indirect) (op : Opcode) : Command := match k with
  | .scalar _ => .plain op
  | .block h => ⟨op, .hash h⟩

/-- The command that loads through an address. -/
def loadCommand (k : Indirect) : Command := k.command k.loadOp

/-- The instruction that stores. -/
def storeCommand (k : Indirect) : Command := k.command k.storeOp

end Indirect

/-- The instructions of a conversion. -/
def ConversionRule.code : ConversionRule → List Command
  | .identity => []
  | .box h => [⟨.box, .hash h⟩]
  | .unbox h => [⟨.unbox, .hash h⟩]
  | .operator f _ _ => [⟨.call, .call f 1⟩]
  | .constructor f => [⟨.new, .call f 1⟩]
  | .cast h => [⟨.cast, .hash h⟩]

/-- The commands of a piece, and the temporaries that they use. -/
inductive Code (r : Registry) : Piece → List Temporary → List Command → Prop
  | localSlot {c slot t a} : Code r (.access (.localSlot c slot t) a) [] [.onLocal a slot]
  | argument {c slot t a} : Code r (.access (.argument c slot t) a) [] [⟨.argument a, .slot slot⟩]
  | field {c holder f a ts xs} (hset : a = .set → (Symbol.field c holder f).inPlace r)
      (hholder : Code r (.load holder .callTarget) ts xs) :
      Code r (.access (.field c holder f) a) ts (xs ++ [⟨.field a, .hash f.hash⟩])
  | staticField {c f a} : Code r (.access (.staticField c f) a) [] [⟨.staticField a, .hash f.hash⟩]
  | element {c array index t a ts ts' xs xs'} (harray : Code r (.load array .value) ts xs)
      (hindex : Code r (.load index .value) ts' xs') :
      Code r (.access (.element c array index t) a) (ts ++ ts')
        (xs ++ (xs' ++ [.plain (.element a)]))
  | capturedValue {c id} : Code r (.access (.captured c id) .get) []
    [⟨.loadCaptured, .slot id.index⟩]
  | capturedAddress {c id} : Code r (.access (.captured c id) .address) []
    [⟨.capturedAddress, .slot id.index⟩]
  | literal {c l xs} (hl : LiteralCode l xs) : Code r (.access (.literal c l) .get) [] xs
  | binary {c op lhs rhs t ts ts' xs xs'} (hlhs : Code r (.load lhs .value) ts xs)
      (hrhs : Code r (.load rhs .value) ts' xs') :
      Code r (.access (.binary c op lhs rhs t) .get) (ts ++ ts') (xs ++ (xs' ++ [.plain op.opcode]))
  | unary {c op operand t ts xs} (hoperand : Code r (.load operand .value) ts xs) :
      Code r (.access (.unary c op operand t) .get) ts (xs ++ [.plain op.opcode])
  | call {c f args ts xs} (hargs : Code r (.arguments args f.params) ts xs) :
      Code r (.access (.call c f args) .get) ts (xs ++ [⟨.call, .call f.hash args.length⟩])
  | callOn {c f receiver args ts ts' xs xs'} (hreceiver : Code r (.load receiver .callTarget) ts xs)
      (hargs : Code r (.arguments args f.params) ts' xs') :
      Code r (.access (.callOn c f receiver args) .get) (ts ++ ts')
        (xs ++ (xs' ++ [⟨.callMethod, .call f.hash args.length⟩]))
  | construct {c f t args ts xs} (hargs : Code r (.arguments args f.params) ts xs) :
      Code r (.access (.construct c f t args) .get) ts (xs ++ [⟨.new, .call f.hash args.length⟩])
  | newArray {c element length ts xs} (hlength : Code r (.load length .value) ts xs) :
      Code r (.access (.newArray c element length) .get) ts (xs ++ [⟨.newArray, .hash element⟩])
  | arrayLength {c array ts xs} (harray : Code r (.load array .value) ts xs) :
      Code r (.access (.arrayLength c array) .get) ts (xs ++ [.plain .arrayLength])
  | converted {c source k ts xs} (hsource : Code r (.load source (Emission.sourceIntent r k.rule))
    ts xs) :
      Code r (.access (.converted c source k) .get) ts (xs ++ k.rule.code)
  /-- A value behind a reference. -/
  | referred {s k ts xs} (href : s.dataType.isByRef)
      (hk : Indirect.ofType r s.dataType.hash = .ok k) (hget : Code r (.access s .get) ts xs) :
      Code r (.load s .value) ts (xs ++ [k.loadCommand])
  | value {s ts xs} (hplain : s.dataType.isByRef = false) (hget : Code r (.access s .get) ts xs) :
      Code r (.load s .value) ts xs
  /-- The address that a by-reference symbol holds. -/
  | held {s allow ts xs} (href : s.dataType.isByRef) (hget : Code r (.access s .get) ts xs) :
      Code r (.load s (.reference allow)) ts xs
  /-- The address of a symbol's own storage. -/
  | placed {s allow ts xs} (hplain : s.dataType.isByRef = false) (hcan : s.capabilities.address)
      (hplace : allow || s.inPlace r) (haddress : Code r (.access s .address) ts xs) :
      Code r (.load s (.reference allow)) ts xs
  /-- The address of a temporary that holds the value. -/
  | spilled {s slot ts xs} (hplain : s.dataType.isByRef = false)
      (hcannot : s.capabilities.address = false) (hget : Code r (.access s .get) ts xs) :
      Code r (.load s (.reference true)) (⟨s.dataType, slot⟩ :: ts)
        (xs ++ [.onLocal .set slot, .onLocal .address slot])
  | target {s ts xs} (hload : Code r
        (.load s (if r.isValueType s.valueType.hash then .reference true else .value)) ts xs) :
      Code r (.load s .callTarget) ts xs
  | parameter {s passing ts xs} (hload : Code r
        (.load s (if passing.isReference then .reference true else .value)) ts xs) :
      Code r (.load s (.parameter passing)) ts xs
  | noArguments {params} : Code r (.arguments [] params) [] []
  | noParameters {arg args} : Code r (.arguments (arg :: args) []) [] []
  | arguments {arg args p ps ts ts' xs xs'} (harg : Code r (.load arg (.parameter p.passing)) ts xs)
      (hargs : Code r (.arguments args ps) ts' xs') :
      Code r (.arguments (arg :: args) (p :: ps)) (ts ++ ts') (xs ++ xs')

namespace Emission

variable {c : Setting}

/-- The code of a piece, as a specification of emission. -/
abbrev EmitsPiece (c : Setting) (p : Piece) (x : Emission Unit) : Prop :=
  x.Emits c fun _ ts xs => Code c.registry p ts xs

theorem emits_last {x : Emitting Unit} {C : List Command → Prop}
    {D : Unit → List Temporary → List Command → Prop} (h : x.Emits C)
    (hD : ∀ xs, C xs → D () [] xs) : (onEmitter x).Emits c D :=
  (emits_onEmitter h).mono fun _ ts xs ⟨hts, hC⟩ => by
    subst hts
    exact hD xs hC

theorem Emits.last {p : Piece} {x : Emission Unit} {y : Emitting Unit} {i : Command}
    {D : Unit → List Temporary → List Command → Prop} (hx : EmitsPiece c p x)
    (hy : y.Emits (· = [i]))
    (hD : ∀ ts xs, Code c.registry p ts xs → D () ts (xs ++ [i])) :
    (x >>= fun _ => onEmitter y).Emits c D := by
  refine hx.bind fun _ ts xs hcode => emits_last hy fun _ hxs => ?_
  rw [hxs, append_nil]
  exact hD ts xs hcode

theorem emits_command (k : Indirect) {op : Opcode} (hnone : ∀ w, k = .scalar w → op.sort = .none)
    (hhash : ∀ h, k = .block h → op.sort = .hash) :
    (k.emitOp op).Emits c fun _ ts xs => ts = [] ∧ xs = [k.command op] := by
  cases k with
  | scalar w => exact emits_onEmitter (emits_emit (hnone w rfl))
  | block h => exact emits_onEmitter (emits_emitHash (hhash h rfl) h)

theorem emits_loadOp (k : Indirect) :
    k.emitLoad.Emits c fun _ ts xs => ts = [] ∧ xs = [k.loadCommand] := by
  refine emits_command k ?_ ?_ <;> rintro _ rfl <;> rfl

theorem emits_storeOp (k : Indirect) :
    k.emitStore.Emits c fun _ ts xs => ts = [] ∧ xs = [k.storeCommand] := by
  refine emits_command k ?_ ?_ <;> rintro _ rfl <;> rfl

theorem emits_accessLocal (a : Access) (slot : UInt16) :
    (accessLocal a slot).Emits c fun _ ts xs => ts = [] ∧ xs = [.onLocal a slot] :=
  emits_onEmitter (emits_emitLocal a slot)

section Load

variable {s : Symbol} {emit : Access → Emission Unit}
  (hemit : ∀ a, EmitsPiece c (.access s a) (emit a))
include hemit

theorem emits_loadValue : EmitsPiece c (.load s .value) (loadValue s emit) := by
  unfold loadValue
  split
  · rename_i href
    refine emits_checking_bind fun k hk => (hemit .get).bind fun _ ts xs hget => ?_
    refine (emits_loadOp k).mono fun _ ts' xs' ⟨hts, hxs⟩ => ?_
    subst hts hxs
    rw [append_nil]
    exact .referred href hk hget
  · rename_i hplain
    exact (hemit .get).mono fun _ ts xs hget => .value (by simpa using hplain) hget

theorem emits_loadReference (allow : Bool) :
    EmitsPiece c (.load s (.reference allow)) (loadReference s emit allow) := by
  refine emits_read_bind ?_
  dsimp only
  split
  · rename_i href
    exact (hemit .get).mono fun _ ts xs hget => .held href hget
  rename_i hplain
  have hplain : s.dataType.isByRef = false := by simpa using hplain
  split
  · rename_i hplace
    obtain ⟨hcan, hplace⟩ := (Bool.and_eq_true _ _).mp hplace
    exact (hemit .address).mono fun _ ts xs haddr => .placed hplain hcan hplace haddr
  rename_i hnot
  split
  · exact emits_throw _
  rename_i hallow
  have hallow : allow = true := by simpa using hallow
  subst hallow
  have hcannot : s.capabilities.address = false := by simpa using hnot
  refine (emits_acquireTemporary _).bind fun slot ts xs ⟨hts, hxs⟩ => ?_
  subst hts hxs
  refine (hemit .get).bind fun _ ts xs hget => ?_
  refine (emits_accessLocal .set slot).bind fun _ ts₁ xs₁ ⟨hts₁, hxs₁⟩ => ?_
  subst hts₁ hxs₁
  refine (emits_accessLocal .address slot).mono fun _ ts₂ xs₂ ⟨hts₂, hxs₂⟩ => ?_
  subst hts₂ hxs₂
  simp only [append_nil]
  exact .spilled hplain hcannot hget

theorem emits_loadBy (intent : LoadIntent) :
    EmitsPiece c (.load s intent) (loadBy s emit intent) := by
  refine emits_checking_bind fun _ _ => ?_
  cases intent with
  | value => exact emits_loadValue hemit
  | reference allow => exact emits_loadReference hemit allow
  | callTarget =>
    refine emits_read_bind (Emits.mono ?_ fun _ ts xs hload => .target hload)
    split
    · exact emits_loadReference hemit true
    · exact emits_loadValue hemit
  | parameter passing =>
    refine Emits.mono ?_ fun _ ts xs hload => .parameter hload
    dsimp only
    split
    · exact emits_loadReference hemit true
    · exact emits_loadValue hemit

end Load

/-- A symbol that is no storage is emitted only to get its value. -/
theorem emits_valued {s : Symbol} {a : Access} {x : Setting → Except EmitError Unit}
    {f : Emission Unit}
    (h : EmitsPiece c (.access s .get) f) :
    EmitsPiece c (.access s a) (checking x >>= fun _ => refuse s a >>= fun _ => f) := by
  refine emits_checking_bind fun _ _ => ?_
  cases a with
  | get => exact h
  | set | address =>
    exact Emits.bind (C := fun _ _ _ => False) (emits_read_bind (emits_throw _))
      fun _ _ _ hno => hno.elim

theorem emits_conversion (k : ConversionRule) :
    (emitConversion k).Emits c fun _ ts xs => ts = [] ∧ xs = k.code := by
  cases k with
  | identity => exact emits_pure () ⟨rfl, rfl⟩
  | box h => exact emits_onEmitter (emits_emitHash rfl h)
  | unbox h => exact emits_onEmitter (emits_emitHash rfl h)
  | operator f _ _ => exact emits_onEmitter (emits_emitCall rfl f 1)
  | constructor f => exact emits_onEmitter (emits_emitCall rfl f 1)
  | cast h => exact emits_onEmitter (emits_emitHash rfl h)

mutual

/-- What is emitted for an access to a symbol is its code. -/
theorem emits_access (c : Setting) :
    (s : Symbol) → (a : Access) → EmitsPiece c (.access s a) (emitAccess s a)
  | .localSlot _ slot _, a =>
    emits_checking_bind fun _ _ =>
      emits_last (emits_emitLocal a slot) fun _ hxs => hxs ▸ .localSlot
  | .argument _ slot _, a =>
    emits_checking_bind fun _ _ =>
      emits_last (emits_emit16 rfl rfl slot) fun _ hxs => hxs ▸ .argument
  | .field c' holder f, a => by
    refine emits_checking_bind fun _ _ => emits_read_bind ?_
    have hload := emits_loadBy (emits_access c holder) .callTarget
    dsimp only
    split
    · exact emits_throw _
    · rename_i hplace
      refine hload.last (emits_emitHash rfl f.hash) fun ts xs hhold => .field (fun ha => ?_) hhold
      simpa [ha] using hplace
  | .staticField _ f, a =>
    emits_checking_bind fun _ _ =>
      emits_last (emits_emitHash rfl f.hash) fun _ hxs => hxs ▸ .staticField
  | .element _ array index _, a => by
    refine emits_checking_bind fun _ _ => ?_
    refine (emits_loadBy (emits_access c array) .value).bind fun _ ts xs harray => ?_
    exact (emits_loadBy (emits_access c index) .value).last (emits_emit rfl) fun _ _ =>
      .element harray
  | .captured c' id, a => by
    refine emits_checking_bind fun _ _ => ?_
    cases a with
    | get => exact emits_last (emits_emit16 rfl rfl id.index) fun _ hxs => hxs ▸ .capturedValue
    | set => exact emits_read_bind (emits_throw _)
    | address =>
      exact emits_last (emits_emit16 rfl rfl id.index) fun _ hxs => hxs ▸ .capturedAddress
  | .literal _ l, _ => emits_valued (emits_last (emits_emitLiteral l) fun _ hxs => .literal hxs)
  | .binary _ op lhs rhs _, _ => by
    refine emits_valued ((emits_loadBy (emits_access c lhs) .value).bind fun _ ts xs hlhs => ?_)
    exact (emits_loadBy (emits_access c rhs) .value).last (emits_emit (by cases op <;> rfl))
      fun ts' xs' hrhs =>
      .binary hlhs hrhs
  | .unary _ op operand _, _ =>
    emits_valued ((emits_loadBy (emits_access c operand) .value).last
      (emits_emit (by cases op <;> rfl)) fun _ _ => .unary)
  | .call _ f args, _ =>
    emits_valued ((emits_arguments c args f.params).last (emits_emitCall rfl f.hash args.length)
      fun _ _ => .call)
  | .callOn _ f receiver args, _ => by
    refine emits_valued ((emits_loadBy (emits_access c receiver) .callTarget).bind
      fun _ ts xs hrecv => ?_)
    refine (emits_arguments c args f.params).last (emits_emitCall rfl f.hash args.length)
      fun ts' xs' hargs => ?_
    exact .callOn hrecv hargs
  | .construct _ f _ args, _ =>
    emits_valued ((emits_arguments c args f.params).last (emits_emitCall rfl f.hash args.length)
      fun _ _ => .construct)
  | .newArray _ element length, _ =>
    emits_valued ((emits_loadBy (emits_access c length) .value).last (emits_emitHash rfl element)
      fun _ _ => .newArray)
  | .arrayLength _ array, _ =>
    emits_valued ((emits_loadBy (emits_access c array) .value).last (emits_emit rfl) fun _ _ =>
      .arrayLength)
  | .converted _ source k, _ => by
    refine emits_valued (emits_read_bind ?_)
    refine (emits_loadBy (emits_access c source) _).bind fun _ ts xs hsrc => ?_
    refine (emits_conversion k.rule).mono fun _ ts' xs' ⟨hts, hxs⟩ => ?_
    rw [hts, hxs, append_nil]
    exact .converted hsrc

/-- What is emitted for arguments is their code. -/
theorem emits_arguments (c : Setting) : (args : List Symbol) → (params : List Param) →
      EmitsPiece c (.arguments args params) (emitArguments args params)
  | [], _ => emits_pure () .noArguments
  | _ :: _, [] => emits_pure () .noParameters
  | arg :: args, p :: ps => by
    have hload := emits_loadBy (fun a => emits_access c arg a) (.parameter p.passing)
    refine hload.bind fun _ ts xs harg => ?_
    exact (emits_arguments c args ps).mono fun _ ts' xs' hargs => .arguments harg hargs

end

/-- What is emitted to push a symbol is its code. -/
theorem emits_load (s : Symbol) (intent : LoadIntent) :
    EmitsPiece c (.load s intent) (emitLoad s intent) :=
  emits_loadBy (fun a => emits_access c s a) intent

end Emission

end StackCode
