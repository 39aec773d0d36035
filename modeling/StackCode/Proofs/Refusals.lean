import StackCode.Proofs.Operations

/-!
# Refusals

A symbol without an address is refused where its address is asked for and no temporary may be used.
The code of a symbol asks for the addresses of its parts too, but there temporaries may be used, so
nothing else is ever refused for want of a capability.
-/

namespace StackCode

open Emitting Emitter

/-- An error for want of a capability. -/
def EmitError.Wants : EmitError → Prop
  | .missingCapability _ _ => True
  | _ => False

namespace Emitting

variable {α β : Type}

/-- An operation on an emitter that does not fail for want of a capability. -/
def Willing (x : Emitting α) : Prop := ∀ e err, (x.outcome e).1 = .error err → ¬err.Wants

theorem Willing.bind {x : Emitting α} {f : α → Emitting β} (hx : x.Willing)
    (hf : ∀ a, (f a).Willing) :
    (x >>= f).Willing := by
  intro e err h
  have hx := hx e
  rw [outcome_bind] at h
  rcases hout : x.outcome e with ⟨err' | a, e'⟩ <;> rw [hout] at h hx
  · cases h
    exact hx err rfl
  · exact hf a e' err h

theorem willing_throw {err : EmitError} (h : ¬err.Wants) : (throw err : Emitting α).Willing := by
  intro e err' h'
  cases h'
  exact h

theorem willing_onChunk (f : Chunk → Nat → Chunk) : (onChunk f).Willing := fun _ _ h => by cases h

theorem willing_addConstant (c : Constant) : (addConstant c).Willing := fun _ _ h => by cases h

theorem willing_poolOperand (i : Nat) : (poolOperand i).Willing := by
  unfold poolOperand
  split
  · exact fun _ _ h => by cases h
  · exact willing_throw not_false

theorem willing_emitHash (op : Opcode) (h : TypeHash) : (emitHash op h).Willing :=
  (willing_addConstant _).bind fun i => (willing_poolOperand i).bind fun _ => willing_onChunk _

theorem willing_emitCall (op : Opcode) (function : TypeHash) (argc : Nat) :
    (emitCall op function argc).Willing := by
  have hrest := (willing_emitHash op function).bind fun _ =>
    willing_onChunk fun c line => c.writeByte (UInt8.ofNat argc) line
  have hfew : ¬(EmitError.invalidOperand (.argumentCount argc)).Wants := not_false
  unfold emitCall
  split
  · exact (willing_throw hfew).bind fun _ => hrest
  · exact hrest

theorem willing_emitLocal (narrow wide : Opcode) (slot : UInt16) :
    (emitLocal narrow wide slot).Willing := by
  unfold emitLocal
  split <;> exact willing_onChunk _

theorem willing_emitLiteral (l : Literal) : (emitLiteral l).Willing := by
  have hpool : Willing (do
      let i ← addConstant (.literal l)
      if i < 256 then emitByte (.constant false) (UInt8.ofNat i)
      else emit16 (.constant true) (← poolOperand i)) := by
    refine (willing_addConstant _).bind fun i => ?_
    split
    · exact willing_onChunk _
    · exact (willing_poolOperand i).bind fun _ => willing_onChunk _
  cases l with
  | null | bool => exact willing_onChunk _
  | _ => exact hpool

end Emitting

namespace Emission

variable {α β : Type} {c : Setting}

/-- An operation that does not fail for want of a capability. -/
def Willing (c : Setting) (x : Emission α) : Prop := ∀ b e, (x.outcome c b).1 = .error e → ¬e.Wants

theorem Willing.bind {x : Emission α} {f : α → Emission β} (hx : x.Willing c)
    (hf : ∀ a, (f a).Willing c) : (x >>= f).Willing c := by
  intro b e h
  have hx := hx b
  rw [outcome_bind] at h
  rcases hout : x.outcome c b with ⟨e' | a, b'⟩ <;> rw [hout] at h hx
  · cases h
    exact hx e rfl
  · exact hf a b' e h

theorem willing_pure (a : α) : (pure a : Emission α).Willing c := fun _ _ h => by cases h

theorem willing_read {f : Setting → Emission β} (h : (f c).Willing c) : (read >>= f).Willing c :=
  fun b e he => h b e he

theorem willing_checking_bind {g : Setting → Except EmitError α} {f : α → Emission β}
    (hg : ∀ e, g c = .error e → ¬e.Wants) (hf : ∀ a, (f a).Willing c) :
    (checking g >>= f).Willing c := by
  refine Willing.bind (fun b e h => hg e ?_) hf
  rwa [outcome_checking] at h

theorem willing_check_bind {f : Unit → Emission β} (context : ContextId) (hf : (f ()).Willing c) :
    (checking (fun s => s.check context) >>= f).Willing c := by
  refine willing_checking_bind (fun e he => ?_) fun _ => hf
  unfold Setting.check at he
  split at he <;> cases he
  exact not_false

theorem willing_onEmitter {x : Emitting α} (h : x.Willing) : (onEmitter x).Willing c :=
  fun b e he => h b.emitter e he

theorem willing_acquireTemporary (type : DataType) : (acquireTemporary type).Willing c := by
  intro b e h
  rw [outcome_acquireTemporary] at h
  split at h
  · cases h
  · split at h <;> cases h
    exact not_false

theorem willing_ofType (r : Registry) (h : TypeHash) {e : EmitError}
    (he : Indirect.ofType r h = .error e) : ¬e.Wants := by
  unfold Indirect.ofType at he
  split at he <;> cases he <;> exact not_false

theorem willing_emitLoad (k : Indirect) : k.emitLoad.Willing c := by
  cases k with
  | scalar => exact willing_onEmitter (willing_onChunk _)
  | block => exact willing_onEmitter (willing_emitHash _ _)

/-- The accesses that a symbol offers for loading it. -/
def Offers (s : Symbol) (a : Access) : Prop := a = .get ∨ a = .address ∧ s.capabilities.address

/-- What is neither by reference nor in place has no address, or one inside a copy. -/
theorem address_of_inPlace {r : Registry} {s : Symbol} (h : s.inPlace r)
    (hplain : s.dataType.isByRef = false) : s.capabilities.address := by
  unfold Symbol.inPlace at h
  split at h
  · rfl
  · rfl
  · simpa [hplain] using h

section Load

variable {s : Symbol} {emit : Access → Emission Unit} (hemit : ∀ a, Offers s a → (emit a).Willing c)
include hemit

theorem willing_loadValue : (loadValue s emit).Willing c := by
  have hget := hemit .get (.inl rfl)
  unfold loadValue
  split
  · exact willing_checking_bind (fun e he => willing_ofType _ _ he) fun k =>
      hget.bind fun _ => willing_emitLoad k
  · exact hget

theorem willing_loadReference {allow : Bool}
    (hplace : allow = false → s.dataType.isByRef ∨ s.inPlace c.registry) :
    (loadReference s emit allow).Willing c := by
  refine willing_read ?_
  dsimp only
  split
  · exact hemit .get (.inl rfl)
  rename_i hplain
  split
  · rename_i hcan
    exact hemit .address (.inr ⟨rfl, ((Bool.and_eq_true _ _).mp hcan).1⟩)
  rename_i hcannot
  split
  · -- a place of its own has an address
    rename_i hallow
    have hin := (hplace (by simpa using hallow)).resolve_left hplain
    have haddr := address_of_inPlace hin (by simpa using hplain)
    exact absurd (by simp [haddr, hin]) hcannot
  · refine (willing_acquireTemporary _).bind fun slot => (hemit .get (.inl rfl)).bind fun _ => ?_
    exact (willing_onEmitter (willing_emitLocal _ _ _)).bind fun _ =>
      willing_onEmitter (willing_emitLocal _ _ _)

/-- A symbol is refused only where no temporary may be used. -/
theorem willing_loadBy {intent : LoadIntent}
    (hplace : intent = .reference false → s.dataType.isByRef ∨ s.inPlace c.registry) :
    (loadBy s emit intent).Willing c := by
  refine willing_check_bind _ ?_
  cases intent with
  | value => exact willing_loadValue hemit
  | reference allow => exact willing_loadReference hemit fun hallow => hplace (by rw [hallow])
  | callTarget =>
    refine willing_read ?_
    split
    · exact willing_loadReference hemit (by simp)
    · exact willing_loadValue hemit
  | parameter passing =>
    dsimp only
    split
    · exact willing_loadReference hemit (by simp)
    · exact willing_loadValue hemit

end Load

theorem willing_refuse_bind {s : Symbol} {a : Access} {f : Unit → Emission Unit} (ha : Offers s a)
    (hcannot : s.capabilities.address = false) (hf : (f ()).Willing c) :
    (refuse s a >>= f).Willing c := by
  rcases ha with rfl | ⟨-, hcan⟩
  · exact hf
  · rw [hcannot] at hcan
    cases hcan

theorem sourceIntent_ne (r : Registry) (k : ConversionRule) :
    sourceIntent r k ≠ .reference false := by
  unfold sourceIntent
  split
  · split <;> simp
  · split <;> simp
  · simp

theorem willing_conversion (k : ConversionRule) : (emitConversion k).Willing c := by
  cases k with
  | identity => exact willing_pure ()
  | box | unbox | cast => exact willing_onEmitter (willing_emitHash _ _)
  | operator | constructor => exact willing_onEmitter (willing_emitCall _ _ _)

mutual

/-- An access that a symbol offers is not refused, whatever the symbol is made of. -/
theorem willing_access (c : Setting) :
    (s : Symbol) → (a : Access) → Offers s a → (emitAccess s a).Willing c
  | .localSlot _ slot _, a, _ => willing_check_bind _ (willing_onEmitter (willing_emitLocal _ _ _))
  | .argument _ slot _, a, _ => willing_check_bind _ (willing_onEmitter (willing_onChunk _))
  | .field c' holder f, a, ha => by
    refine willing_check_bind _ (willing_read ?_)
    have hload : (loadBy holder (emitAccess holder) .callTarget).Willing c :=
      willing_loadBy (willing_access c holder) (by simp)
    have hrest := hload.bind fun _ => willing_onEmitter (willing_emitHash (.field a) f.hash)
    rcases ha with rfl | ⟨rfl, -⟩ <;> exact hrest
  | .staticField _ f, a, _ => willing_check_bind _ (willing_onEmitter (willing_emitHash _ _))
  | .element _ array index _, a, _ =>
    willing_check_bind _ <| (willing_loadBy (willing_access c array) (by simp)).bind fun _ =>
      (willing_loadBy (willing_access c index) (by simp)).bind fun _ =>
        willing_onEmitter (willing_onChunk _)
  | .captured _ id, a, ha => by
    refine willing_check_bind _ ?_
    rcases ha with rfl | ⟨rfl, -⟩ <;> exact willing_onEmitter (willing_onChunk _)
  | .literal _ l, a, ha =>
    willing_check_bind _ <| willing_refuse_bind ha rfl <| willing_onEmitter (willing_emitLiteral l)
  | .binary _ op lhs rhs _, a, ha =>
    willing_check_bind _ <| willing_refuse_bind ha rfl <|
      (willing_loadBy (willing_access c lhs) (by simp)).bind fun _ =>
        (willing_loadBy (willing_access c rhs) (by simp)).bind fun _ =>
          willing_onEmitter (willing_onChunk _)
  | .unary _ op operand _, a, ha =>
    willing_check_bind _ <| willing_refuse_bind ha rfl <|
      (willing_loadBy (willing_access c operand) (by simp)).bind fun _ =>
        willing_onEmitter (willing_onChunk _)
  | .call _ f args, a, ha =>
    willing_check_bind _ <| willing_refuse_bind ha rfl <|
      (willing_arguments c args f.params).bind fun _ => willing_onEmitter (willing_emitCall _ _ _)
  | .callOn _ f receiver args, a, ha =>
    willing_check_bind _ <| willing_refuse_bind ha rfl <|
      (willing_loadBy (willing_access c receiver) (by simp)).bind fun _ =>
        (willing_arguments c args f.params).bind fun _ =>
          willing_onEmitter (willing_emitCall _ _ _)
  | .construct _ f _ args, a, ha =>
    willing_check_bind _ <| willing_refuse_bind ha rfl <|
      (willing_arguments c args f.params).bind fun _ => willing_onEmitter (willing_emitCall _ _ _)
  | .newArray _ element length, a, ha =>
    willing_check_bind _ <| willing_refuse_bind ha rfl <|
      (willing_loadBy (willing_access c length) (by simp)).bind fun _ =>
        willing_onEmitter (willing_emitHash _ _)
  | .arrayLength _ array, a, ha =>
    willing_check_bind _ <| willing_refuse_bind ha rfl <|
      (willing_loadBy (willing_access c array) (by simp)).bind fun _ =>
        willing_onEmitter (willing_onChunk _)
  | .converted _ source k, a, ha =>
    willing_check_bind _ <| willing_refuse_bind ha rfl <| willing_read <|
      (willing_loadBy (willing_access c source) fun h => absurd h (sourceIntent_ne _ _)).bind
        fun _ =>
        willing_conversion k.rule

theorem willing_arguments (c : Setting) :
    (args : List Symbol) → (params : List Param) → (emitArguments args params).Willing c
  | [], _ => willing_pure ()
  | _ :: _, [] => willing_pure ()
  | arg :: args, p :: ps =>
    (willing_loadBy (willing_access c arg) (by simp)).bind fun _ => willing_arguments c args ps

end

/-- The address of a symbol's own storage is refused if there is none, and only then. -/
theorem load_refused_iff {b : Body} {x : Symbol} (hctx : x.context = c.id) :
    ((load x (.reference false)).outcome c b).1 =
        .error (.missingCapability (c.registry.describe x.dataType) .justAddress) ↔
      x.dataType.isByRef = false ∧ x.inPlace c.registry = false := by
  have hcheck : c.checkSymbol x = .ok () := if_pos hctx
  have hload : ((load x (.reference false)).outcome c b).1 =
      ((loadReference x (emitAccess x) false).outcome c b).1 := by
    rw [load, outcome_checking_bind, hcheck]
    rw [outcome_atomically, emitLoad, loadBy, outcome_checking_bind, hcheck]
    dsimp only
    split <;> rename_i hout <;> rw [hout]
  rw [hload]
  constructor
  · intro h
    by_contra hsome
    have hplace : x.dataType.isByRef ∨ x.inPlace c.registry := by
      cases href : x.dataType.isByRef <;> cases hin : x.inPlace c.registry <;> simp_all
    have hwilling : (loadReference x (emitAccess x) false).Willing c :=
      willing_loadReference (willing_access c x) fun _ => hplace
    exact hwilling b _ h trivial
  · rintro ⟨hplain, hin⟩
    simp [loadReference, outcome_bind, hplain, hin]

end Emission

end StackCode
