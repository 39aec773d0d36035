import StackCode.Proofs.Registered
import StackCode.Proofs.Shape
import StackCode.Proofs.WellFormed

/-!
# The shape of emitted code

Code that is emitted for statements moves the stack from one shape to another as the structure of
its symbols says, and every segment of a body starts and ends with an empty stack.
-/

namespace StackCode

open DataType List Piece StackRules.Moves Env StackCode.Symbol Indirect FunctionDecl Option Emission
  Setting Kind

variable {t : DataType} {id : ContextId} {slot : UInt16} {xs : List Command} {r : Registry}
  {source : Symbol} {ts : List Temporary}

/-! ### Bodies that consist of statements -/

/-- Calls, which may have no result. -/
def Symbol.isCall : Symbol → Bool
  | .call _ _ _ | .callOn _ _ _ _ => true
  | _ => false

/-- Nothing is pushed that is not used, and `void` is nothing but the result of a call that is a
statement. -/
def Discipline.statements : Discipline where
  type t := t.hash ≠ .void
  make f := (∀ s ∈ f.parts, s.dataType.hash ≠ .void) ∧ ∀ type length, f = .newArray type length →
    type ≠ .void
  load _ := False
  statement s := s.dataType.hash = .void → s.isCall
  operand s := s.dataType.hash ≠ .void

theorem Symbol.hash_valueType (s : Symbol) : s.valueType.hash = s.dataType.hash := by
  unfold valueType DataType.dereferenced
  split <;> rfl

theorem Symbol.isByRef_valueType (s : Symbol) : s.valueType.isByRef = false := by
  unfold valueType DataType.dereferenced
  split
  · rfl
  · rename_i h
    simpa using h

theorem DataType.isVoid_eq_false (h : t.hash ≠ .void) : t.isVoid = false := by
  simp [isVoid, h]

/-- What a symbol of a type leaves on the stack. -/
def DataType.results (t : DataType) : List Kind := if t.isVoid then [] else [t.kind]

theorem DataType.results_eq (h : t.hash ≠ .void) : t.results = [t.kind] := by
  simp [results, isVoid_eq_false h]

namespace Piece

/-- What a piece takes from the stack. -/
def pops : Piece → List Kind
  | .access _ .set => [.clean]
  | _ => []

/-- What a piece leaves on the stack. -/
def pushes (r : Registry) : Piece → List Kind
  | .access s .get => s.dataType.results
  | .access _ .set => []
  | .access _ .address => [.loose]
  | .load s .value => if s.dataType.isVoid then [] else [.clean]
  | .load _ (.reference _) => [.loose]
  | .load s .callTarget => [if r.isValueType s.valueType.hash then .loose else .clean]
  | .load _ (.parameter passing) => [if passing.isReference then .loose else .clean]
  | .arguments _ params => (params.map fun p => p.slotType.kind).reverse

/-- A piece is made of symbols with values, and arguments fit in number. Only a call without result
can be evaluated as well. -/
def Ready (c : Setting) (locals : Array DataType) : Piece → Prop
  | .access s .get | .load s .value =>
    c.Made .statements locals s ∧ (s.dataType.hash = .void → s.isCall)
  | .access s _ | .load s _ => c.Made .statements locals s ∧ s.dataType.hash ≠ .void
  | .arguments args params => args.length = params.length ∧
    ∀ s ∈ args, c.Made .statements locals s ∧ s.dataType.hash ≠ .void

end Piece

section Moves

variable {c : Setting} {locals : Array DataType} {s : Symbol}

/-- The environment of the code of a context. -/
def Setting.env (c : Setting) (locals : Array DataType) : Env := ⟨c.registry, c.function, locals⟩

theorem Setting.Made.part_ne_void (h : c.Made .statements locals s) :
    ∀ p ∈ s.parts, p.dataType.hash ≠ .void := by
  cases h with
  | declared => simp [Symbol.parts]
  | factory h hmake _ =>
    rw [(Factory.make_ok h).2.1]
    exact hmake.1

namespace Piece

theorem ready_load {intent : LoadIntent} (h : c.Made .statements locals s)
    (hval : s.dataType.hash ≠ .void) : Ready c locals (.load s intent) := by
  cases intent with
  | value => exact ⟨h, fun hvoid => absurd hvoid hval⟩
  | _ => exact ⟨h, hval⟩

theorem Ready.made {a : Access} (h : Ready c locals (.access s a)) :
    c.Made .statements locals s := by
  cases a <;> exact h.1

theorem Ready.part {a : Access} (h : Ready c locals (.access s a)) {p : Symbol}
    (intent : LoadIntent)
    (hp : p ∈ s.parts := by simp [Symbol.parts]) : Ready c locals (.load p intent) :=
  ready_load (h.made.parts p hp) (h.made.part_ne_void p hp)

end Piece

section Fields

variable {f : FieldDecl} (hf : c.registry.fieldByHash? f.hash = some f)
include hf

theorem effect?_field (a : Access) : (c.env locals).effect? ⟨.field a, .hash f.hash⟩ =
    some (.loose :: (a.kinds .clean).1, (a.kinds .clean).2) :=
  congrArg (Option.map _) hf

theorem effect?_staticField (a : Access) :
    (c.env locals).effect? ⟨.staticField a, .hash f.hash⟩ = some (a.kinds .clean) :=
  congrArg (Option.map _) hf

end Fields

theorem Setting.Made.localKind (h : c.Made .statements locals (.localSlot id slot t)) :
    (c.env locals).localKind slot.toNat = t.kind := by
  have hslot : locals[slot.toNat]? = some t := h.checked
  simp [Env.localKind, env, hslot]

/-- A made symbol for an argument slot has what the slot is declared to have. -/
theorem Setting.Made.getElem?_slots {d : Discipline} (h : c.Made d locals (.argument id slot t))
    (hfew : c.function.stackArity ≤ 65536) {κ : Type} (g : DataType → κ) {k : κ}
    (hk : ∀ owner, c.function.owner = some owner → k = g (c.receiverType owner)) :
    ((if c.function.isStatic then [] else [k]) ++ c.function.params.map fun p =>
      g p.slotType)[slot.toNat]?
      = some (g t) := by
  have hinst : c.isInstance = !c.function.isStatic := rfl
  unfold stackArity at hfew
  rcases h.checked with ⟨index, p, hp, rfl, rfl⟩ | ⟨owner, howner, hrecv, rfl, rfl⟩
  · have hlt := (List.getElem?_eq_some_iff.mp hp).1
    rw [hinst]
    cases hstat : c.function.isStatic with
    | true =>
      have hidx : (UInt16.ofNat index).toNat = index := by
        rw [UInt16.toNat_ofNat']
        exact Nat.mod_eq_of_lt (by simp [hstat] at hfew; omega)
      simp [hidx, hp]
    | false =>
      have hidx : (UInt16.ofNat (index + if (!false) = true then 1 else 0)).toNat = index + 1 := by
        rw [UInt16.toNat_ofNat']
        exact Nat.mod_eq_of_lt (by simp [hstat] at hfew; simp; omega)
      rw [hidx]
      simp [hp]
  · have hstat : c.function.isStatic = false := by simpa [hinst] using hrecv
    simp [hstat, hk owner howner]

theorem Setting.Made.argumentKind (h : c.Made .statements locals (.argument id slot t)) :
    (c.env locals).argumentKind slot.toNat ≤ t.kind := by
  unfold Env.argumentKind
  split
  · rename_i hfew
    have hkind := h.getElem?_slots hfew DataType.kind (k := c.function.receiverKind c.registry)
      fun owner howner => by
        unfold receiverKind receiverType
        rw [howner, getD_some]
        split <;> rfl
    have heq :
        (((c.env locals).function.slotKinds (c.env locals).registry)[slot.toNat]?).getD .clean
          = t.kind := congrArg (getD · clean) hkind
    rw [heq]
    exact le_refl _
  · exact clean_le _

namespace Piece

theorem pushes_value (h : s.dataType.hash ≠ .void) : (load s .value).pushes r = [.clean] := by
  simp [pushes, isVoid_eq_false h]

theorem pushes_choice (h : s.dataType.hash ≠ .void) (b : Bool) :
    (load s (if b then .reference true else .value)).pushes r = [if b then .loose else .clean] := by
  cases b with
  | true => rfl
  | false => exact pushes_value h

theorem Ready.pushes_get (h : Ready c locals (.access s .get)) (hcall : s.isCall = false) :
    (access s .get).pushes r = [s.dataType.kind] := by
  refine results_eq fun hvoid => ?_
  rw [h.2 hvoid] at hcall
  cases hcall

theorem Ready.get (h : c.Made .statements locals s) (hval : s.dataType.hash ≠ .void) :
    Ready c locals (.access s .get) := ⟨h, fun hvoid => absurd hvoid hval⟩

end Piece

theorem FunctionDecl.below_results (f : FunctionDecl) : Below f.resultKinds f.returns.results := by
  unfold resultKinds DataType.results
  split
  · exact .nil
  · refine .cons ?_ .nil
    unfold resultKind
    split
    · exact clean_le _
    · exact le_refl _

theorem FunctionDecl.below_receiver (f : FunctionDecl) {h : TypeHash}
    (hassign : r.assignable h (f.owner.getD .empty)) :
    Below [if r.isValueType h then .loose else .clean] [f.receiverKind r] := by
  unfold receiverKind
  by_cases hval : r.isValueType h
  · rw [← Registry.eq_of_assignable hval hassign]
    exact .refl _
  · rw [if_neg hval]
    exact clean_below _

theorem Param.below_slot (p : Param) :
    Below [if p.passing.isReference then .loose else .clean] [p.slotType.kind] := by
  unfold Param.slotType
  split
  · exact .refl _
  · exact clean_below _

/-- A function that converts says how it takes the source. -/
theorem pushes_converted {function : TypeHash} {f : FunctionDecl}
    (hf : r.function? function = some f)
    (hlen : f.params.length = 1) (source : Symbol) :
    (∀ declaring op, Below ((Piece.load source
        (sourceIntent r (.operator function declaring op))).pushes r) f.paramKinds.reverse) ∧
      Below ((Piece.load source (sourceIntent r (.constructor function))).pushes r)
        f.paramKinds.reverse := by
  obtain ⟨p, hp⟩ := length_eq_one_iff.mp hlen
  obtain ⟨hash, name, owner, params, returns, isStatic, kind⟩ := f
  cases hp
  simp only [sourceIntent, hf]
  exact ⟨fun _ _ => p.below_slot, p.below_slot⟩

/-- The code of a conversion leaves a value, if the source was pushed as it is needed. -/
theorem moves_conversion (hr : c.registry.Registered) {target : TypeHash} {k : Conversion}
    (hk : c.registry.resolve source.valueType.hash target = .ok k)
    (hval : source.dataType.hash ≠ .void)
    (hsource : (c.env locals).rules.Moves [] xs
      ((Piece.load source (sourceIntent c.registry k.rule)).pushes c.registry)) :
    (c.env locals).rules.Moves [] (xs ++ k.rule.code) [.clean] := by
  obtain ⟨-, htgt, hrefers⟩ := hr.coherent.resolve hk
  have hplain : sourceIntent c.registry k.rule = .value →
    (c.env locals).rules.Moves [] xs [.clean] := by
    intro hintent
    rwa [hintent, pushes_value hval] at hsource
  cases hrule : k.rule with
  | identity => exact (hplain (by rw [hrule]; rfl)).trans (.refl _ _)
  | box h => exact (hplain (by rw [hrule]; rfl)).next rfl
  | unbox h | cast h =>
    exact (hplain (by rw [hrule]; rfl)).snoc _ (below_loose _) rfl
  | operator function declaring op =>
    rw [hrule] at hrefers hsource
    obtain ⟨f, hf, hkind, hparams, hret⟩ := hrefers
    have hlen := Registry.length_of_paramHashes hparams
    have hres : f.resultKinds = [.clean] := by
      rw [resultKinds, isVoid_eq_false (hret ▸ htgt), resultKind, hkind]
      rfl
    have hf : (c.env locals).registry.function? function = some f := hf
    refine hsource.snoc ⟨.call, .call function 1⟩
      ((pushes_converted hf hlen source).1 declaring op) ?_
    simp [rules, effect?, callee?_eq hf hlen.symm, hkind, hres]
  | constructor function =>
    rw [hrule] at hrefers hsource
    obtain ⟨f, hf, hkind, hparams, -⟩ := hrefers
    have hlen := Registry.length_of_paramHashes hparams
    have hf : (c.env locals).registry.function? function = some f := hf
    refine hsource.snoc ⟨.new, .call function 1⟩ (pushes_converted hf hlen source).2 ?_
    simp [rules, effect?, callee?_eq hf hlen.symm, hkind]

section Cases

variable {xs' : List Command}

theorem moves_localSlot (hready : (Piece.access (.localSlot id slot t) a).Ready c locals) :
    (c.env locals).rules.Moves (Piece.access (.localSlot id slot t) a).pops [.onLocal a slot]
      ((Piece.access (.localSlot id slot t) a).pushes c.registry) := by
  have hkind := hready.made.localKind
  cases a with
  | get =>
    rw [hready.pushes_get rfl]
    refine .command _ ?_
    show some ([], [(c.env locals).localKind slot.toNat]) = _
    rw [hkind]
    rfl
  | set =>
    exact (command (.onLocal .set slot) rfl).weaken (clean_below _)
  | address => exact .command _ rfl

theorem moves_argument (hready : (Piece.access (.argument id slot t) a).Ready c locals) :
    (c.env locals).rules.Moves (Piece.access (.argument id slot t) a).pops
      [⟨.argument a, .slot slot⟩]
      ((Piece.access (.argument id slot t) a).pushes c.registry) := by
  have hkind := hready.made.argumentKind
  cases a with
  | get =>
    rw [hready.pushes_get rfl]
    exact (command ⟨.argument .get, .slot slot⟩ rfl).mono (.cons hkind .nil)
  | set =>
    exact (command ⟨.argument .set, .slot slot⟩ rfl).weaken (clean_below _)
  | address => exact .command _ rfl

theorem moves_field {holder : Symbol} {f : FieldDecl} (hr : c.registry.Registered)
    (hready : (Piece.access (.field id holder f) a).Ready c locals)
    (hhold : (c.env locals).rules.Moves [] xs ((Piece.load holder .callTarget).pushes c.registry)) :
    (c.env locals).rules.Moves (Piece.access (.field id holder f) a).pops
      (xs ++ [⟨.field a, .hash f.hash⟩])
      ((Piece.access (.field id holder f) a).pushes c.registry) := by
  have hhold := hhold.mono (below_loose _)
  obtain ⟨name, hf, -⟩ := hready.made.checked
  have heff : ∀ a, (c.env locals).effect? ⟨.field a, .hash f.hash⟩ = _ :=
    effect?_field (hr.field hf).1
  cases a with
  | get =>
    rw [hready.pushes_get rfl]
    exact (hhold.next (heff .get)).mono (clean_below _)
  | set => exact (hhold.frame [.clean]).next (heff .set)
  | address => exact hhold.next (heff .address)

theorem moves_element {array index : Symbol}
    (hready : (Piece.access (.element id array index t) a).Ready c locals)
    (harray : (c.env locals).rules.Moves [] xs ((Piece.load array .value).pushes c.registry))
    (hidx : (c.env locals).rules.Moves [] xs' ((Piece.load index .value).pushes c.registry)) :
    (c.env locals).rules.Moves (Piece.access (.element id array index t) a).pops
      (xs ++ (xs' ++ [.plain (.element a)]))
      ((Piece.access (.element id array index t) a).pushes c.registry) := by
  rw [pushes_value (hready.made.part_ne_void _ (by simp [parts]))] at harray hidx
  have hboth : (c.env locals).rules.Moves [] (xs ++ xs') [.loose, .loose] :=
    (harray.pushes hidx).mono (.cons (le_loose _) (below_loose _))
  rw [← append_assoc]
  cases a with
  | get =>
    rw [hready.pushes_get rfl]
    exact (hboth.next (x := .plain (.element .get)) rfl).mono (clean_below _)
  | set =>
    exact (hboth.frame [.clean]).next rfl
  | address => exact hboth.next rfl

theorem moves_binary {op : BinaryOp} {lhs rhs : Symbol}
    (hready : (Piece.access (.binary id op lhs rhs t) .get).Ready c locals)
    (hlhs : (c.env locals).rules.Moves [] xs ((Piece.load lhs .value).pushes c.registry))
    (hrhs : (c.env locals).rules.Moves [] xs' ((Piece.load rhs .value).pushes c.registry)) :
    (c.env locals).rules.Moves [] (xs ++ (xs' ++ [.plain op.opcode]))
      ((Piece.access (.binary id op lhs rhs t) .get).pushes c.registry) := by
  rw [pushes_value (hready.made.part_ne_void _ (by simp [parts]))] at hlhs hrhs
  have hboth : (c.env locals).rules.Moves [] (xs ++ xs') [.loose, .loose] :=
    (hlhs.pushes hrhs).mono (.cons (le_loose _) (below_loose _))
  rw [← append_assoc, hready.pushes_get rfl]
  refine (hboth.next (x := .plain op.opcode) ?_ ?_).mono (clean_below _)
  · cases op <;> rfl
  · cases op <;> simp [Command.plain, BinaryOp.opcode, Opcode.sort]

theorem moves_spilled (hval : s.dataType.hash ≠ .void)
    (hslot : locals[slot.toNat]? = some s.dataType)
    (hget : (c.env locals).rules.Moves [] xs ((Piece.access s .get).pushes c.registry)) :
    (c.env locals).rules.Moves [] (xs ++ [.onLocal .set slot, .onLocal .address slot])
    [.loose] := by
  rw [Piece.pushes, results_eq hval] at hget
  have hkind : (c.env locals).localKind slot.toNat = s.dataType.kind := by
    simp [localKind, env, hslot]
  have hset := hget.next (x := .onLocal .set slot) (by rw [← hkind]; rfl)
  have haddr := hset.snoc (.onLocal .address slot) .nil rfl
  rw [append_assoc] at haddr
  exact haddr.mono (below_loose _)

end Cases

/-- The code of a symbol moves the stack as the symbol says. -/
theorem Code.moves (hr : c.registry.Registered) {p : Piece} (h : Code c.registry p ts xs)
    (hready : p.Ready c locals) (hts : ∀ t ∈ ts, locals[t.slot.toNat]? = some t.type) :
    (c.env locals).rules.Moves p.pops xs (p.pushes c.registry) := by
  -- Code may leave a clean value where an address is allowed, so cases end with `mono`.
  induction h with
  | localSlot => exact moves_localSlot hready
  | argument => exact moves_argument hready
  | field _ _ ih => exact moves_field hr hready (ih (hready.part _) hts)
  | @staticField _ f a =>
    obtain ⟨owner, name, hf, -⟩ := hready.made.checked
    have heff : ∀ a, (c.env locals).effect? ⟨.staticField a, .hash f.hash⟩ = _ :=
      effect?_staticField (hr.field hf).1
    cases a with
    | get =>
      rw [hready.pushes_get rfl]
      exact (command _ (heff .get)).mono (clean_below _)
    | set => exact .command _ (heff .set)
    | address => exact .command _ (heff .address)
  | element _ _ ih ih' =>
    obtain ⟨hts, hts'⟩ := forall_mem_append.mp hts
    exact moves_element hready (ih (hready.part _) hts) (ih' (hready.part _) hts')
  | @capturedValue _ id =>
    have howner : c.function.owner.isSome := by rw [hready.made.checked.1]; rfl
    rw [hready.pushes_get rfl]
    refine (command ⟨.loadCaptured, .slot id.index⟩ ?_).mono (clean_below _)
    exact if_pos howner
  | capturedAddress =>
    have howner : c.function.owner.isSome := by rw [hready.made.checked.1]; rfl
    exact .command _ (if_pos howner)
  | literal hl =>
    rw [hready.pushes_get rfl]
    refine mono ?_ (clean_below _)
    rcases hl with ⟨-, rfl⟩ | ⟨b, -, rfl⟩ | ⟨wide, l', -, rfl⟩ <;> exact .command _ rfl
  | binary _ _ ih ih' =>
    obtain ⟨hts, hts'⟩ := forall_mem_append.mp hts
    exact moves_binary hready (ih (hready.part _) hts) (ih' (hready.part _) hts')
  | @unary _ op operand _ _ _ _ ih =>
    have hop := ih (hready.part _) hts
    rw [pushes_value (hready.made.part_ne_void _ (by simp [parts]))] at hop
    rw [hready.pushes_get rfl]
    refine (hop.snoc (.plain op.opcode) (below_loose _) ?_ ?_).mono (clean_below _)
    · cases op <;> rfl
    · cases op <;> simp [Command.plain, UnaryOp.opcode, Opcode.sort]
  | @call _ f args _ _ _ ih =>
    have hmade := hready.made
    obtain ⟨function, hf, hkind, -, hlen, -⟩ := hmade.checked
    have hf : (c.env locals).registry.function? f.hash = some f := hr.coherent.function hf
    have hargs := ih ⟨hlen, fun s hs => ⟨hmade.parts s hs, hmade.part_ne_void s hs⟩⟩ hts
    refine (hargs.next (x := ⟨.call, .call f.hash args.length⟩) ?_).mono f.below_results
    simp only [rules, effect?, callee?_eq hf hlen, bind_some, if_neg hkind]
    rfl
  | @callOn _ f receiver args _ _ xs xs' _ _ ih ih' =>
    obtain ⟨hts, hts'⟩ := forall_mem_append.mp hts
    have hmade := hready.made
    obtain ⟨function, hf, hkind, -, hlen, hassign, -⟩ := hmade.checked
    have hf : (c.env locals).registry.function? f.hash = some f := hr.coherent.function hf
    have hrecv := ih (hready.part _) hts
    have hargs := ih' ⟨hlen, fun s hs => ⟨hmade.parts s (mem_cons_of_mem _ hs),
      hmade.part_ne_void s (mem_cons_of_mem _ hs)⟩⟩ hts'
    have hboth := (hrecv.mono (f.below_receiver hassign)).pushes hargs
    rw [← append_assoc]
    refine (hboth.next (x := ⟨.callMethod, .call f.hash args.length⟩) ?_).mono f.below_results
    simp only [rules, effect?, callee?_eq hf hlen, bind_some, if_neg hkind]
    rfl
  | @construct _ f t args _ _ _ ih =>
    have hmade := hready.made
    obtain ⟨function, hf, hkind, -, hlen, -⟩ := hmade.checked
    have hf : (c.env locals).registry.function? f.hash = some f := hr.coherent.function hf
    have hargs := ih ⟨hlen, fun s hs => ⟨hmade.parts s hs, hmade.part_ne_void s hs⟩⟩ hts
    rw [hready.pushes_get rfl]
    refine (hargs.next (x := ⟨.new, .call f.hash args.length⟩) ?_).mono (clean_below _)
    simp only [rules, effect?, callee?_eq hf hlen, bind_some, if_pos hkind]
    rfl
  | @newArray _ element length _ _ _ ih =>
    have hlen := ih (hready.part _) hts
    have hval : element ≠ .void := hready.made.checked.2 element length rfl
    rw [pushes_value (hready.made.part_ne_void _ (by simp [parts]))] at hlen
    rw [hready.pushes_get rfl]
    refine (hlen.snoc ⟨.newArray, .hash element⟩ (below_loose _) ?_).mono (clean_below _)
    exact if_neg hval
  | arrayLength _ ih =>
    have harray := ih (hready.part _) hts
    rw [pushes_value (hready.made.part_ne_void _ (by simp [parts]))] at harray
    rw [hready.pushes_get rfl]
    exact (harray.snoc (.plain .arrayLength) (below_loose _) rfl).mono (clean_below _)
  | converted _ ih =>
    have hsource := ih (hready.part _) hts
    rw [hready.pushes_get rfl]
    obtain ⟨target, hk, -⟩ := hready.made.checked
    exact (moves_conversion hr hk (hready.made.part_ne_void _ (by simp [parts])) hsource).mono
      (clean_below _)
  | @referred s k _ _ href _ _ ih =>
    have hget := ih hready hts
    have hvoid : s.dataType.isVoid = false := by
      rw [DataType.isByRef, beq_iff_eq] at href
      simp [DataType.isVoid, href]
    simp only [Piece.pushes, DataType.results, hvoid] at hget ⊢
    refine hget.snoc k.loadCommand (below_loose _) ?_ ?_
    · cases k <;> rfl
    · cases k <;> simp [loadCommand, Indirect.command, Indirect.loadOp, Command.plain, Opcode.sort]
  | value hplain _ ih =>
    have hget := ih hready hts
    simp only [Piece.pushes, DataType.results, kind_of_plain hplain] at hget ⊢
    exact hget
  | held _ _ ih =>
    have hget := ih (.get hready.1 hready.2) hts
    rw [Piece.pushes, results_eq hready.2] at hget
    exact hget.mono (below_loose _)
  | placed _ _ _ _ ih =>
    exact (ih hready hts).mono (below_loose _)
  | spilled _ _ _ ih =>
    obtain ⟨hslot, hts⟩ := forall_mem_cons.mp hts
    exact moves_spilled hready.2 hslot (ih (.get hready.1 hready.2) hts)
  | target _ ih | parameter _ ih =>
    have hload := ih (ready_load hready.1 hready.2) hts
    rwa [pushes_choice hready.2] at hload
  | noArguments =>
    rw [Piece.pushes, length_eq_zero_iff.mp hready.1.symm]
    exact .refl _ _
  | noParameters =>
    cases hready.1
  | @arguments _ _ p ps _ _ _ _ _ _ ih ih' =>
    obtain ⟨hts, hts'⟩ := forall_mem_append.mp hts
    obtain ⟨hlen, hargs⟩ := hready
    obtain ⟨harg, hargs⟩ := forall_mem_cons.mp hargs
    have hfirst := (ih (ready_load harg.1 harg.2) hts).mono p.below_slot
    have hrest := ih' ⟨Nat.succ.inj hlen, hargs⟩ hts'
    rw [Piece.pushes, map_cons, reverse_cons]
    exact hfirst.pushes hrest

theorem Code.temporaries {p : Piece} (h : Code c.registry p ts xs) (hready : p.Ready c locals) :
    ∀ t ∈ ts, t.type.hash ≠ .void := by
  induction h with
  | localSlot | argument | staticField | capturedValue | capturedAddress | literal | noArguments
  | noParameters => simp
  | field _ _ ih | unary _ ih | newArray _ ih | arrayLength _ ih | converted _ ih =>
    exact ih (hready.part _)
  | element _ _ ih ih' | binary _ _ ih ih' =>
    exact forall_mem_append.mpr ⟨ih (hready.part _), ih' (hready.part _)⟩
  | call _ ih | construct _ ih =>
    have hmade := hready.made
    obtain ⟨-, -, -, -, hlen, -⟩ := hmade.checked
    exact ih ⟨hlen, fun s hs => ⟨hmade.parts s hs, hmade.part_ne_void s hs⟩⟩
  | callOn _ _ ih ih' =>
    have hmade := hready.made
    obtain ⟨-, -, -, -, hlen, -⟩ := hmade.checked
    refine forall_mem_append.mpr ⟨ih (hready.part _), ih' ?_⟩
    exact ⟨hlen, fun s hs => ⟨hmade.parts s (mem_cons_of_mem _ hs),
      hmade.part_ne_void s (mem_cons_of_mem _ hs)⟩⟩
  | referred _ _ _ ih | value _ _ ih | placed _ _ _ _ ih => exact ih hready
  | held _ _ ih => exact ih (.get hready.1 hready.2)
  | spilled _ _ _ ih =>
    exact forall_mem_cons.mpr ⟨hready.2, ih (.get hready.1 hready.2)⟩
  | target _ ih | parameter _ ih => exact ih (ready_load hready.1 hready.2)
  | arguments _ _ ih ih' =>
    obtain ⟨hlen, hargs⟩ := hready
    obtain ⟨harg, hargs⟩ := forall_mem_cons.mp hargs
    exact forall_mem_append.mpr ⟨ih (ready_load harg.1 harg.2), ih' ⟨Nat.succ.inj hlen, hargs⟩⟩

/-! ### Segments -/

section Copy

variable {dest : Symbol} {path : CopyPath} (hdest : c.Made .statements locals dest)
  (hsource : c.Made .statements locals source)
  (hvalues : dest.dataType.hash ≠ .void ∧ source.dataType.hash ≠ .void)
include hdest hsource hvalues

/-- An assignment leaves nothing on the stack. -/
theorem CopyCode.moves (hr : c.registry.Registered) (h : CopyCode c.registry dest source path ts xs)
    (hts : ∀ t ∈ ts, locals[t.slot.toNat]? = some t.type) :
    (c.env locals).rules.Moves [] xs [] := by
  cases h with
  | direct hd hs =>
    obtain ⟨hts, hts'⟩ := forall_mem_append.mp hts
    have hd := hd.moves hr (ready_load hdest hvalues.1) hts
    have hs := hs.moves hr (ready_load hsource hvalues.2) hts'
    rw [← append_assoc]
    exact (hd.pushes hs).next rfl
  | @indirect k pointer value _ _ _ _ _ hd hs =>
    simp only [forall_mem_cons, forall_mem_append] at hts
    obtain ⟨hptr, hval, hts, hts'⟩ := hts
    have hd := hd.moves hr (.get hdest hvalues.1) hts
    have hs := hs.moves hr (ready_load hsource hvalues.2) hts'
    rw [Piece.pushes, results_eq hvalues.1] at hd
    rw [pushes_value hvalues.2] at hs
    have hptr : (c.env locals).localKind pointer.toNat = dest.dataType.kind := by
      simp [localKind, env, hptr]
    have hset := hd.next (x := .onLocal .set pointer) (by rw [← hptr]; rfl)
    have hset' := (hset.trans hs).snoc (.onLocal .set value) (clean_below _) rfl
    have hget := hset'.snoc (.onLocal .get pointer) .nil rfl
    have hget' := (hget.mono (below_loose _)).pushes (.command (.onLocal .get value) rfl)
    have hstore := hget'.snoc k.storeCommand (.cons (le_loose _) (below_loose _))
      (by cases k <;> rfl) (by cases k <;> simp [storeCommand, Indirect.command,
        storeOp, Command.plain, Opcode.sort])
    simpa using hstore
  | stack hs hd =>
    obtain ⟨hts, hts'⟩ := forall_mem_append.mp hts
    have hs := hs.moves hr (ready_load hsource hvalues.2) hts
    rw [pushes_value hvalues.2] at hs
    exact hs.trans (hd.moves hr ⟨hdest, hvalues.1⟩ hts')

theorem CopyCode.temporaries (h : CopyCode c.registry dest source path ts xs) :
    ∀ t ∈ ts, t.type.hash ≠ .void := by
  cases h with
  | direct hd hs =>
    exact forall_mem_append.mpr ⟨hd.temporaries (ready_load hdest hvalues.1),
      hs.temporaries (ready_load hsource hvalues.2)⟩
  | indirect _ hd hs =>
    refine forall_mem_cons.mpr ⟨hvalues.1, forall_mem_cons.mpr ⟨?_, ?_⟩⟩
    · rw [hash_valueType]
      exact hvalues.1
    · exact forall_mem_append.mpr ⟨hd.temporaries (.get hdest hvalues.1),
        hs.temporaries (ready_load hsource hvalues.2)⟩
  | stack hs hd =>
    exact forall_mem_append.mpr ⟨hs.temporaries (ready_load hsource hvalues.2),
      hd.temporaries (p := .access dest .set) ⟨hdest, hvalues.1⟩⟩

end Copy

/-- A segment starts and ends with an empty stack. -/
theorem Segment.passes (hr : c.registry.Registered) (h : Segment c .statements locals ts xs)
    (hts : ∀ t ∈ ts, locals[t.slot.toNat]? = some t.type) :
    (c.env locals).rules.Passes [] xs [] := by
  cases h with
  | load _ hload => exact absurd hload id
  | copy hdest hsource hops _ hcode =>
    exact (hcode.moves hdest hsource hops hr hts).passes
  | @statement s _ _ hs hstmt hcode =>
    have hload := hcode.moves hr ⟨hs, hstmt⟩ hts
    cases hvoid : s.dataType.isVoid with
    | true =>
      simp only [Piece.pushes, hvoid] at hload
      have hpasses : (c.env locals).rules.Passes [] _ [] := hload.passes
      simpa using hpasses
    | false =>
      simp only [Piece.pushes, hvoid] at hload
      exact hload.passes_snoc (.plain .pop) (below_loose _) rfl
  | returnVoid hret =>
    exact (refl _ []).passes_snoc (.plain .retVoid) .nil (if_pos hret)
  | returnValue hs hop hret _ hcode =>
    have hload := hcode.moves hr (ready_load hs hop) hts
    rw [pushes_value hop] at hload
    have hret : ¬(c.env locals).function.returns.isVoid := by simp [env, hret]
    exact hload.passes_snoc (.plain .ret) (Below.refl _) (if_neg hret)
  | nop => exact (refl _ []).passes_snoc (.plain .nop) .nil rfl
  | jump => exact (refl _ []).passes_snoc ⟨.jump, .label _⟩ .nil rfl
  | guard hs hop _ hcode =>
    have hload := hcode.moves hr (ready_load hs hop) hts
    rw [pushes_value hop] at hload
    exact hload.passes_snoc ⟨.jumpIf false, .label _⟩ (below_loose _) rfl

theorem Segment.temporaries (h : Segment c .statements locals ts xs) :
    ∀ t ∈ ts, t.type.hash ≠ .void := by
  cases h with
  | load _ hload => exact absurd hload id
  | copy hdest hsource hops _ hcode => exact hcode.temporaries hdest hsource hops
  | statement hs hstmt hcode => exact hcode.temporaries ⟨hs, hstmt⟩
  | returnVoid | nop | jump => simp
  | returnValue hs hop _ _ hcode | guard hs hop _ hcode =>
    exact hcode.temporaries (ready_load hs hop)

end Moves

end StackCode
