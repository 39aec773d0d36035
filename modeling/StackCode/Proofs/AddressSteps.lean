import StackCode.Proofs.AddressRules
import StackCode.Proofs.Scripts

/-!
# Instructions and addresses

Each instruction that is emitted for a statement leaves addresses only where they may be, and leads
only to places that are there, if the host and the native functions do not bring in other addresses.
-/

namespace StackCode

open FunctionDecl List Method Option Regime Value Env Meaning State Root

variable {m : Method} {r : Registry} {i : Instr} {ks pops pushes : List Kind} {W : World}
  {v : Value}
  {root : Root} {place : Address} {accepts : Value → String × Bool} {G : Regime} {a : Action}
  {p : Program} {s : State} {f : FunctionDecl} {rest : List Frame} {us args : List Value}
  {function : TypeHash} {x : Command} {slot : UInt16} {native : Native}

theorem Method.WellFormed.opcodes_eq {code : List Instr} (h : m.WellFormed code) :
    m.chunk.opcodes = code.map Instr.op := by
  rw [Chunk.opcodes, h.instructions, List.map_map]
  rfl

/-! ### Faults of instructions -/

theorem Fault.Ordinary.not_misses {e : Fault} (h : e.Ordinary) : ¬e.Misses := by
  cases e <;> first | exact fun hmisses => hmisses | cases h

/-- What the operand of an instruction refers to is there. -/
structure Method.Resolves (r : Registry) (m : Method) (i : Instr) : Prop where
  hash : i.op.sort = .hash ∨ i.op.sort = .call → ∃ h, m.hashAt i = .ok h
  literal : i.op.sort = .literal → ∃ l, m.literalAt i = .ok l
  owner : i.op.isCapture → m.function.owner.isSome
  field : ∀ a, i.op = .field a → ∃ h f, m.hashAt i = .ok h ∧ r.fieldByHash? h = some f

theorem Method.resolves_of_effect (hx : x.Encoded m.constants i)
    (heff : (m.env r).effect? x = some (pops, pushes)) : m.Resolves r i := by
  refine ⟨fun hsort => ?_, fun hsort => ?_, fun hop => ?_, fun a hop => ?_⟩
  · rw [hx.1] at hsort
    rcases hsort with hsort | hsort
    · obtain ⟨h, -, hh⟩ := hx.exists_hash hsort
      exact ⟨h, hashAt_of_typeHash hh⟩
    · obtain ⟨h, -, hh⟩ := hx.exists_call hsort
      exact ⟨h, hashAt_of_typeHash hh⟩
  · rw [hx.1] at hsort
    obtain ⟨l, hl⟩ := hx.exists_literal hsort
    exact ⟨l, by rw [literalAt, hl]⟩
  · rw [hx.1] at hop
    obtain ⟨op, operand⟩ := x
    unfold effect? at heff
    cases op <;> cases hop
    all_goals
      dsimp only at heff
      split at heff
      · assumption
      · cases heff
  · obtain ⟨op, operand⟩ := x
    cases hx.1.symm.trans hop
    obtain ⟨h, rfl, hh⟩ := hx.exists_hash rfl
    obtain ⟨f, hf, -⟩ := map_eq_some_iff.mp heff
    exact ⟨h, f, hashAt_of_typeHash hh, hf⟩

/-- A computation that ends in ordinary faults only. -/
def Tame {α : Type} (x : Except Fault α) : Prop := ∀ e, x = .error e → e.Ordinary

namespace Tame

variable {α β : Type}

theorem ok (a : α) : Tame (.ok a) := by
  intro e he
  cases he

theorem error {e : Fault} (h : e.Ordinary) : Tame (.error e : Except Fault α) := by
  intro e' he
  cases he
  exact h

theorem bind {x : Except Fault α} {f : α → Except Fault β} (hx : Tame x) (hf : ∀ a, Tame (f a)) :
    Tame (x >>= f) := by
  cases x with
  | error e => exact error (hx e rfl)
  | ok a => exact hf a

theorem object? (v : Value) : Tame v.object? := by
  cases v with
  | ref id => exact ok id
  | lit l => cases l <;> exact error trivial
  | void | address | aggregate => exact error trivial

theorem address? (v : Value) : Tame v.address? := by
  cases v with
  | address a => exact ok a
  | _ => exact error trivial

theorem memberAddress? (index : UInt16) (v : Value) : Tame (v.memberAddress? index) := by
  cases v with
  | ref id => exact ok _
  | address a => exact ok _
  | lit l => cases l <;> exact error trivial
  | void | aggregate => exact error trivial

theorem accepted (v : Value) (accepts : Value → String × Bool) : Tame (v.accepted accepts) := by
  unfold Value.accepted
  split
  · exact ok v
  · exact error trivial

theorem get (heap : Heap) (id : ObjectId) : Tame (heap.get id) := fun _ => Exec.ordinary_of_get

theorem arrayLength (heap : Heap) (id : ObjectId) : Tame (heap.arrayLength id) := by
  refine (get heap id).bind fun o => ?_
  split
  · exact ok _
  · exact error trivial

theorem elementAddress (heap : Heap) (array index : Value) :
    Tame (heap.elementAddress array index) := by
  refine (object? array).bind fun id => ?_
  split
  · exact error trivial
  · refine (arrayLength heap id).bind fun n => ?_
    split
    · exact ok _
    · exact error trivial

theorem elements (r : Registry) (element : TypeHash) (length : Value) :
    Tame (r.elements element length) := by
  unfold Registry.elements
  split
  · exact error trivial
  · split
    · exact error trivial
    · exact ok _

theorem unboxed (r : Registry) (target : TypeHash) (o : HeapObject) :
    Tame (r.unboxed target o) := by
  unfold Registry.unboxed
  split
  · exact error trivial
  · exact ok _

theorem castAction (r : Registry) (heap : Heap) (target : TypeHash) (v : Value) :
    Tame (r.castAction heap target v) := by
  unfold Registry.castAction
  split
  · exact ok _
  · refine bind ?_ fun actual => ?_
    · unfold Heap.dynamicType
      split
      · exact (get heap _).bind fun o => ok _
      · exact ok _
      · exact error trivial
    · split
      · exact ok _
      · exact error trivial

theorem constructAction (p : Program) (function : TypeHash) (args : List Value) :
    Tame (p.constructAction function args) := by
  unfold Program.constructAction
  split
  · exact ok _
  · split
    · exact ok _
    · exact error trivial

theorem onField (x : Access) (index : UInt16) (holder v : Value) :
    Tame (x.onField index holder v) := by
  unfold Access.onField
  split
  · exact ok _
  · exact (memberAddress? index holder).bind fun a => ok _

theorem branch (v : Value) (expected : Bool) (target : Nat) : Tame (v.branch expected target) := by
  unfold Value.branch
  split
  · exact error trivial
  · exact ok _

theorem action (h : m.Resolves p.registry i) (heap : Heap) (level : Nat) (us : List Value) :
    Tame (i.action p m heap level us) := by
  have hhash {β : Type} {f : TypeHash → Except Fault β}
    (hsort : i.op.sort = .hash ∨ i.op.sort = .call)
      (hf : ∀ t, Tame (f t)) : Tame (m.hashAt i >>= f) := by
    obtain ⟨t, ht⟩ := h.hash hsort
    rw [ht]
    exact hf t
  have hcapt {β : Type} {f : Root → Except Fault β} (hop : i.op.isCapture)
      (hf : ∀ root, Tame (f root)) : Tame (m.capturedAt i >>= f) := by
    obtain ⟨owner, howner⟩ := isSome_iff_exists.mp (h.owner hop)
    unfold Method.capturedAt
    rw [howner]
    exact hf _
  unfold Instr.action
  cases hop : i.op with dsimp only
  | constant =>
    obtain ⟨l, hl⟩ := h.literal (by rw [hop]; rfl)
    rw [hl]
    exact ok _
  | pushNull | pushBool | nop | pop | ret | retVoid | dup | swap | localSlot | argument | jump =>
    exact ok _
  | staticField => exact hhash (.inl (by rw [hop]; rfl)) fun h => ok _
  | field x =>
    obtain ⟨t, f, ht, hf⟩ := h.field x hop
    have hidx : p.registry.fieldIndex t = .ok f.index := by
      unfold Registry.fieldIndex
      rw [hf]
    rw [ht]
    show Tame (p.registry.fieldIndex t >>= _)
    rw [hidx]
    exact onField x f.index _ _
  | element => exact (elementAddress heap _ _).bind fun a => ok _
  | newArray => exact hhash (.inl (by rw [hop]; rfl)) fun h => (elements _ h _).bind fun vs => ok _
  | arrayLength => exact (object? _).bind fun id => (arrayLength heap id).bind fun n => ok _
  | loadCaptured => exact hcapt (by rw [hop]; rfl) fun root => ok _
  | capturedAddress => exact hcapt (by rw [hop]; rfl) fun root => ok _
  | loadIndirect | loadObject => exact (address? _).bind fun a => ok _
  | storeIndirect | storeObject =>
    exact (address? _).bind fun a => (accepted _ _).bind fun v => ok _
  | copyObject => exact (address? _).bind fun a => (address? _).bind fun b => ok _
  | box => exact hhash (.inl (by rw [hop]; rfl)) fun h => ok _
  | unbox =>
    exact hhash (.inl (by rw [hop]; rfl)) fun h => (object? _).bind fun id =>
      (get heap id).bind fun o =>
      (unboxed _ h o).bind fun v => ok _
  | cast => exact hhash (.inl (by rw [hop]; rfl)) fun h => castAction _ heap h _
  | new => exact hhash (.inr (by rw [hop]; rfl)) fun h => constructAction p h _
  | call => exact hhash (.inr (by rw [hop]; rfl)) fun h => ok _
  | callMethod =>
    split
    · exact error trivial
    · exact hhash (.inr (by rw [hop]; rfl)) fun h => ok _
  | arith op => exact bind (fun _ => ordinary_of_arith) fun v => ok _
  | neg => exact bind (fun _ => ordinary_of_negate) fun v => ok _
  | not => exact bind (fun _ => ordinary_of_complement) fun v => ok _
  | compare op => exact bind (fun _ => ordinary_of_compare) fun v => ok _
  | jumpIf x => exact branch _ x _

end Tame

/-- The world of a state where nothing is known of objects. -/
abbrev State.framing (s : State) : World := s.world fun _ _ => none

namespace Regime

theorem passes_of_kinds {ls : List Kind} {xs : List Command} (h : (m.env r).rules.Passes ks xs ls)
    (hcapture : G.strict → ∀ x ∈ xs, x.op.isCapture = false) :
    (G.rules r m).Passes ks xs ls := by
  induction h with
  | nil hks => exact .nil hks
  | cons hx hks hjump _ ih =>
    exact .cons ⟨hx, fun hstrict => hcapture hstrict _ (by simp)⟩ hks hjump
      (ih fun hstrict x hx => hcapture hstrict x (by simp [hx]))

theorem exists_means {c : Cell} (h : (G.meaning r).Holds W v c) : ∃ W k, G.Means r W k v := by
  cases c with
  | localSlot k n | argument k n =>
    obtain ⟨m, -, hv⟩ := h
    exact ⟨_, _, hv⟩
  | static | object | captured => exact ⟨W, .clean, h⟩

theorem holds_replace {new old : Value} {path : List UInt16} (hnew : G.Plain new)
    (hv : replace new old path = .ok v) {c : Cell} (h : (G.meaning r).Holds W old c) :
    (G.meaning r).Holds W v c := by
  cases c with
  | localSlot k n | argument k n =>
    obtain ⟨m, hm, hold⟩ := h
    exact ⟨m, hm, hold.replace hnew hv⟩
  | static | object | captured => exact hnew.replace h hv

theorem finds (hs : (G.meaning p.registry).Stores s) (h : G.Stands p.registry s.framing root) :
    (G.meaning p.registry).Finds p s root := by
  intro e he hstrict hmisses
  have h := h hstrict
  rw [root_eq, cell?_materialize_self] at he
  cases root with
  | localSlot k n | argument k n =>
    obtain ⟨m, hm, hn⟩ := h
    have hm : s.methods[k]? = some m := hm
    rw [methods_getElem?] at hm
    obtain ⟨f, hf, rfl⟩ := map_eq_some_iff.mp hm
    have hformed := hs.formed f (mem_of_frame? hf)
    simp only [Root.cell, cell?, hf, bind_some] at he
    rw [Array.getElem?_eq_getElem (by first | rwa [hformed.locals] | rwa [hformed.args])] at he
    cases he
  | static hash =>
    obtain ⟨f, hf⟩ := h
    cases hold : s.statics[hash]? <;> simp [cell, cell?, default?, Root.read, hold, hf] at he
  | heap id =>
    cases hold : s.cell? (.object id) <;> simp [cell, default?, Root.read, hold] at he
    subst he
    exact hmisses
  | captured owner index => exact h

theorem replaces (hs : (G.meaning p.registry).Stores s) (hv : G.Plain v)
    (h : G.Stands p.registry s.framing place.root) :
    (G.meaning p.registry).Replaces p s place v :=
  ⟨finds hs h, fun _ _ hold hnew => ⟨holds_replace hv hnew hold, .refl _⟩⟩

end Regime

/-! ### Native functions and programs -/

namespace Regime

variable (G : Regime) (r : Registry)

/-- What may be handed in from outside for a kind. There are no frames outside. -/
def Brings (k : Kind) (v : Value) : Prop := G.Means r ⟨fun _ => none, []⟩ k v

/-- Arguments as a function declares them, with or without a receiver. -/
def Passed (f : FunctionDecl) (args : List Value) : Prop :=
  ∃ W, List.Forall₂ (G.Means r W) f.paramKinds args ∨
    List.Forall₂ (G.Means r W) (f.receiverKind r :: f.paramKinds) args

variable {G r}

theorem Brings.means {k : Kind} (h : G.Brings r k v) (W : World) : G.Means r W k v :=
  Means.below ⟨fun _ _ hnone => (by cases hnone), nil_prefix⟩ h

end Regime

/-- A native function heeds its declaration: objects keep holding plain values, and so does a
result, unless it is declared to be an address. -/
structure Native.Discreet (G : Regime) (r : Registry) (f : FunctionDecl) (native : Native) :
    Prop where
  heap : ∀ heap args, (∀ o ∈ heap.objects, G.Plain o.value) → G.Passed r f args →
    ∀ o ∈ (native heap args).2.objects, G.Plain o.value
  fault : ∀ heap args e, (∀ o ∈ heap.objects, G.Plain o.value) → G.Passed r f args →
    (native heap args).1 = .error e → G.strict → ¬e.Misses
  result : ∀ heap args v, (∀ o ∈ heap.objects, G.Plain o.value) → G.Passed r f args →
    (native heap args).1 = .ok v → if f.kind = .constructor then G.Plain v
      else if f.returns.isVoid then v = .void
      else v.isVoid = false ∧ G.Brings r f.resultKind v

/-- A program of statements for registered functions with discreet native functions. Where places
have to be there, captured values are not used. A constructor that runs on a cell gets the address
of it, which may not stand in a slot for values unless values may hold it. -/
structure Program.Heeds (G : Regime) (p : Program) : Prop where
  registered : p.registry.Registered
  voidFree : p.registry.VoidFree
  methods : ∀ (h : TypeHash) m, p.methods[h]? = some m →
    p.registry.function? h = some m.function ∧ m.OfStatements p.registry
  captures : ∀ (h : TypeHash) m, p.methods[h]? = some m → G.strict → ∀ op ∈ m.chunk.opcodes,
    op.isCapture = false
  natives : ∀ (h : TypeHash) native f, p.natives[h]? = some native →
    p.registry.function? h = some f →
    native.Discreet G p.registry f
  cells : (∀ id, G.free (.heap id)) ∨ ∀ h f owner, p.registry.function? h = some f →
    f.kind = .constructor → f.owner = some owner →
      p.registry.isValueType owner ∨ p.registry.kind? owner = some .reference

namespace Regime

variable {f : Frame} {k : Kind}

/-! ### Places -/

theorem meets_push (h : G.Plain v) (hks : ks = [k]) :
    (G.meaning p.registry).Meets p s ks (.push [v]) := by
  rw [hks]
  exact .cons (means_of_plain h k) .nil

theorem meets_address {a : Address} (h : G.Stands p.registry s.framing a.root) :
    (G.meaning p.registry).Meets p s [.loose] (.push [.address a]) :=
  .cons (.inr (.inr ⟨a, rfl, h⟩)) .nil

section

variable (hs : (G.meaning p.registry).Stores s)
include hs

/-- An access to a root whose cell holds operands of a kind. -/
theorem meets_onRoot (hroot : G.Stands p.registry s.framing root)
    (hholds : ∀ v, (G.meaning p.registry).Holds s.framing v root.cell ↔
      G.Means p.registry s.framing k v) (a : Access)
    (hus : Forall₂ (G.Means p.registry s.framing) (a.kinds k).1 us) :
    (G.meaning p.registry).Meets p s (a.kinds k).2 (a.onRoot root (us.getD 0 .void)) := by
  cases a with
  | get => exact ⟨finds hs hroot, fun v hv => .cons ((hholds v).mp hv) .nil⟩
  | set =>
    obtain _ | ⟨hv, ⟨⟩⟩ := hus
    refine ⟨rfl, finds hs hroot, fun old new _ hnew => ?_⟩
    cases hnew
    exact ⟨(hholds _).mpr hv, .refl _⟩
  | address => exact meets_address hroot

theorem meets_onPlace (hplace : G.Stands p.registry s.framing place.root) (hpath : place.path ≠ [])
    (a : Access) (hus : Forall₂ (G.Means p.registry s.framing) (a.kinds .clean).1 us) :
    (G.meaning p.registry).Meets p s (a.kinds .clean).2 (a.onPlace place (us.getD 0 .void)) := by
  cases a with
  | get =>
    refine ⟨finds hs hplace, fun v w hv hw _ => ?_⟩
    obtain ⟨W, k, hv⟩ := exists_means hv
    exact .cons (hv.follow hpath hw) .nil
  | set =>
    obtain _ | ⟨hv, ⟨⟩⟩ := hus
    exact ⟨rfl, replaces hs hv hplace⟩
  | address => exact meets_address hplace

theorem meets_onField {index : UInt16} {holder : Value}
    (hhold : G.Means p.registry s.framing .loose holder) {a : Access}
    (hus : Forall₂ (G.Means p.registry s.framing) (a.kinds .clean).1 us) {x : Action}
    (hx : a.onField index holder (us.getD 0 .void) = .ok x) :
    (G.meaning p.registry).Meets p s (a.kinds .clean).2 x := by
  rcases Access.onField_eq_ok hx with ⟨item, rfl, hitem, rfl⟩ | ⟨place, hplace, rfl⟩
  · obtain ⟨items, rfl, hitem⟩ := item?_eq_some hitem
    have hplain := hhold.plain (by simp) (by simp)
    exact meets_push (hplain.item item (mem_of_getElem? hitem)) rfl
  · rcases memberAddress?_eq_ok hplace with ⟨id, rfl, rfl⟩ | ⟨b, rfl, rfl⟩
    · exact meets_onPlace hs (stands_heap id) (by simp [Address.member]) a hus
    · have hstands : G.Stands p.registry s.framing (b.member index).root := hhold.stands
      exact meets_onPlace hs hstands (by simp [Address.member]) a hus

theorem meets_onElement {array index : Value}
    (hplace : s.heap.elementAddress array index = .ok place)
    (a : Access) (hus : Forall₂ (G.Means p.registry s.framing) (a.kinds .clean).1 us) :
    (G.meaning p.registry).Meets p s (a.kinds .clean).2 (a.onPlace place (us.getD 0 .void)) := by
  obtain ⟨id, n, -, rfl⟩ := Heap.elementAddress_eq_ok hplace
  exact meets_onPlace hs (stands_heap id) (by simp [Address.member]) a hus

end

/-- A test that neither nothing nor an address passes. -/
structure Selects (accepts : Value → String × Bool) : Prop where
  void : (accepts .void).2 = false
  address : ∀ a, (accepts (.address a)).2 = false

theorem selects_load (w : LoadWidth) : Selects w.accepts := by
  cases w <;> exact ⟨rfl, fun _ => rfl⟩

theorem selects_store (w : StoreWidth) : Selects w.accepts := by
  cases w <;> exact ⟨rfl, fun _ => rfl⟩

theorem selects_block : Selects acceptedAsBlock := ⟨rfl, fun _ => rfl⟩

section

variable (h : Selects accepts)
include h

theorem Selects.plain (hv : G.Means p.registry W k v) (hacc : (accepts v).2 = true) :
    G.Plain v := by
  refine hv.plain ?_ fun a => ?_
  · rintro rfl
    rw [h.void] at hacc
    cases hacc
  · rintro rfl
    rw [h.address] at hacc
    cases hacc

/-- What is loaded through an address and selected is plain. -/
theorem Selects.found {w : Value} (hv : (G.meaning p.registry).Holds s.framing v place.root.cell)
    (hw : v.follow place.path = .ok w) (hacc : (accepts w).2 = true) :
    G.Plain w := by
  obtain ⟨W, k, hv⟩ := exists_means hv
  exact h.plain (p := p) (hv.follow_means hw) hacc

theorem meets_load (hs : (G.meaning p.registry).Stores s)
    (hplace : G.Means p.registry s.framing .loose (.address place)) :
    (G.meaning p.registry).Meets p s [.clean] (.load place accepts) :=
  ⟨finds hs hplace.stands, fun _ _ hv hw hacc => .cons (h.found hv hw hacc) .nil⟩

theorem meets_store (hs : (G.meaning p.registry).Stores s)
    (hplace : G.Means p.registry s.framing .loose (.address place))
    (hv : G.Means p.registry s.framing .loose v) (hacc : (accepts v).2 = true) :
    (G.meaning p.registry).Meets p s [] (.store place v) :=
  ⟨rfl, replaces hs (h.plain hv hacc) hplace.stands⟩

end

/-! ### Objects -/

theorem allocates (type : TypeHash) (hv : G.Plain v) : (G.meaning p.registry).Allocates s type v :=
  ⟨.refl _, hv⟩

theorem meets_alloc (type : TypeHash) (hv : G.Plain v) :
    (G.meaning p.registry).Meets p s [.clean] (.alloc type v) :=
  ⟨allocates type hv, .cons (Plain.ref _) .nil⟩

theorem plain_object (hs : (G.meaning p.registry).Stores s) {id : ObjectId} {o : HeapObject}
    (ho : s.heap.get id = .ok o) : G.Plain o.value := by
  unfold Heap.get at ho
  split at ho <;> cases ho
  exact hs.kept.object id o ‹_›

end Regime

namespace Program.Heeds

variable (hp : p.Heeds G)
include hp

theorem plain_default {h : TypeHash} (hvoid : h ≠ .void) : G.Plain (p.registry.defaultValue h) :=
  ⟨hp.voidFree.clean_defaultValue hvoid, p.registry.within_defaultWithin _ _ _⟩

theorem plain_layout (h : TypeHash) : G.Plain (Exec.objectLayout p.registry h) := by
  refine ⟨hp.voidFree.clean_objectLayout h, .aggregate fun v hv => ?_⟩
  obtain ⟨f, -, rfl⟩ := mem_map.mp hv
  exact p.registry.within_defaultWithin _ _ _

theorem function_eq (hm : p.methods[function]? = some m)
    (hf : p.registry.function? function = some f) :
    m.function = f := by
  have hm := (hp.methods function m hm).1
  rw [hf] at hm
  exact (Option.some.inj hm).symm

end Program.Heeds

/-- The result of a native function that is no constructor. -/
theorem Native.Discreet.forall₂_result (h : native.Discreet G r f) (hkind : f.kind ≠ .constructor)
    {heap : Heap} (hheap : ∀ o ∈ heap.objects, G.Plain o.value) (hargs : G.Passed r f args)
    (hv : (native heap args).1 = .ok v) (W : World) :
    Forall₂ (G.Means r W) f.resultKinds (if v.isVoid then [] else [v]) := by
  have hres := h.result _ _ v hheap hargs hv
  rw [if_neg hkind] at hres
  unfold FunctionDecl.resultKinds
  cases hvoid : f.returns.isVoid with
  | true =>
    rw [if_pos hvoid] at hres
    subst hres
    exact .nil
  | false =>
    rw [if_neg (by simp [hvoid])] at hres
    obtain ⟨hv, hbrings⟩ := hres
    simp only [hv]
    exact .cons (hbrings.means _) .nil

/-! ### Calls -/

namespace Program.Heeds

variable (hp : p.Heeds G) (hf : p.registry.function? function = some f)
include hp hf

/-- A method can be called with arguments that fit its slots. -/
theorem welcomes (hfew : args.length ≤ 256) (hargs : args.length = f.stackArity →
      Forall₂ (G.Means p.registry s.framing) (f.slotKinds p.registry) args) {resume : Resume}
    (hgives : (G.meaning p.registry).Gives s.framing f ks resume) :
    (G.meaning p.registry).Welcomes p s ks function args resume := by
  intro m hm
  cases hp.function_eq hm hf
  refine ⟨fun harity n v hv => ?_, hgives⟩
  have hmeans : G.Means p.registry s.framing ((m.env p.registry).argumentKind n) v :=
    m.argumentKind_of_slots (hargs harity) (by omega) hv
  have hbelow : s.framing.Below ⟨fun _ => none, s.methods ++ [m]⟩ := ⟨.refl _, prefix_append _ _⟩
  exact hmeans.below hbelow

section

variable (hs : (G.meaning p.registry).Stores s)
include hs

/-- What a native function leaves, if its result is what is expected. -/
theorem meets_native (hnative : p.natives[function]? = some native)
    (hargs : G.Passed p.registry f args)
    (constructs : Bool)
    (hres : (∀ o ∈ s.heap.objects, G.Plain o.value) → ∀ v, (native s.heap args).1 = .ok v →
      Forall₂ (G.Means p.registry s.framing) ks (if !constructs && v.isVoid then [] else [v])) :
    (G.meaning p.registry).Meets p s ks (.native native args constructs) := by
  have hdiscreet := hp.natives function native f hnative hf
  have hheap : ∀ o ∈ s.heap.objects, G.Plain o.value := by
    intro o ho
    obtain ⟨n, hn⟩ := Array.getElem?_of_mem ho
    exact hs.kept.object ⟨n⟩ o hn
  refine ⟨fun e he => hdiscreet.fault _ _ e hheap hargs he, .refl _, fun id o ho => ?_, hres hheap⟩
  exact hdiscreet.heap _ _ hheap hargs o (Array.mem_of_getElem? ho)

/-- A call of a function, if its result is what is expected. -/
theorem meets_callAction (hfew : args.length ≤ 256) (hpassed : G.Passed p.registry f args)
    (hargs : args.length = f.stackArity → Forall₂ (G.Means p.registry s.framing)
      (f.slotKinds p.registry) args)
    (hnative : ∀ native, p.natives[function]? = some native →
      (∀ o ∈ s.heap.objects, G.Plain o.value) → ∀ v, (native s.heap args).1 = .ok v →
        Forall₂ (G.Means p.registry s.framing) ks (if v.isVoid then [] else [v]))
    (hgives : (G.meaning p.registry).Gives s.framing f ks .caller) :
    (G.meaning p.registry).Meets p s ks (p.callAction function args) := by
  rcases p.callAction_cases function args with ⟨native, hfound, hcall⟩ | ⟨-, hcall⟩
  · rw [hcall]
    exact hp.meets_native hf hs hfound hpassed false (hnative native hfound)
  · rw [hcall]
    exact hp.welcomes hf hfew hargs hgives

theorem meets_constructAction (hkind : f.kind = .constructor) (hfew : args.length < 256)
    (hargs : Forall₂ (G.Means p.registry s.framing) f.paramKinds args)
    (ha : p.constructAction function args = .ok a) :
    (G.meaning p.registry).Meets p s [.clean] a := by
  have hslots : ∀ receiver, G.Means p.registry s.framing (f.receiverKind p.registry) receiver →
      (receiver :: args).length = f.stackArity →
        Forall₂ (G.Means p.registry s.framing) (f.slotKinds p.registry) (receiver :: args) :=
    fun receiver hrecv => f.forall₂_slots f.length_paramKinds hrecv hargs
  have hcount : ∀ receiver : Value, (receiver :: args).length ≤ 256 := fun _ => hfew
  rcases Program.constructAction_eq_ok ha with
    ⟨native, hnative, rfl⟩ | ⟨-, g, owner, hg, howner, rfl⟩
  · refine hp.meets_native hf hs hnative ⟨_, .inl hargs⟩ true fun hheap v hv => ?_
    have hres := (hp.natives function native f hnative hf).result _ _ v hheap ⟨_, .inl hargs⟩ hv
    rw [if_pos hkind] at hres
    exact .cons hres .nil
  · cases hf.symm.trans hg
    have hvoid : owner ≠ .void := by
      rintro rfl
      exact hp.voidFree.constructed function f hf hkind howner
    refine ⟨fun _ => ⟨Regime.allocates owner (hp.plain_layout owner), ?_⟩,
      fun hother => ⟨Regime.allocates owner (hp.plain_default hvoid), ?_⟩⟩
    · refine hp.welcomes (s := s.allocated _ _) hf (hcount _) (hslots _ ?_) (.cons (.ref _) .nil)
      exact means_of_plain (.ref _) _
    · refine hp.welcomes (s := s.allocated _ _) hf (hcount _) (hslots _ ?_) fun W v _ hv =>
        .cons hv .nil
      -- a cell is known by its address
      have haddr : ∀ id, G.Means p.registry s.framing (f.receiverKind p.registry)
          (.address (.ofRoot (.heap id))) := by
        intro id
        rcases hp.cells with hfree | hcells
        · exact means_of_plain ⟨.address _, .address (hfree id)⟩ _
        · have hval := (hcells function f owner hf hkind howner).resolve_right hother
          have hloose : f.receiverKind p.registry = .loose := by
            simp [FunctionDecl.receiverKind, howner, hval]
          rw [hloose]
          exact .inr (.inr ⟨_, rfl, stands_heap id⟩)
      exact haddr _

end

end Program.Heeds

/-! ### All instructions -/

namespace Env

variable {e : Env} {k : Pool}

theorem length_pops (h : e.effect? x = some (pops, pushes)) (hx : x.Encoded k i)
    (hret : x.op ≠ .ret) : pops.length = i.pops := by
  obtain ⟨op, operand⟩ := x
  have hop : i.op = op := hx.1
  have hargc : ∀ {f : FunctionDecl}, e.callee? operand = some f → op.sort = .call →
    f.params.length = i.argc := by
    intro f hf hsort
    obtain ⟨function, rfl, -⟩ := hx.exists_call hsort
    exact (callee?_some hf).2.symm
  have haccess : ∀ (a : Access) (k : Kind), (a.kinds k).1.length = a.pops := by
    intro a k
    cases a <;> rfl
  unfold effect? at h
  unfold Instr.pops
  rw [hop]
  cases op with
  | dup | swap => cases h
  | ret => exact absurd rfl hret
  | constant | pushNull | pushBool | nop | jump | pop | jumpIf | arrayLength | loadIndirect
  | loadObject | unbox | cast | neg | not | storeIndirect | storeObject | copyObject | box | arith
  | compare =>
    cases h
    rfl
  | localSlot wide a | argument a | staticField a =>
    obtain ⟨n, -, heq⟩ := map_eq_some_iff.mp h
    rw [← (Prod.mk.inj heq).1]
    exact haccess a _
  | field a =>
    obtain ⟨n, -, heq⟩ := map_eq_some_iff.mp h
    rw [← (Prod.mk.inj heq).1]
    exact congrArg (· + 1) (haccess a _)
  | element a =>
    cases h
    exact congrArg (· + 2) (haccess a _)
  | newArray =>
    obtain ⟨n, -, h⟩ := bind_eq_some_iff.mp h
    split at h <;> cases h
    rfl
  | loadCaptured | capturedAddress | retVoid =>
    dsimp only at h
    split at h <;> cases h
    rfl
  | new | call =>
    obtain ⟨f, hf, h⟩ := bind_eq_some_iff.mp h
    split at h <;> cases h
    rw [length_reverse, length_paramKinds]
    exact hargc hf rfl
  | callMethod =>
    obtain ⟨f, hf, h⟩ := bind_eq_some_iff.mp h
    split at h <;> cases h
    rw [length_append, length_reverse, length_paramKinds]
    exact congrArg (· + 1) (hargc hf rfl)

end Env

theorem Method.capturedAt_eq_ok (h : m.capturedAt i = .ok root) :
    ∃ owner index, root = .captured owner index := by
  unfold capturedAt at h
  split at h <;> cases h
  exact ⟨_, _, rfl⟩

namespace Program.Heeds

variable (hp : p.Heeds G) {f : Frame}
include hp

omit hp in
theorem exists_call (hsite : (G.meaning p.registry).Site p s f rest x i pops pushes us)
    (hop : x.op = .call ∨ x.op = .callMethod)
    (ha : i.action p f.method s.heap rest.length us = .ok a) :
    ∃ function g args, x.operand = .call function i.argc ∧ p.registry.function? function = some g ∧
      g.kind ≠ .constructor ∧ pushes = g.resultKinds ∧ a = p.callAction function args ∧
      args.length ≤ 256 ∧ G.Passed p.registry g args ∧ (args.length = g.stackArity →
        Forall₂ (G.Means p.registry s.framing) (g.slotKinds p.registry) args) := by
  obtain ⟨hframes, -, hx, hargc, hslots, ⟨heff, -⟩, hops, hs⟩ := hsite
  have hus : Forall₂ (G.Means p.registry s.framing) pops us := hops
  obtain ⟨op, operand⟩ := x
  have hacts := Instr.acts ha
  rw [show i.op = op from hx.1] at hacts
  rcases hop with rfl | rfl
  all_goals
    obtain ⟨function, rfl, hfun⟩ := hx.exists_call rfl
    obtain ⟨g, hg, heff⟩ := bind_eq_some_iff.mp heff
    obtain ⟨hg, hcount⟩ := callee?_some hg
    split at heff <;> cases heff
    cases hacts
    rename_i hh
    cases (hashAt_of_typeHash hfun).symm.trans hh
  · have hargs := forall₂_arguments hus
    refine ⟨function, g, _, rfl, hg, ‹_›, rfl, rfl, ?_, ⟨_, .inl hargs⟩,
      g.forall₂_params g.length_paramKinds hargs⟩
    rw [← hargs.length_eq, length_paramKinds, ← hcount]
    omega
  · have hargs : Forall₂ (G.Means p.registry s.framing)
        (g.receiverKind p.registry :: g.paramKinds) us.reverse := by
      refine forall₂_arguments ?_
      rwa [reverse_cons]
    have hlen := hargs.length_eq
    rw [length_cons, length_paramKinds, ← hcount] at hlen
    refine ⟨function, g, _, rfl, hg, ‹_›, rfl, rfl, by omega, ⟨_, .inr hargs⟩, fun harity => ?_⟩
    obtain ⟨receiver, args, hrecv, hargs, heq⟩ := forall₂_cons_left_iff.mp hargs
    rw [heq] at harity ⊢
    exact g.forall₂_slots g.length_paramKinds hrecv hargs harity

theorem meets_call (hsite : (G.meaning p.registry).Site p s f rest x i pops pushes us)
    (hop : x.op = .call ∨ x.op = .callMethod)
    (ha : i.action p f.method s.heap rest.length us = .ok a) :
    (G.meaning p.registry).Meets p s pushes a := by
  obtain ⟨function, g, args, -, hg, hkind, rfl, rfl, hfew, hpassed, hargs⟩ :=
    exists_call hsite hop ha
  refine hp.meets_callAction hg hsite.stores hfew hpassed hargs
    (fun native hnative hheap v hv => ?_)
    (gives_results _ _ g)
  exact (hp.natives function native g hnative hg).forall₂_result hkind hheap hpassed hv _

/-- The action of an instruction meets what its command leaves. -/
theorem meets (hsite : (G.meaning p.registry).Site p s f rest x i pops pushes us)
    (hlabel : x.op.sort ≠ .label) (ha : i.action p f.method s.heap rest.length us = .ok a) :
    (G.meaning p.registry).Meets p s pushes a := by
  have hcalls := fun hop => hp.meets_call hsite hop ha
  obtain ⟨hframes, -, hx, hargc, hslots, ⟨heff, hcapture⟩, hops, hs⟩ := hsite
  have hus : Forall₂ (G.Means p.registry s.framing) pops us := hops
  obtain ⟨op, operand⟩ := x
  have hop : i.op = op := hx.1
  have hmethod := methods_top (S := G.meaning p.registry) hframes
  have hholds {v : Value} (n : Nat) := holds_top (S := G.meaning p.registry) (v := v) hframes n
  have hacts := Instr.acts ha
  rw [hop] at hacts
  unfold effect? at heff
  -- Each action says what was popped, and the effect of the command what is known of it.
  cases hacts with dsimp only at heff
  | constant | pushNull | pushBool | arrayLength | compare =>
    cases heff
    exact meets_push (.lit _) rfl
  | nop | pop =>
    cases heff
    exact .nil
  | ret | retVoid =>
    split at heff <;> cases heff
    exact .nil
  | dup | swap => cases heff
  | @localSlot wide a =>
    obtain ⟨slot, rfl, hslot⟩ := hx.exists_slot rfl
    obtain ⟨rfl, rfl⟩ := Prod.ext_iff.mp (Option.some.inj heff)
    have hlt : slot.toNat < f.method.locals.size := by
      rw [← hslot, UInt16.toNat_ofNat']
      exact Nat.lt_of_le_of_lt (Nat.mod_le _ _) (hslots.localSlot wide a hop)
    have hstands : G.Stands p.registry s.framing (.localSlot rest.length slot) :=
      fun _ => ⟨_, hmethod, hlt⟩
    rw [hslot]
    exact meets_onRoot hs hstands (fun _ => (hholds slot.toNat).1) a hus
  | @argument a =>
    obtain ⟨slot, rfl, hslot⟩ := hx.exists_slot rfl
    obtain ⟨rfl, rfl⟩ := Prod.ext_iff.mp (Option.some.inj heff)
    have hlt : slot.toNat < f.method.function.stackArity := by
      rw [← hslot, UInt16.toNat_ofNat']
      exact Nat.lt_of_le_of_lt (Nat.mod_le _ _) (hslots.argument a hop)
    have hstands : G.Stands p.registry s.framing (.argument rest.length slot) :=
      fun _ => ⟨_, hmethod, hlt⟩
    rw [hslot]
    exact meets_onRoot hs hstands (fun _ => (hholds slot.toNat).2) a hus
  | @staticField a _ hh =>
    obtain ⟨t, rfl, ht⟩ := hx.exists_hash rfl
    obtain ⟨d, hd, hkinds⟩ := map_eq_some_iff.mp heff
    obtain ⟨rfl, rfl⟩ := Prod.ext_iff.mp hkinds
    cases (hashAt_of_typeHash ht).symm.trans hh
    have hstands : G.Stands p.registry s.framing (.static _) := fun _ => ⟨d, hd⟩
    exact meets_onRoot hs hstands (fun _ => Iff.rfl) a hus
  | field _ _ ha =>
    obtain ⟨d, -, hkinds⟩ := map_eq_some_iff.mp heff
    obtain ⟨rfl, rfl⟩ := Prod.ext_iff.mp hkinds
    obtain _ | ⟨hhold, hus⟩ := hus
    exact meets_onField hs hhold hus ha
  | @element a _ hplace =>
    cases heff
    obtain _ | ⟨-, _ | ⟨-, hus⟩⟩ := hus
    exact meets_onElement hs hplace a hus
  | newArray hh =>
    obtain ⟨t, rfl, ht⟩ := hx.exists_hash rfl
    have heff : (if t = .void then none else some ([Kind.loose], [Kind.clean])) =
      some (pops, pushes) := heff
    split at heff <;> cases heff
    cases (hashAt_of_typeHash ht).symm.trans hh
    refine meets_alloc _ (.aggregate fun w hw => ?_)
    rw [eq_of_mem_replicate hw]
    exact hp.plain_default ‹_›
  | loadCaptured hroot =>
    split at heff <;> cases heff
    obtain ⟨owner, index, rfl⟩ := capturedAt_eq_ok hroot
    have hstands : G.Stands p.registry s.framing (.captured owner index) := fun hstrict =>
      (by cases hcapture hstrict)
    exact meets_onRoot hs hstands (k := .clean) (fun _ => Iff.rfl) .get .nil
  | capturedAddress =>
    split at heff <;> cases heff
    exact meets_address fun hstrict => (by cases hcapture hstrict)
  | @loadIndirect w _ haddr =>
    cases heff
    obtain _ | ⟨hplace, ⟨⟩⟩ := hus
    cases haddr
    exact meets_load (selects_load w) hs hplace
  | loadObject haddr =>
    cases heff
    obtain _ | ⟨hplace, ⟨⟩⟩ := hus
    cases haddr
    exact meets_load selects_block hs hplace
  | @storeIndirect w _ haddr hacc =>
    cases heff
    obtain _ | ⟨hv, _ | ⟨hplace, ⟨⟩⟩⟩ := hus
    cases haddr
    exact meets_store (selects_store w) hs hplace hv hacc
  | storeObject haddr hacc =>
    cases heff
    obtain _ | ⟨hv, _ | ⟨hplace, ⟨⟩⟩⟩ := hus
    cases haddr
    exact meets_store selects_block hs hplace hv hacc
  | copyObject hsrc' htgt' =>
    cases heff
    obtain _ | ⟨hsrc, _ | ⟨htgt, ⟨⟩⟩⟩ := hus
    cases hsrc'
    cases htgt'
    exact ⟨rfl, finds hs hsrc.stands, fun _ _ hv hw hacc =>
      replaces hs (selects_block.found hv hw hacc) htgt.stands⟩
  | box =>
    cases heff
    obtain _ | ⟨hv, ⟨⟩⟩ := hus
    exact meets_alloc _ hv
  | unbox _ ho =>
    cases heff
    exact meets_push (plain_object hs ho) rfl
  | cast _ hcast =>
    cases heff
    obtain _ | ⟨hv, ⟨⟩⟩ := hus
    refine meets_push (hv.plain ?_ fun a => ?_) rfl
    · rintro rfl
      rcases hcast with hnull | ⟨actual, hactual, -⟩
      · cases hnull
      · cases hactual
    · rintro rfl
      rcases hcast with hnull | ⟨actual, hactual, -⟩
      · cases hnull
      · cases hactual
  | new hh ha =>
    obtain ⟨function, rfl, hfun⟩ := hx.exists_call rfl
    obtain ⟨g, hg, heff⟩ := bind_eq_some_iff.mp heff
    obtain ⟨hg, hcount⟩ := callee?_some hg
    split at heff <;> cases heff
    cases (hashAt_of_typeHash hfun).symm.trans hh
    have hargs := forall₂_arguments hus
    refine hp.meets_constructAction hg hs ‹_› ?_ hargs ha
    rwa [← hargs.length_eq, length_paramKinds, ← hcount]
  | call => exact hcalls (.inl rfl)
  | callMethod => exact hcalls (.inr rfl)
  | arith hv =>
    cases heff
    exact meets_push (plain_of_literal (exists_of_arith hv)) rfl
  | neg hv =>
    cases heff
    exact meets_push (plain_of_literal (UnaryOp.neg.apply_ok hv)) rfl
  | not hv =>
    cases heff
    exact meets_push (plain_of_literal (UnaryOp.not.apply_ok hv)) rfl
  | jump | jumpIf | fall => exact absurd rfl hlabel

/-- Instructions keep to the meaning of kinds. -/
theorem governs : (G.meaning p.registry).Governs p where
  start h m hm := by
    obtain ⟨-, hstatements⟩ := hp.methods h m hm
    obtain ⟨c, segs, hbuilt, hreg⟩ := hstatements.built
    refine StackRules.point_start hbuilt fun seg hseg => ?_
    obtain ⟨ts, hsegment, hts⟩ := hbuilt.segments seg hseg
    have hpasses := hsegment.passes (hreg ▸ hp.registered) hts
    rw [hbuilt.env, hreg] at hpasses
    refine passes_of_kinds hpasses fun hstrict x hx => ?_
    obtain ⟨y, hy, rfl⟩ := mem_map.mp hx
    have hy : y ∈ segs.flatten := mem_flatten.mpr ⟨seg, hseg, hy⟩
    rw [← (hbuilt.encoded y hy).1]
    refine hp.captures h m hm hstrict _ ?_
    rw [hbuilt.wellFormed.opcodes_eq]
    exact mem_map_of_mem (mem_map_of_mem hy)
  slots h m hm W n t ht := by
    obtain ⟨-, hstatements⟩ := hp.methods h m hm
    obtain ⟨c, segs, hbuilt, -⟩ := hstatements.built
    have hvoid := hbuilt.ne_void t (Array.mem_of_getElem? ht)
    have hkind : (m.env p.registry).localKind n = t.kind := by simp [localKind, Method.env, ht]
    show G.Means p.registry W ((m.env p.registry).localKind n) _
    rw [hkind]
    unfold Registry.defaultSlot
    cases href : t.isByRef with
    | true =>
      rw [t.kind_of_byRef href]
      exact .inl rfl
    | false =>
      rw [t.kind_of_plain href]
      exact hp.plain_default hvoid
  statics _ h f hf := hp.plain_default (hp.voidFree.fields h f hf)
  ordinary e he _ := he.not_misses
  pops heff hx hret _ := length_pops heff.1 hx hret
  jump {m x pops pushes} heff hlabel := by
    obtain ⟨op, operand⟩ := x
    have heff := heff.1
    cases op <;> cases hlabel <;> cases heff <;> rfl
  ret {m x pops pushes} heff hret := by
    have heff := heff.1
    unfold effect? at heff
    rw [hret] at heff
    dsimp only at heff
    split at heff <;> cases heff
    rename_i hvoid
    refine ⟨.clean, rfl, fun W v hv => ?_⟩
    exact (if_neg hvoid).mpr hv
  retVoid {m x pops pushes} heff hret H := by
    have heff := heff.1
    unfold effect? at heff
    rw [hret] at heff
    dsimp only at heff
    split at heff <;> cases heff
    rename_i hvoid
    exact (if_pos hvoid).mpr rfl
  fault hsite he _ :=
    (Tame.action (resolves_of_effect hsite.encoded hsite.effect.1) _ _ _ _ he).not_misses
  meets hsite hlabel ha := hp.meets hsite hlabel ha

end Program.Heeds

/-- A method that returns a value has a plain one on its stack. -/
theorem Regime.exists_returned {bottom : Method} {f : Frame}
    (hs : (G.meaning p.registry).Expects p bottom [] s) (hf : s.frames = f :: rest)
    (hi : f.method.fetch? f.offset = some i) (hop : i.op = .ret) :
    ∃ v vs, f.stack = v :: vs ∧ G.Plain v := by
  obtain ⟨f', rest', ls, hf', -, hpoint, hstack⟩ := hs.exists_frame hs.runs
  cases hf.symm.trans hf'
  obtain ⟨x, i', pops, pushes, ks, below, hfetch, hx, -, -, heff, rfl, hks, -, -⟩ := hpoint.fetch
  cases hi.symm.trans hfetch
  have heff := heff.1
  unfold effect? at heff
  rw [← hx.1, hop] at heff
  dsimp only at heff
  split at heff <;> cases heff
  obtain ⟨us, vs, hsplit, hus, -⟩ := forall₂_split hstack
  have hops : Forall₂ ((G.meaning p.registry).Means s.framing) [Kind.clean] us :=
    forall₂_weaken (G.meaning p.registry).means_le hus hks
  obtain _ | ⟨hv, ⟨⟩⟩ := hops
  exact ⟨_, vs, hsplit, hv⟩

/-- A program of methods without native functions. -/
theorem Program.heeds_ofMethods {ms : List Method} (hr : r.Registered) (hvoid : r.VoidFree)
    (hms : ∀ m ∈ ms, r.function? m.function.hash = some m.function ∧ m.OfStatements r)
    (hcaptures : G.strict → ∀ m ∈ ms, ∀ op ∈ m.chunk.opcodes, op.isCapture = false)
    (hcells : (∀ id, G.free (.heap id)) ∨ ∀ h f, r.function? h = some f → f.kind ≠ .constructor) :
    (ofMethods r ms).Heeds G where
  registered := hr
  voidFree := hvoid
  methods h m hm := by
    obtain ⟨hmem, rfl⟩ := mem_of_ofMethods hm
    exact hms m hmem
  captures h m hm hstrict := hcaptures hstrict m (mem_of_ofMethods hm).1
  natives h native f hnative := by
    rw [natives_ofMethods] at hnative
    cases hnative
  cells := hcells.imp_right fun hnone h f _ hf hkind => absurd hkind (hnone h f hf)

/-! ### Machines -/

/-- A machine between two calls from the host. Heap, static fields and captured values are plain. -/
structure Machine.Heeds (G : Regime) (m : Machine) : Prop where
  program : m.program.Heeds G
  kept : (G.meaning m.program.registry).Kept m.state
  idle : m.state.frames = []

/-- Arguments for the slots of a method. -/
def Regime.Admits (G : Regime) (p : Program) (function : TypeHash) (args : List Value) : Prop :=
  ∀ m, p.methods[function]? = some m → ∀ (n : Nat) v, args[n]? = some v →
    G.Brings p.registry ((m.env p.registry).argumentKind n) v

namespace Machine.Heeds

variable {m : Machine} (hm : m.Heeds G) (hargs : G.Admits m.program function args)
include hm hargs

theorem expects (h : (Exec.enter function args .host).exec m.program m.state = (.ok (), s)) :
    ∃ method, m.program.methods[function]? = some method ∧
      (G.meaning m.program.registry).Expects m.program method [] s :=
  (hm.program.governs.yields_enter_host hm.kept hm.idle
    fun method hmeth _ n v hv => (hargs method hmeth n v hv).means _).ok _ _ h

/-- What a call of a method answers and leaves. -/
theorem invoke (hnative : m.program.natives[function]? = none) {fuel : Nat}
    {result : Except Fault Value} {m' : Machine}
    (h : m.invoke fuel function args = some (result, m')) : m'.Heeds G ∧
      (∀ v, result = .ok v → ∃ method, m.program.methods[function]? = some method ∧
        G.Returned method.function v) ∧
      ∀ e, result = .error e → G.strict → ¬e.Misses := by
  obtain ⟨hprog, hidle, hkept, hres, herror⟩ := hm.program.governs.invoke hm.kept hm.idle
      (fun method hmeth _ n v hv => (hargs method hmeth n v hv).means _) hnative h
  refine ⟨⟨hprog ▸ hm.program, ?_, hidle⟩, hres, herror⟩
  rwa [hprog]

end Machine.Heeds

end StackCode
