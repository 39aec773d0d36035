import StackCode.Proofs.TypeRules

/-!
# Instructions and types

Each instruction that is emitted for a typed statement finds operands of the types that it takes,
and leaves operands, slots and objects with the types that they should have, if the native functions
do.
-/

namespace StackCode

open List Registry Schema HeapObject Value Meaning FunctionDecl

variable {a : Access} {owner type : TypeHash} {r : Registry} {p : Program} {s : State}
  {rest : List Frame} {us : List Value} {v : Value} {place : Address} {slot index : UInt16}
  {id : ObjectId}

/-- A method that is finished from a context in which nothing was done but typed statements. -/
def Method.OfTyped {r : Registry} (S : Schema r) (m : Method) : Prop :=
  ∃ id options s, Session.Steps (Discipline.typed S).Allows (.start id r m.function options) s ∧
    s.context.finish = .ok m

theorem Method.OfTyped.built {S : Schema r} {m : Method} (h : m.OfTyped S) :
    ∃ id options segs, m.Built (Session.start id r m.function options).setting (.typed S) segs := by
  obtain ⟨id, options, s, hsteps, hfin⟩ := h
  obtain ⟨segs, hinv, -, hsetting⟩ :=
    (Session.inv_start id r m.function options (.typed S)).steps hsteps
  obtain ⟨segs', hbuilt, -⟩ := hinv.built hfin
  exact ⟨id, options, segs', hsetting ▸ hbuilt⟩

/-! ### Native functions and programs -/

namespace Schema

variable (S : Schema r)

/-- Objects hold what they may hold. -/
def Sound (heap : Heap) : Prop := ∀ (id : ObjectId) o, heap.objects[id.number]? = some o →
  S.Keeps (heap.holdings r) (.object id) o.value

/-- Arguments as a function declares them, with or without a receiver. -/
def Passed (heap : Heap) (f : FunctionDecl) (args : List Value) : Prop :=
  ∃ methods, List.Forall₂ (S.Means ⟨heap.holdings r, methods⟩) f.paramTypes args ∨
    List.Forall₂ (S.Means ⟨heap.holdings r, methods⟩) (f.receiverOperand r :: f.paramTypes) args

end Schema

/-- A native function keeps to types: objects stay what they are and hold what they may hold, and
the result is as declared. -/
structure Native.Typed {r : Registry} (S : Schema r) (f : FunctionDecl) (native : Native) :
    Prop where
  grows : ∀ heap args, S.Sound heap → S.Passed heap f args →
    (heap.holdings r).Grows ((native heap args).2.holdings r)
  sound : ∀ heap args, S.Sound heap → S.Passed heap f args → S.Sound (native heap args).2
  result : ∀ heap args v, S.Sound heap → S.Passed heap f args → (native heap args).1 = .ok v →
    if f.kind = .constructor then r.Fits ((native heap args).2.holdings r) (f.owner.getD .empty) v
    else Schema.Returned r ((native heap args).2.holdings r) f v

/-- A program of typed statements for registered functions with native functions that keep to
types. -/
structure Program.Typed (p : Program) (S : Schema p.registry) : Prop where
  methods : ∀ (h : TypeHash) m, p.methods[h]? = some m → p.registry.function? h = some m.function ∧
    m.OfTyped S
  natives : ∀ (h : TypeHash) native f, p.natives[h]? = some native →
    p.registry.function? h = some f →
    native.Typed S f

/-! ### Places -/

namespace Schema

variable {S : Schema r} {f : Frame} {pops pushes : List OperandType} {k : OperandType}
  {t : TypeHash}

/-- The world of a state where objects have types. -/
abbrev world (S : Schema r) (s : State) : World := s.world S.meaning.holdings

theorem meets_push (hv : S.Means (S.world s) k v) : S.meaning.Meets p s [k] (.push [v]) :=
  .cons hv .nil

/-- An access to a root outside of the heap whose cell holds operands of a type. -/
theorem meets_onRoot {root : Root} (hheap : ∀ id, root ≠ .heap id)
    (hholds : ∀ v, S.meaning.Holds (S.world s) v root.cell ↔ S.Means (S.world s) k v)
    (hroot : ∀ h, k = .value h → S.RootType (S.world s) root h) (ha : a.Uses k pops pushes)
    (hus : Forall₂ (S.Means (S.world s)) pops us) :
    S.meaning.Meets p s pushes (a.onRoot root (us.getD 0 .void)) := by
  cases ha with
  | get => exact ⟨fun _ _ => trivial, fun v hv => .cons ((hholds v).mp hv) .nil⟩
  | set =>
    obtain _ | ⟨hv, ⟨⟩⟩ := hus
    refine ⟨rfl, fun _ _ => trivial, fun old new _ hnew => ?_⟩
    cases hnew
    exact ⟨(hholds _).mpr hv, grows_setRoot hheap⟩
  | address => exact .cons (.inr ⟨_, rfl, .below (hroot _ rfl) .nil⟩) .nil

theorem meets_onPlace (hplace : S.PlaceType (S.world s) place t)
    (ha : a.Uses (.value t) pops pushes)
    (hus : Forall₂ (S.Means (S.world s)) pops us) :
    S.meaning.Meets p s pushes (a.onPlace place (us.getD 0 .void)) := by
  cases ha with
  | get => exact ⟨fun _ _ => trivial, fun v w hv hw _ => .cons (hplace.follow hv hw) .nil⟩
  | set =>
    obtain _ | ⟨hv, ⟨⟩⟩ := hus
    exact ⟨rfl, replaces hplace hv⟩
  | address => exact .cons (.inr ⟨_, rfl, hplace⟩) .nil

theorem Means.placeType {W : World} {a : Address} (h : S.Means W (.place t) (.address a)) :
    S.PlaceType W a t := by
  rcases h with h | ⟨b, hb, ha⟩
  · cases h
  · cases hb
    exact ha

/-- A member of what a reference refers to is a place. -/
theorem placeType_member {W : World} (hhold : r.Fits W.holdings owner (.ref id))
    (href : r.isReferenceType owner) (hmem : r.Member owner index t) :
    S.PlaceType W ((Address.ofRoot (.heap id)).member index) t := by
  cases hhold with
  | held hval =>
    rw [href] at hval
    cases hval
  | object _ hid hassign =>
    rcases hassign with rfl | hassign
    · exact absurd hmem S.regular.not_member_object
    · exact .member hid (hmem.of_assignable S.regular hassign) .nil

theorem meets_onField {holder : OperandType}
    (hhold : holder = .place owner ∨ holder = .value owner ∧ r.isReferenceType owner)
    (hv : S.Means (S.world s) holder v) (hmem : r.Member owner index t)
    (ha : a.Uses (.value t) pops pushes) (hus : Forall₂ (S.Means (S.world s)) pops us) {x : Action}
    (hx : a.onField index v (us.getD 0 .void) = .ok x) : S.meaning.Meets p s pushes x := by
  rcases Access.onField_eq_ok hx with ⟨item, -, hitem, -⟩ | ⟨place, hplace, rfl⟩
  · -- neither a place nor a reference is an aggregate
    obtain ⟨items, rfl, -⟩ := item?_eq_some hitem
    rcases hhold with rfl | ⟨rfl, href⟩
    · rcases hv with hv | ⟨b, hb, -⟩
      · cases hv
      · cases hb
    · cases Registry.Fits.isAggregate href hv
  · rcases memberAddress?_eq_ok hplace with ⟨id, rfl, rfl⟩ | ⟨b, rfl, rfl⟩
    · rcases hhold with rfl | ⟨rfl, href⟩
      · rcases hv with hv | ⟨b, hb, -⟩
        · cases hv
        · cases hb
      · exact meets_onPlace (placeType_member hv href hmem) ha hus
    · rcases hhold with rfl | ⟨rfl, href⟩
      · exact meets_onPlace (hv.placeType.snoc hmem) ha hus
      · cases hv with
        | held hval =>
          rw [href] at hval
          cases hval

theorem meets_onElement {array e : TypeHash} {index : Value} (he : r.arrayElement? array = some e)
    (hv : r.Fits (S.world s).holdings array v) (hplace : s.heap.elementAddress v index = .ok place)
    (ha : a.Uses (.value e) pops pushes) (hus : Forall₂ (S.Means (S.world s)) pops us) :
    S.meaning.Meets p s pushes (a.onPlace place (us.getD 0 .void)) := by
  obtain ⟨id, n, rfl, rfl⟩ := Heap.elementAddress_eq_ok hplace
  exact meets_onPlace (placeType_member hv (isReferenceType_of_array he) (.inl he)) ha hus

/-! ### Objects -/

theorem fits_alloc (type : TypeHash) (v : Value) :
    r.Fits ((s.heap.alloc type v).2.holdings r) type (.ref (s.heap.alloc type v).1) := by
  refine .ref (holdings_alloc r s.heap type v).2 (.inr ?_)
  rw [type_holding]
  exact assignable_refl type

theorem meets_alloc (htype : r.assignable type t ∨ t = .object)
    (hv : r.Stored (s.heap.holdings r) (holding r ⟨type, v⟩) v) :
    S.meaning.Meets p s [.value t] (.alloc type v) := by
  refine ⟨allocates hv, .cons ?_ .nil⟩
  refine Registry.Fits.ref (holdings_alloc r s.heap type v).2 ?_
  rw [type_holding]
  exact htype.symm

theorem stored_object (hs : S.meaning.Stores s) {o : HeapObject} (ho : s.heap.get id = .ok o) :
    s.heap.holdings r id = some (o.holding r) ∧ r.Stored (s.heap.holdings r)
      (o.holding r) o.value := by
  have ho : s.heap.objects[id.number]? = some o := by
    unfold Heap.get at ho
    split at ho <;> cases ho
    assumption
  have hid : s.heap.holdings r id = some (o.holding r) := by
    show (s.heap.objects[id.number]?).map _ = _
    rw [ho]
    rfl
  obtain ⟨k, hk, hstored⟩ := hs.kept.object id o ho
  cases hid.symm.trans hk
  exact ⟨hid, hstored⟩

theorem fits_literal (S : Schema r) (H : Holdings) (l : Literal) :
    r.Fits H l.typeHash (.lit l) := by
  cases l with
  | null => exact .null_any _
  | bool b => exact .lit (S.regular.primitives .bool) _
  | int k b => exact .lit (S.regular.primitives (.int k)) _
  | float k b => exact .lit (S.regular.primitives (.float k)) _
  | str text =>
    cases href : r.isReferenceType (Literal.str text).typeHash with
    | true => exact .string href (assignable_refl _)
    | false => exact .lit href _

/-- What operators make of operands of a type is a value of this type. -/
theorem fits_arith {H : Holdings} {h : TypeHash} (hh : r.isReferenceType h = false ∨ h = .string)
    {op : ArithOp} {a b : Value} (ha : r.Fits H h a) (hv : arith op a b = .ok v) :
    r.Fits H h v := by
  obtain ⟨l, rfl⟩ := exists_of_arith hv
  cases href : r.isReferenceType h with
  | false => exact .lit href l
  | true =>
    have hstring := hh.resolve_left (by simp [href])
    subst hstring
    -- of what fits a reference type only strings can be operated on
    cases ha with
    | held hval =>
      rw [href] at hval
      cases hval
    | null => cases b <;> cases hv
    | object => cases hv
    | @string _ s =>
      unfold arith at hv
      split at hv
      · cases ‹lit _ = _›
      · cases ‹lit _ = _›
      · cases ‹lit _ = _›
      · split at hv <;> cases hv
        exact .string href (assignable_refl _)
      · cases hv

theorem meets_load (hplace : S.Means (S.world s) (.place t) (.address place))
    (accepts : Value → String × Bool) :
    S.meaning.Meets p s [.value t] (.load place accepts) :=
  ⟨fun _ _ => trivial, fun _ _ hv hw _ => .cons (hplace.placeType.follow hv hw) .nil⟩

/-- What has a value type is in a cell. -/
theorem fits_unboxed (hs : S.meaning.Stores s) {o : HeapObject} (ho : s.heap.get id = .ok o)
    (hval : r.isValueType o.type) : r.Fits (s.heap.holdings r) o.type o.value := by
  have hcell : o.holding r = .cell o.type := by
    refine if_neg ?_
    rw [isReferenceType_of_valueType hval]
    simp
  have hstored := (stored_object hs ho).2
  rwa [hcell] at hstored

theorem fits_cast (hs : S.meaning.Stores s) (href : r.isReferenceType t)
    (hv : v.isNull ∨ ∃ actual, s.heap.dynamicType v = .ok actual ∧ r.assignable actual t) :
    r.Fits (s.heap.holdings r) t v := by
  rcases hv with hnull | ⟨actual, hactual, hassign⟩
  · cases v with
    | lit l =>
      cases l with
      | null => exact .null href
      | _ => cases hnull
    | _ => cases hnull
  · cases v with
    | ref id =>
      obtain ⟨o, ho, htype⟩ := bind_eq_ok hactual
      cases htype
      refine .object href (stored_object hs ho).1 (.inr ?_)
      rwa [type_holding]
    | lit l =>
      cases l with
      | str text =>
        cases hactual
        exact .string href hassign
      | _ => cases hactual
    | void | address | aggregate => cases hactual

end Schema

/-! ### Calls -/

namespace Program.Typed

variable {S : Schema p.registry} (hp : p.Typed S) {function : TypeHash} {f : FunctionDecl}
  {args : List Value} {ks : List OperandType} {resume : Resume}

include hp in
theorem function_eq {m : Method} (hm : p.methods[function]? = some m)
    (hf : p.registry.function? function = some f) : m.function = f := by
  have hm := (hp.methods function m hm).1
  rw [hf] at hm
  exact (Option.some.inj hm).symm

variable (hf : p.registry.function? function = some f)
include hp hf

/-- A method can be called with arguments that fit its slots. -/
theorem welcomes (hargs : args.length = f.stackArity →
      Forall₂ (S.Means (S.world s)) (f.slotTypes p.registry) args)
    (hgives : S.meaning.Gives (S.world s) f ks resume) :
    S.meaning.Welcomes p s ks function args resume := by
  intro m hm
  cases hp.function_eq hm hf
  refine ⟨fun harity n v hv => ?_, hgives⟩
  have hargs := hargs harity
  obtain ⟨hn, hv⟩ := List.getElem?_eq_some_iff.mp hv
  have hn' : n < (m.function.slotTypes p.registry).length := by rw [hargs.length_eq]; exact hn
  have hmeans : S.Means (S.world s) (Schema.argumentEntry p.registry m n) v := by
    rw [argumentEntry_of_some (getElem?_eq_getElem hn'), ← hv]
    exact hargs.get hn' hn
  have hbelow : (S.world s).Below ⟨s.heap.holdings p.registry, s.methods ++ [m]⟩ :=
    ⟨.refl _, prefix_append _ _⟩
  exact hmeans.mono hbelow

theorem meets_native (hs : S.meaning.Stores s) {native : Native}
    (hnative : p.natives[function]? = some native)
    (hargs : S.Passed s.heap f args) (constructs : Bool)
    (hkind : f.kind = .constructor ↔ constructs = true) :
    S.meaning.Meets p s (if constructs then [.value (f.owner.getD .empty)] else f.resultTypes)
      (.native native args constructs) := by
  have htyped := hp.natives function native f hnative hf
  have hsound : S.Sound s.heap := fun id o ho => hs.kept.object id o ho
  refine ⟨fun _ _ => trivial, htyped.grows _ _ hsound hargs, htyped.sound _ _ hsound hargs,
    fun v hv => ?_⟩
  have hres := htyped.result _ _ v hsound hargs hv
  cases constructs with
  | true =>
    rw [if_pos (hkind.mpr rfl)] at hres
    exact .cons hres .nil
  | false =>
    rw [if_neg (by simp [hkind])] at hres
    exact S.meaning.given hres

/-- A call of a function that is no constructor. -/
theorem meets_callAction (hs : S.meaning.Stores s) (hkind : f.kind ≠ .constructor)
    (hpassed : S.Passed s.heap f args)
    (hargs : args.length = f.stackArity → Forall₂ (S.Means (S.world s))
      (f.slotTypes p.registry) args) :
    S.meaning.Meets p s f.resultTypes (p.callAction function args) := by
  rcases p.callAction_cases function args with ⟨native, hnative, hcall⟩ | ⟨-, hcall⟩
  · rw [hcall]
    exact hp.meets_native hf hs hnative hpassed false (by simp [hkind])
  · rw [hcall]
    exact hp.welcomes hf hargs (gives_results _ _ f)

/-- A constructor can be called on a new object. The arguments are what they were. -/
theorem welcomes_allocated {receiver : Value} (halloc : S.meaning.Allocates s type v)
    (hrecv : S.Means (S.world (s.allocated type v)) (f.receiverOperand p.registry) receiver)
    (hgives : S.meaning.Gives (S.world (s.allocated type v)) f ks resume)
    (hargs : Forall₂ (S.Means (S.world s)) f.paramTypes args) :
    S.meaning.Welcomes p (s.allocated type v) ks function (receiver :: args) resume := by
  refine hp.welcomes hf (fun harity => ?_) hgives
  have hbelow : (S.world s).Below (S.world (s.allocated type v)) := ⟨halloc.1, prefix_rfl⟩
  have hargs := hargs.imp fun _ _ hv => Schema.Means.mono hbelow hv
  exact f.forall₂_slots f.length_paramTypes hrecv hargs harity

theorem meets_constructAction (hs : S.meaning.Stores s) (hkind : f.kind = .constructor)
    (howner : f.owner = some owner)
    (hargs : Forall₂ (S.Means (S.world s)) f.paramTypes args) {a : Action}
    (ha : p.constructAction function args = .ok a) :
    S.meaning.Meets p s [.value owner] a := by
  have hr := S.regular
  rcases Program.constructAction_eq_ok ha with
    ⟨native, hnative, rfl⟩ | ⟨-, g, owner', hg, howner', rfl⟩
  · have hmeets := hp.meets_native hf hs hnative ⟨_, .inl hargs⟩ true (by simp [hkind])
    rwa [howner] at hmeets
  cases hf.symm.trans hg
  cases howner.symm.trans howner'
  have hvoid : owner ≠ .void := by
    rintro rfl
    exact hr.voidFree.constructed function f hf hkind howner
  have htgt : f.receiverOperand p.registry = p.registry.targetType owner := by
    rw [receiverOperand, howner, Option.getD_some]
  refine ⟨fun hreference => ?_, fun hother => ?_⟩
  · have halloc : S.meaning.Allocates s owner (Exec.objectLayout p.registry owner) := by
      refine Schema.allocates ?_
      have hinst : holding p.registry ⟨owner, Exec.objectLayout p.registry owner⟩ =
        .instance owner := by
        refine if_pos ?_
        rw [isReferenceType_of_kind hreference]
        rfl
      rw [hinst]
      exact hr.content_objectLayout hreference
    have hfits := fits_alloc (r := p.registry) (s := s) owner (Exec.objectLayout p.registry owner)
    refine ⟨halloc, hp.welcomes_allocated hf halloc ?_ (.cons hfits .nil) hargs⟩
    rw [htgt, Registry.targetType, if_neg (by
      simp [Registry.isValueType, hreference, TypeKind.isValueType])]
    exact hfits
  · have hval : p.registry.isReferenceType owner = false := by
      cases href : p.registry.isReferenceType owner with
      | false => rfl
      | true => exact absurd (hr.constructed function f owner hf hkind howner href) hother
    have hfits : p.registry.Fits (s.heap.holdings p.registry) owner
      (p.registry.defaultValue owner) :=
      hr.fits_defaultValue hvoid
    have hcell := hfits.holding
    have halloc : S.meaning.Allocates s owner (p.registry.defaultValue owner) := by
      refine Schema.allocates ?_
      rwa [hcell]
    have hid := (holdings_alloc p.registry s.heap owner (p.registry.defaultValue owner)).2
    rw [hcell] at hid
    refine ⟨halloc, hp.welcomes_allocated hf halloc ?_ (fun W v hbelow hv => ?_) hargs⟩
    · rw [htgt, Registry.targetType]
      split
      · exact .inr ⟨_, rfl, .below (.cell hid) .nil⟩
      · exact Registry.Fits.scalar hval (by simp) fun _ _ hw => by cases hw
    · obtain ⟨k, hk, hv⟩ := hv
      cases (hbelow.holdings _ _ hid).symm.trans hk
      exact .cons hv .nil

end Program.Typed

/-! ### All instructions -/

namespace Program.Typed

variable {S : Schema p.registry} (hp : p.Typed S) {f : Frame} {x : Command} {i : Instr}
  {pops pushes : List OperandType}

theorem length_pops {f : FunctionDecl} {locals : Array DataType} {k : Pool}
    (h : S.Effect f locals x pops pushes) (hx : x.Encoded k i) (hret : x.op ≠ .ret) :
    pops.length = i.pops := by
  have haccess : ∀ {a : Access} {k pops pushes}, a.Uses k pops pushes → pops.length = a.pops := by
    intro a k pops pushes ha
    cases ha <;> rfl
  have hop := hx.1
  unfold Instr.pops
  rw [hop]
  cases h with
  | ret => exact absurd rfl hret
  | localSlot _ ha | argument _ ha | staticField _ ha => exact haccess ha
  | field _ _ _ ha => exact congrArg (· + 1) (haccess ha)
  | element _ ha => exact congrArg (· + 2) (haccess ha)
  | load | store =>
    rename_i k _
    cases k <;> rfl
  | new _ _ _ hargc | call _ _ hargc =>
    rw [length_reverse, length_paramTypes, ← hargc]
    exact hx.2.2.2.symm
  | callMethod _ _ hargc =>
    rw [length_append, length_reverse, length_paramTypes, ← hargc]
    exact congrArg (· + 1) hx.2.2.2.symm
  | _ => rfl

theorem hashAt_eq {m : Method} {h h' : TypeHash} (hh : m.constants.typeHash? i.operand = some h)
    (hh' : m.hashAt i = .ok h') : h' = h :=
  Except.ok.inj (hh'.symm.trans (Method.hashAt_of_typeHash hh))

theorem slot_eq {n : UInt16} (hn : i.operand = n.toNat) : UInt16.ofNat i.operand = n := by
  rw [hn, UInt16.ofNat_toNat]

theorem capturedAt_eq {m : Method} {n : UInt16} {root : Root}
    (howner : m.function.owner = some owner)
    (hn : i.operand = n.toNat) (hroot : m.capturedAt i = .ok root) : root = .captured owner n := by
  unfold Method.capturedAt at hroot
  rw [howner, slot_eq hn] at hroot
  exact (Except.ok.inj hroot).symm

section Slots

variable (hframes : s.frames = f :: rest) {n : UInt16} (hus : Forall₂ (S.Means (S.world s)) pops us)
include hframes hus

theorem meets_localSlot {t : DataType} (ht : f.method.locals[n.toNat]? = some t)
    (huses : a.Uses t.operandType pops pushes) :
    S.meaning.Meets p s pushes (a.onRoot (.localSlot rest.length n) (us.getD 0 .void)) := by
  refine meets_onRoot (by simp) (fun v => ?_) (fun h hh => ?_) huses hus
  · rw [← localEntry_of_some ht]
    exact (holds_top (S := S.meaning) hframes _).1
  · unfold DataType.operandType at hh
    split at hh <;> cases hh
    rename_i hplain
    exact .localSlot (methods_top (S := S.meaning) hframes) ht (by simpa using hplain)

theorem meets_argument {k : OperandType}
    (hk : (f.method.function.slotTypes p.registry)[n.toNat]? = some k)
    (huses : a.Uses k pops pushes) :
    S.meaning.Meets p s pushes (a.onRoot (.argument rest.length n) (us.getD 0 .void)) := by
  have hmethod : (S.world s).methods[rest.length]? = some f.method :=
    methods_top (S := S.meaning) hframes
  refine meets_onRoot (by simp) (fun v => ?_) (fun h hh => .argument hmethod (hh ▸ hk)) huses hus
  rw [← argumentEntry_of_some hk]
  exact (holds_top (S := S.meaning) hframes _).2

end Slots

include hp

theorem meets_callMethod {function : TypeHash} {g : FunctionDecl} (hs : S.meaning.Stores s)
    (hg : p.registry.function? function = some g) (hkind : g.kind ≠ .constructor)
    (hus : Forall₂ (S.Means (S.world s)) (g.paramTypes.reverse ++ [g.receiverOperand p.registry])
      us) :
    S.meaning.Meets p s g.resultTypes (p.callAction function us.reverse) := by
  have hargs : Forall₂ (S.Means (S.world s)) (g.receiverOperand p.registry :: g.paramTypes)
    us.reverse := by
    refine forall₂_arguments ?_
    rwa [reverse_cons]
  refine hp.meets_callAction hg hs hkind ⟨_, .inr hargs⟩ fun harity => ?_
  obtain ⟨receiver, args, hrecv, hargs, heq⟩ := forall₂_cons_left_iff.mp hargs
  rw [heq] at harity ⊢
  exact g.forall₂_slots g.length_paramTypes hrecv hargs harity

/-- The action of an instruction meets what its command leaves. -/
theorem meets (hsite : S.meaning.Site p s f rest x i pops pushes us) (hlabel : x.op.sort ≠ .label)
    {a : Action}
    (ha : i.action p f.method s.heap rest.length us = .ok a) : S.meaning.Meets p s pushes a := by
  obtain ⟨hframes, -, hx, -, -, heff, hops, hs⟩ := hsite
  have heff : S.Effect f.method.function f.method.locals x pops pushes := heff
  have hus : Forall₂ (S.Means (S.world s)) pops us := hops
  have hacts := Instr.acts ha
  rw [hx.1] at hacts
  cases heff with
  | @constant wide l =>
    cases hacts
    rename_i hl
    unfold Method.literalAt at hl
    rw [show f.method.constants.literal? i.operand = some l from hx.2.2] at hl
    cases hl
    exact meets_push (fits_literal S _ l)
  | pushNull =>
    cases hacts
    exact meets_push (.null_any _)
  | pushBool | compare =>
    cases hacts
    exact meets_push (fits_literal S _ (.bool _))
  | nop | pop | ret | retVoid =>
    cases hacts
    exact .nil
  | jump | jumpIf => exact absurd rfl hlabel
  | localSlot ht huses =>
    cases hacts
    rw [slot_eq hx.2.2]
    exact meets_localSlot hframes hus ht huses
  | argument hk huses =>
    cases hacts
    rw [slot_eq hx.2.2]
    exact meets_argument hframes hus hk huses
  | staticField hd huses =>
    cases hacts
    rename_i hh
    obtain rfl := hashAt_eq hx.2.2 hh
    have hroot := Schema.RootType.static (S := S) (W := S.world s) hd
    refine meets_onRoot (by simp) (fun v => hroot.holds_iff) (fun h hh => ?_) huses hus
    cases hh
    exact hroot
  | field hd hhold hmem huses =>
    obtain _ | ⟨hv, hus⟩ := hus
    cases hacts
    rename_i hh hidx ha
    obtain rfl := hashAt_eq hx.2.2 hh
    unfold Registry.fieldIndex at hidx
    rw [hd] at hidx
    cases hidx
    exact meets_onField hhold hv hmem huses hus ha
  | element he huses =>
    obtain _ | ⟨-, _ | ⟨hv, hus⟩⟩ := hus
    cases hacts
    rename_i hplace
    exact meets_onElement he hv hplace huses hus
  | newArray _ hvoid =>
    cases hacts
    rename_i hh
    obtain rfl := hashAt_eq hx.2.2 hh
    exact meets_alloc (.inl (assignable_refl _)) (S.regular.stored_replicate hvoid _)
  | arrayLength =>
    cases hacts
    exact meets_push (fits_literal S _ (.int .int32 _))
  | loadCaptured howner hh =>
    cases hacts
    rename_i hroot
    obtain rfl := capturedAt_eq howner hx.2.2 hroot
    have hroot := Schema.RootType.captured (S := S) (W := S.world s) hh
    exact ⟨fun _ _ => trivial, fun v hv => .cons (hroot.holds_iff.mp hv) .nil⟩
  | capturedAddress howner hh =>
    cases hacts
    rename_i hroot
    obtain rfl := capturedAt_eq howner hx.2.2 hroot
    exact meets_push (.inr ⟨_, rfl, .below (.captured hh) .nil⟩)
  | @load k =>
    obtain _ | ⟨hplace, ⟨⟩⟩ := hus
    cases k with
    | scalar | block =>
      cases hacts
      rename_i haddr
      cases haddr
      exact meets_load hplace _
  | @store k =>
    obtain _ | ⟨hv, _ | ⟨hplace, ⟨⟩⟩⟩ := hus
    cases k with
    | scalar | block =>
      cases hacts
      rename_i haddr _
      cases haddr
      exact ⟨rfl, Schema.replaces hplace.placeType hv⟩
  | copyObject =>
    obtain _ | ⟨hsrc, _ | ⟨htgt, ⟨⟩⟩⟩ := hus
    cases hacts
    rename_i hsrc' htgt'
    cases hsrc'
    cases htgt'
    exact ⟨rfl, fun _ _ => trivial, fun v w hv hw _ =>
      Schema.replaces htgt.placeType (hsrc.placeType.follow hv hw)⟩
  | box =>
    obtain _ | ⟨hv, ⟨⟩⟩ := hus
    have hv : p.registry.Fits (s.heap.holdings p.registry) _ _ := hv
    cases hacts
    rename_i hh
    obtain rfl := hashAt_eq hx.2.2 hh
    refine meets_alloc (.inr rfl) ?_
    rwa [getD_cons_zero, hv.holding]
  | unbox hval =>
    cases hacts
    rename_i _ o hh ho
    obtain rfl := hashAt_eq hx.2.2 hh
    exact meets_push (fits_unboxed hs ho hval)
  | cast href =>
    cases hacts
    rename_i hh hcast
    obtain rfl := hashAt_eq hx.2.2 hh
    exact meets_push (fits_cast hs href hcast)
  | new hg hkind howner =>
    cases hacts
    rename_i hh ha
    obtain rfl := hashAt_eq hx.2.2.1 hh
    exact hp.meets_constructAction hg hs hkind howner (forall₂_arguments hus) ha
  | @call h g argc hg hkind =>
    cases hacts
    rename_i hh
    obtain rfl := hashAt_eq hx.2.2.1 hh
    have hargs := forall₂_arguments hus
    exact hp.meets_callAction hg hs hkind ⟨_, .inl hargs⟩
      (g.forall₂_params g.length_paramTypes hargs)
  | callMethod hg hkind =>
    cases hacts
    rename_i hh
    obtain rfl := hashAt_eq hx.2.2.1 hh
    exact hp.meets_callMethod hs hg hkind hus
  | arith hh =>
    obtain _ | ⟨-, _ | ⟨hb, ⟨⟩⟩⟩ := hus
    cases hacts
    rename_i hv
    exact meets_push (fits_arith hh hb hv)
  | neg hh =>
    cases hacts
    rename_i hv
    obtain ⟨l, rfl⟩ := UnaryOp.neg.apply_ok hv
    exact meets_push (.lit hh l)
  | not hh =>
    cases hacts
    rename_i hv
    obtain ⟨l, rfl⟩ := UnaryOp.not.apply_ok hv
    exact meets_push (.lit hh l)

/-- Instructions keep to the meaning of types. -/
theorem governs : S.meaning.Governs p where
  start h m hm := by
    obtain ⟨hreg, htyped⟩ := hp.methods h m hm
    obtain ⟨id, options, segs, hbuilt⟩ := htyped.built
    exact Method.Built.point_start (c := (Session.start id p.registry m.function options).setting)
      (S.regular.slots h m.function hreg) hbuilt
  slots h m hm W n t ht := by
    obtain ⟨-, htyped⟩ := hp.methods h m hm
    obtain ⟨id, options, segs, hbuilt⟩ := htyped.built
    have hvoid := (hbuilt.refine (Discipline.typed_refines S)).ne_void t (Array.mem_of_getElem? ht)
    show S.Means W (Schema.localEntry m n) _
    rw [localEntry_of_some ht]
    unfold Registry.defaultSlot
    cases href : t.isByRef with
    | true =>
      rw [t.operandType_of_byRef href]
      exact .inl rfl
    | false =>
      rw [t.operandType_of_plain href]
      exact S.regular.fits_defaultValue hvoid
  statics H h f hf f' hf' := by
    cases hf.symm.trans hf'
    exact S.regular.fits_defaultValue (S.regular.voidFree.fields h f hf)
  ordinary _ _ := trivial
  pops heff hx hret _ := length_pops heff hx hret
  jump {m x pops pushes} heff hlabel := by
    have heff : S.Effect m.function m.locals x pops pushes := heff
    cases heff with
    | jump | jumpIf => rfl
    | load | store =>
      rename_i k _
      cases k <;> cases hlabel
    | _ => cases hlabel
  ret {m x pops pushes} heff hret := by
    have heff : S.Effect m.function m.locals x pops pushes := heff
    cases heff with
    | ret hreturns =>
      refine ⟨_, rfl, fun W v hv => ?_⟩
      exact (if_neg (by simp [hreturns])).mpr hv
    | load | store =>
      rename_i k _
      cases k <;> cases hret
    | _ => cases hret
  retVoid {m x pops pushes} heff hret H := by
    have heff : S.Effect m.function m.locals x pops pushes := heff
    cases heff with
    | retVoid hreturns =>
      exact (if_pos hreturns).mpr rfl
    | load | store =>
      rename_i k _
      cases k <;> cases hret
    | _ => cases hret
  fault _ _ := trivial
  meets hsite hlabel ha := hp.meets hsite hlabel ha

end Program.Typed

end StackCode
