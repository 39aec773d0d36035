import StackCode.Proofs.OperatorLookup
import StackCode.Proofs.Scripts
import StackCode.Proofs.TypedSteps

/-!
# Typed slots stay typed

Whatever stands where a reference type is declared is null, a string if strings may stand there, or
a reference to an object whose type may stand there. This holds in every state of every call, for
local and argument slots, static fields, fields of objects and elements of arrays, and for what is
below them in values that are held in place. References may be passed only to places of exactly the
type of the parameter: where the type may be any that is assignable, as the context has it, a callee
can put a cat into a place for dogs.
-/

namespace StackCode

open Registry.Fits Std.TreeMap State Array List

variable {r : Registry} {v : Value} {o : HeapObject} {s : State} {heap : Heap} {t : TypeHash}
  {f : FieldDecl}

/-! ### States -/

/-- What may stand where a reference type is declared. -/
def Registry.accepts (r : Registry) (heap : Heap) (type : TypeHash) : Value → Bool
  | .lit .null => true
  | .lit (.str _) => r.assignable .string type
  | .ref id => heap.objects[id.number]?.any fun o => type == .object || r.assignable o.type type
  | _ => false

/-- Wherever a reference type is declared at or below a value of a type, something stands that may
stand there. -/
def Registry.Sound (r : Registry) (heap : Heap) (type : TypeHash) (v : Value) : Prop :=
  ∀ path t w, r.Path type path t → r.isReferenceType t → v.follow path = .ok w → r.accepts heap t w

/-- Slots, static fields, fields and elements hold what may stand there. -/
structure State.WellTyped (r : Registry) (s : State) : Prop where
  locals : ∀ f ∈ s.frames, ∀ (n : Nat) t, f.method.locals[n]? = some t → t.isByRef = false →
    ∃ v, f.locals[n]? = some v ∧ r.Sound s.heap t.hash v
  args : ∀ f ∈ s.frames, ∀ (n : Nat) h, (f.method.function.slotTypes r)[n]? = some (.value h) →
    ∃ v, f.args[n]? = some v ∧ r.Sound s.heap h v
  statics : ∀ (h : TypeHash) f v, r.fieldByHash? h = some f → s.statics[h]? = some v →
    r.Sound s.heap f.type.hash v
  fields : ∀ o ∈ s.heap.objects, ∀ f ∈ r.layout o.type, ∀ v, o.value.member f.index = .ok v →
    r.Sound s.heap f.type.hash v
  elements : ∀ o ∈ s.heap.objects, ∀ e items, r.arrayElement? o.type = some e →
    o.value = .aggregate items → ∀ v ∈ items, r.Sound s.heap e v

/-! ### Values that fit -/

theorem Registry.Fits.accepts (h : r.Fits (heap.holdings r) t v) (href : r.isReferenceType t) :
    r.accepts heap t v := by
  cases h with
  | held hval =>
    rw [href] at hval
    cases hval
  | null => rfl
  | string _ hassign => exact hassign
  | @object _ id k _ hid hassign =>
    obtain ⟨o, ho, rfl⟩ := Option.map_eq_some_iff.mp hid
    rw [HeapObject.type_holding] at hassign
    show heap.objects[id.number]?.any _ = true
    rw [ho]
    simpa using hassign

theorem Registry.Fits.sound (h : r.Fits (heap.holdings r) t v) : r.Sound heap t v :=
  fun _ _ _ hpath href hw => (h.follow hpath hw).accepts href

theorem State.exists_frame? {f : Frame} (h : f ∈ s.frames) : ∃ k, s.frame? k = some f := by
  obtain ⟨n, hn⟩ := getElem?_of_mem h
  have hlt : n < s.depth := (List.getElem?_eq_some_iff.mp hn).1
  refine ⟨s.depth - 1 - n, ?_⟩
  have hidx : s.depth - 1 - (s.depth - 1 - n) = n := by omega
  rwa [frame?, if_pos (by omega), hidx]

theorem FunctionDecl.length_slotTypes (r : Registry) (f : FunctionDecl) :
    (f.slotTypes r).length = f.stackArity := by
  unfold slotTypes stackArity
  rw [length_append, length_paramTypes, Nat.add_comm]
  split <;> rfl

namespace Schema

variable {S : Schema r}

section

variable (hs : S.meaning.Kept s)
include hs

/-- Static fields and objects that keep to types. -/
theorem sound_static {h : TypeHash} (hf : r.fieldByHash? h = some f) (hv : s.statics[h]? = some v) :
    r.Sound s.heap f.type.hash v :=
  sound (hs.static h v hv f hf)

theorem stored_of_mem (ho : o ∈ s.heap.objects) :
    r.Stored (s.heap.holdings r) (o.holding r) o.value := by
  obtain ⟨n, hn⟩ := getElem?_of_mem ho
  obtain ⟨k, hk, hstored⟩ := hs.object ⟨n⟩ o hn
  have hid : s.heap.holdings r ⟨n⟩ = some (o.holding r) := by
    show (s.heap.objects[n]?).map _ = _
    rw [hn]
    rfl
  cases hid.symm.trans hk
  exact hstored

theorem sound_field (ho : o ∈ s.heap.objects) (hf : f ∈ r.layout o.type)
    (hv : o.value.member f.index = .ok v) :
    r.Sound s.heap f.type.hash v := by
  have hmem : r.Member (o.holding r).type f.index f.type.hash := by
    rw [HeapObject.type_holding]
    exact .inr ⟨f, hf, rfl, rfl⟩
  exact sound ((stored_of_mem hs ho).member hmem hv)

theorem sound_element (ho : o ∈ s.heap.objects) {e : TypeHash} {items : List Value}
    (he : r.arrayElement? o.type = some e) (hitems : o.value = .aggregate items) (hv : v ∈ items) :
    r.Sound s.heap e v := by
  have hstored := stored_of_mem hs ho
  have htype := o.type_holding r
  have hcont : r.Content (s.heap.holdings r) (o.holding r).type o.value := by
    cases hk : o.holding r with rw [hk] at hstored
    | «instance» h => exact hstored
    | cell h => exact content hstored
  rw [htype] at hcont
  exact sound (hcont.elements e items he hitems v hv)

theorem wellTyped_of_idle (hidle : s.frames = []) : s.WellTyped r where
  locals f hf := by simp [hidle] at hf
  args f hf := by simp [hidle] at hf
  statics _ _ _ hf hv := sound_static hs hf hv
  fields _ ho _ hf _ hv := sound_field hs ho hf hv
  elements _ ho _ _ he hitems _ hv := sound_element hs ho he hitems hv

end

/-- States that keep to the meaning of types are well-typed. -/
theorem wellTyped {p : Program} {S : Schema p.registry} {bottom : Method}
    (hs : S.meaning.Expects p bottom [] s) : s.WellTyped p.registry where
  locals f hf n t ht hplain := by
    obtain ⟨k, hk⟩ := exists_frame? hf
    have hn : n < f.locals.size := by
      rw [(hs.stores.formed f hf).locals]
      exact (Array.getElem?_eq_some_iff.mp ht).1
    refine ⟨_, getElem?_eq_getElem hn, ?_⟩
    obtain ⟨m, hm, hmeans⟩ := hs.stores.cells (.localSlot k n) _
      (by simp only [cell?, hk]; exact getElem?_eq_getElem hn)
    have hm : s.methods[k]? = some m := hm
    rw [methods_getElem?, hk] at hm
    cases hm
    have hmeans : S.Means _ (localEntry f.method n) _ := hmeans
    rw [localEntry_of_some ht, DataType.operandType_of_plain hplain] at hmeans
    exact sound hmeans
  args f hf n h hh := by
    obtain ⟨k, hk⟩ := exists_frame? hf
    have hn : n < f.args.size := by
      rw [(hs.stores.formed f hf).args, ← f.method.function.length_slotTypes p.registry]
      exact (List.getElem?_eq_some_iff.mp hh).1
    refine ⟨_, getElem?_eq_getElem hn, ?_⟩
    obtain ⟨m, hm, hmeans⟩ := hs.stores.cells (.argument k n) _
      (by simp only [cell?, hk]; exact getElem?_eq_getElem hn)
    have hm : s.methods[k]? = some m := hm
    rw [methods_getElem?, hk] at hm
    cases hm
    have hmeans : S.Means _ (argumentEntry p.registry f.method n) _ := hmeans
    rw [argumentEntry_of_some hh] at hmeans
    exact sound hmeans
  statics _ _ _ hf hv := sound_static hs.stores.kept hf hv
  fields _ ho _ hf _ hv := sound_field hs.stores.kept ho hf hv
  elements _ ho _ _ he hitems _ hv := sound_element hs.stores.kept ho he hitems hv

/-- A state between two calls from the host. Heap, static fields and captured values have their
types. -/
structure Rests (S : Schema r) (s : State) : Prop where
  kept : S.meaning.Kept s
  idle : s.frames = []

/-- Arguments for the slots of a method. -/
def Suits (S : Schema r) (p : Program) (heap : Heap) (function : TypeHash) (args : List Value) :
    Prop :=
  ∀ m, p.methods[function]? = some m → ∀ (n : Nat) v, args[n]? = some v →
    S.Means ⟨heap.holdings r, [m]⟩ (argumentEntry r m n) v

end Schema

namespace Program

/-- Typed slots stay typed. Let methods consist of typed statements for functions as they are
registered, let native functions keep to types, and let the host start from a state that keeps to
types and pass arguments of the types of the slots. Then every state of the call is well-typed, and
so is the state that it leaves; the result is of the declared type, and the next call may start. -/
theorem typed_slots_stay_typed (p : Program) (S : Schema p.registry) (hp : p.Typed S) (s : State)
    (hs : S.Rests s) (function : TypeHash) (args : List Value)
    (hnative : p.natives[function]? = none) (hargs : S.Suits p s.heap function args) :
    (∀ t t', (Exec.enter function args .host).exec p s = (.ok (), t) → Exec.Reaches p t t' →
      t'.WellTyped p.registry) ∧
    ∀ fuel result m', Machine.invoke ⟨p, s⟩ fuel function args = some (result, m') →
      m'.program = p ∧ S.Rests m'.state ∧ m'.state.WellTyped p.registry ∧
        ∀ v, result = .ok v → ∃ m, p.methods[function]? = some m ∧
          Schema.Returned p.registry (m'.state.heap.holdings p.registry) m.function v := by
  refine ⟨fun t t' henter hreaches => ?_, fun fuel result m' h => ?_⟩
  · obtain ⟨bottom, -, ht⟩ := (hp.governs.yields_enter_host hs.kept hs.idle
      fun m hm _ n v hv => hargs m hm n v hv).ok _ _ henter
    exact Schema.wellTyped (hp.governs.reaches ht hreaches)
  · obtain ⟨hprogram, hidle, hkept, hresult, -⟩ :=
      hp.governs.invoke hs.kept hs.idle (fun m hm _ n v hv => hargs m hm n v hv) hnative h
    exact ⟨hprogram, ⟨hkept, hidle⟩, Schema.wellTyped_of_idle hkept hidle, hresult⟩

end Program

/-! ### Registries and scripts that can be checked -/

namespace Registry

/-- What regular registries have to be, as can be seen from the entries. -/
@[mk_iff]
structure Tidy (r : Registry) : Prop where
  voidFree : r.VoidFree
  object : r.arrayElement? .object = none ∧ ∀ t ∈ r.type? .object, t.base = none ∧
    t.instanceFields = []
  primitives : ∀ p ∈ Primitive.all, r.isReferenceType p.hash = false
  types : ∀ e ∈ r.types.toList, (∀ k ∈ r.kind? (.arrayOf e.1), k = .array e.1) ∧
    (r.arrayElement? e.1 = none ∨ e.2.base = none ∧ e.2.instanceFields = []) ∧
    (∀ b ∈ e.2.base, r.arrayElement? b = none) ∧ r.instanceFieldCount e.1 ≤ 65536
  fields : ∀ e ∈ r.fields.toList, e.2.type.isByRef = false
  functions : ∀ e ∈ r.functions.toList, (∀ p ∈ e.2.params, p.type.isByRef = false) ∧
    e.2.returns.isByRef = false ∧ e.2.stackArity ≤ 65536 ∧
    (e.2.kind = .constructor → ∀ owner ∈ e.2.owner, r.isReferenceType owner →
      r.kind? owner = some .reference)

instance (r : Registry) : Decidable r.Tidy := decidable_of_iff _ (r.tidy_iff).symm

/-- A tidy registry that was made by requests is regular. -/
theorem regular_of_requests {qs : List Request} (hmade : ∀ q ∈ qs, q.Made)
    (h : (Request.registry qs).Tidy) : (Request.registry qs).Regular := by
  have htys {hash : TypeHash} {t : TypeDecl} (ht : (Request.registry qs).type? hash = some t) :=
    h.types (hash, t) (mem_toList_iff_getElem?_eq_some.mpr ht)
  have hfuns {hash : TypeHash} {f : FunctionDecl}
    (hf : (Request.registry qs).function? hash = some f) :=
    h.functions (hash, f) (mem_toList_iff_getElem?_eq_some.mpr hf)
  exact {
    registered := registered_of_requests qs
    voidFree := h.voidFree
    object := fun t ht => ⟨(h.object.2 t ht).1, (h.object.2 t ht).2, fun e hkind => by
      have helem := arrayElement?_eq_some.mpr ⟨t, ht, hkind⟩
      rw [h.object.1] at helem
      cases helem⟩
    primitives := fun p => h.primitives p (by
      cases p with
      | void | bool => decide
      | int k | float k => cases k <;> decide)
    arrayOf := fun e k he hk => by
      obtain ⟨t, ht⟩ := Option.isSome_iff_exists.mp ((contains_eq_isSome_getElem?).symm.trans he)
      exact (htys ht).1 k hk
    arrays := fun hash t e ht hkind => by
      refine (htys ht).2.1.resolve_left fun hnone => ?_
      rw [arrayElement?_eq_some.mpr ⟨t, ht, hkind⟩] at hnone
      cases hnone
    bases := fun hash t b ht hbase => (htys ht).2.2.1 b hbase
    few := fun hash => by
      cases ht : (Request.registry qs).type? hash with
      | some t => exact (htys ht).2.2.2
      | none => simp [instanceFieldCount, baseChain_of_none ht]
    fields := fun hash f hf => h.fields (hash, f) (mem_toList_iff_getElem?_eq_some.mpr hf)
    params := fun hash f hf => (hfuns hf).1
    returns := fun hash f hf => (hfuns hf).2.1
    slots := fun hash f hf => (hfuns hf).2.2.1
    constructed := fun hash f owner hf hkind howner => (hfuns hf).2.2.2 hkind owner howner
    converting := fun source target f hf =>
      (((orderly_registry hmade).constructor?_eq_some_iff target [source] f).mp hf).2.1 }

end Registry

namespace Schema

variable (S : Schema r)

theorem admits_field_iff (holder : Symbol) (name : String) : S.Admits (.field holder name) ↔
    ∀ f ∈ r.field? holder.valueType.hash name, f.isStatic = false →
    f ∈ r.layout holder.valueType.hash := Iff.rfl

instance : DecidablePred S.Admits
  | .field holder name => decidable_of_iff _ (S.admits_field_iff holder name).symm
  | .captured id =>
    inferInstanceAs (Decidable (S.captured id.owner id.index = some id.type.hash ∧
      id.type.isByRef = false))
  | .call h _ args | .construct h args =>
    inferInstanceAs (Decidable (∀ g ∈ r.function? h, ∀ e ∈ args.zip g.params,
      e.2.passing.isReference → e.1.valueType.hash = e.2.type.hash))
  | .argument _ | .this | .literal _ | .staticField _ _ | .element _ _ | .binary _ _ _ | .unary _ _
  | .newArray _ _ | .arrayLength _ | .convert _ _ => isTrue trivial

instance : DecidablePred (Discipline.typed S).Allows
  | .make f => inferInstanceAs (Decidable (Discipline.statements.Allows (.make f) ∧ S.Admits f))
  | .declare type => inferInstanceAs (Decidable (Discipline.statements.Allows (.declare type)))
  | .acquireTemporary type =>
    inferInstanceAs (Decidable (Discipline.statements.Allows (.acquireTemporary type)))
  | .load s intent => inferInstanceAs (Decidable (Discipline.statements.Allows (.load s intent)))
  | .statement s => inferInstanceAs (Decidable (Discipline.statements.Allows (.statement s)))
  | .assign dest source | .assignStackMediated dest source =>
    inferInstanceAs (Decidable (Discipline.statements.Allows (.assign dest source)))
  | .returnValue s => inferInstanceAs (Decidable (Discipline.statements.Allows (.returnValue s)))
  | .openScope kind s =>
    inferInstanceAs (Decidable (Discipline.statements.Allows (.openScope kind s)))
  | .breakIfFalse h s =>
    inferInstanceAs (Decidable (Discipline.statements.Allows (.breakIfFalse h s)))
  | .defineLabel | .markLabel _ | .jump _ | .closeScope _ | .breakScope _ | .continueLoop
    _ | .release
  | .setLine _ => isTrue trivial

end Schema

theorem Program.registry_ofScripts (r : Registry) (ss : List (FunctionDecl × List Direction)) :
    (ofScripts r ss).registry = r := rfl

theorem Program.natives_ofScripts (r : Registry) (ss : List (FunctionDecl × List Direction))
    (h : TypeHash) : (ofScripts r ss).natives[h]? = none := natives_ofMethods r _ h

theorem Program.Scripted.typed {S : Schema r} {ss : List (FunctionDecl × List Direction)}
    (h : Scripted r ss (.typed S)) :
    (ofScripts r ss).Typed S where
  methods hash m hm := by
    obtain ⟨hmem, rfl⟩ := mem_of_ofMethods hm
    obtain ⟨s, hs, rfl⟩ := mem_map.mp hmem
    exact ⟨h.registered s hs, ⟨0⟩, .default, _, Session.steps_enact (h.follows s hs),
      Method.finish_scripted (h.follows s hs) (h.ends s hs)⟩
  natives hash native f hnative := by
    rw [natives_ofScripts] at hnative
    cases hnative

/-! ### A place for dogs -/

namespace Kennel

/-- A reference type with a static field. -/
def animal : TypeDecl :=
  (TypeDecl.named "Animal" .reference).withField "last" (.plain (.ofName "Animal")) true

def cat : TypeDecl := { TypeDecl.named "Cat" .reference with base := some animal.hash }

def dog : TypeDecl :=
  { TypeDecl.named "Dog" .reference with base := some animal.hash }.withField "best"
    (.plain (.ofName "Dog")) true

def newCat : FunctionDecl := .constructor cat.hash []

/-- A function that puts one animal in the place of another. -/
def put : FunctionDecl :=
  .free "put" [⟨"x", .plain animal.hash, .inOut⟩, ⟨"y", .plain animal.hash, .byValue⟩] .void

/-- A function that puts a cat into a variable for animals. -/
def keep : FunctionDecl := .free "keep" [] (.plain animal.hash)

/-- A function that puts a cat into a variable for dogs. -/
def adopt : FunctionDecl := .free "adopt" [] (.plain dog.hash)

def requests : List Request := [.primitives, .type animal, .type cat, .type dog, .function newCat,
  .function put, .function keep, .function adopt]

def registry : Registry := Request.registry requests

/-- Variable, call and static field of one type. -/
def script (type : TypeDecl) (field : String) : List Direction :=
  [.declare (.plain type.hash), .make (.construct newCat.hash []),
    .make (.call put.hash none [0, 1]),
   .statement 2, .make (.staticField type.hash field), .assign 3 0, .returnValue (some 0)]

/-- The functions that both programs have. -/
def shared : List (FunctionDecl × List Direction) := [(newCat, [.returnValue none]),
   (put, [.make (.argument 0), .make (.argument 1), .assign 0 1, .returnValue none])]

/-- The variable is of exactly the type of the parameter. -/
def exact : List (FunctionDecl × List Direction) := (keep, script animal "last") :: shared

/-- The type of the variable can stand for the type of the parameter. -/
def covariant : List (FunctionDecl × List Direction) := (adopt, script dog "best") :: shared

theorem made_requests : ∀ q ∈ requests, q.Made := by
  have hanimal : animal.Made := .withField (.named _ _) _ _ _
  have hcat : cat.Made := .withBase (.named _ _) _
  have hdog : dog.Made := .withField (.withBase (.named _ _) _) _ _ _
  simp only [requests, forall_mem_cons]
  exact ⟨trivial, hanimal, hcat, hdog, .constructor _ _, .free _ _ _, .free _ _ _, .free _ _ _,
    by simp⟩

theorem tidy_registry : registry.Tidy := by
  decide +kernel

/-- No captured values are used. -/
def schema : Schema registry :=
  ⟨Registry.regular_of_requests made_requests tidy_registry, fun _ _ => none⟩

theorem evaluation : Program.Scripted registry exact (.typed schema) ∧
    Program.Scripted registry covariant .statements ∧
    (Machine.invoke ⟨.ofScripts registry exact, .initial⟩ 30 keep.hash []).map Prod.fst =
      some (.ok (.ref ⟨0⟩)) ∧
    (Machine.invoke ⟨.ofScripts registry covariant, .initial⟩ 30 adopt.hash []).map (fun x =>
      (x.1, x.2.state.statics[TypeHash.ofField dog.hash "best"]?,
        registry.accepts x.2.state.heap dog.hash (.ref ⟨0⟩))) =
      some (.ok (.ref ⟨0⟩), some (.ref ⟨0⟩), false) ∧
    (registry.fieldByHash? (TypeHash.ofField dog.hash "best")).map (fun f => f.type.hash) =
      some dog.hash ∧
    registry.isReferenceType dog.hash = true := by
  decide +kernel

end Kennel

namespace Program

/-- A cat in a variable for animals. -/
theorem keeping_a_cat_is_typed :
    (∀ t t', (Exec.enter Kennel.keep.hash [] .host).exec (.ofScripts Kennel.registry Kennel.exact)
      .initial = (.ok (), t) → Exec.Reaches (.ofScripts Kennel.registry Kennel.exact) t t' →
        t'.WellTyped Kennel.registry) ∧
    ∃ m', Machine.invoke ⟨.ofScripts Kennel.registry Kennel.exact, .initial⟩ 30 Kennel.keep.hash
      [] =
      some (.ok (.ref ⟨0⟩), m') ∧ m'.state.WellTyped Kennel.registry := by
  obtain ⟨hexact, -, hkeep, -⟩ := Kennel.evaluation
  obtain ⟨⟨result, m'⟩, hinvoke, rfl⟩ := Option.map_eq_some_iff.mp hkeep
  have hstays {r : Registry} {S : Schema r} {ss} (h : Scripted r ss (.typed S))
    (function : TypeHash) :=
    typed_slots_stay_typed (.ofScripts r ss) S h.typed .initial ⟨Meaning.kept_initial _, rfl⟩
      function []
      (natives_ofScripts r ss function) fun m _ n v hv => by simp at hv
  have hkept := hstays hexact Kennel.keep.hash
  have hreached := hkept.1
  have hleft := (hkept.2 30 _ m' hinvoke).2.2.1
  rw [registry_ofScripts] at hreached hleft
  exact ⟨hreached, m', hinvoke, hleft⟩

/-- A reference to a variable for dogs may be passed where a reference to a variable for animals is
expected. The callee puts a cat there, and the cat goes on to a static field for dogs. -/
theorem reference_arguments_are_covariant :
    Kennel.registry.Regular ∧ Scripted Kennel.registry Kennel.covariant .statements ∧
    ∃ v m', Machine.invoke ⟨.ofScripts Kennel.registry Kennel.covariant, .initial⟩ 30
      Kennel.adopt.hash
      [] = some (.ok v, m') ∧ ¬m'.state.WellTyped Kennel.registry := by
  obtain ⟨-, hcovariant, -, hadopt, hfield, href⟩ := Kennel.evaluation
  obtain ⟨⟨result, m'⟩, hinvoke, hstate⟩ := Option.map_eq_some_iff.mp hadopt
  obtain ⟨rfl, hstate⟩ := Prod.mk.inj hstate
  obtain ⟨hstatic, hrefused⟩ := Prod.mk.inj hstate
  refine ⟨Kennel.schema.regular, hcovariant, _, m', hinvoke, fun htyped => ?_⟩
  obtain ⟨f, hf, htype⟩ := Option.map_eq_some_iff.mp hfield
  have hsound := htyped.statics _ f _ hf hstatic
  rw [htype] at hsound
  have haccepts := hsound [] _ _ .nil href rfl
  rw [hrefused] at haccepts
  cases haccepts

end Program

end StackCode
