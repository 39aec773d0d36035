import Mathlib.Logic.Relation
import StackCode.Registry.Conversion

/-!
# Requests and the changes that they make

The user of a registry declares things and looks things up in any order. A refused declaration
changes nothing, and a lookup keeps the operator index that it needed. Whatever is asked, a registry
changes in four ways only: there is one more type, one more function without owner, one more
function that its owner lists, or one more kept index.
-/

namespace StackCode

open List Std.TreeMap

variable {h hash : TypeHash} {t : TypeDecl} {f : FunctionDecl}

/-! ### Makers -/

/-- The functions that makers give. -/
inductive FunctionDecl.Made : FunctionDecl → Prop
  | method (owner : TypeHash) (name : String) (params : List Param) (returns : DataType) :
      Made (.method owner name params returns)
  | staticMethod (owner : TypeHash) (name : String) (params : List Param) (returns : DataType) :
      Made (.staticMethod owner name params returns)
  | free (name : String) (params : List Param)
    (returns : DataType) : Made (.free name params returns)
  | constructor (owner : TypeHash) (params : List Param) : Made (.constructor owner params)
  | conversion (owner : TypeHash) (op : ConversionOperator) (source : Param) (target : DataType) :
      Made (.conversion owner op source target)

/-- The types that makers give. -/
inductive TypeDecl.Made : TypeDecl → Prop
  | named (name : String) (kind : TypeKind) : Made (.named name kind)
  | array (elementName : String) (element : TypeHash) : Made (.array elementName element)
  | withBase {t : TypeDecl} (h : Made t) (base : TypeHash) : Made { t with base := some base }
  | withField {t : TypeDecl} (h : Made t) (name : String) (type : DataType) (isStatic : Bool) :
      Made (t.withField name type isStatic)

/-! ### Requests -/

/-- What the user of a registry can do: declare something, or look something up. -/
inductive Request
  | primitives
  | type (t : TypeDecl)
  | array (element : TypeHash)
  | function (f : FunctionDecl)
  | operators (owner : TypeHash)
  | constructor (owner : TypeHash) (params : List TypeHash)
  | conversion (declaring : TypeHash) (op : ConversionOperator) (source target : TypeHash)

namespace Request

/-- The declaration of a request comes from a maker. -/
def Made : Request → Prop
  | .type t => t.Made
  | .function f => f.Made
  | _ => True

/-- Whether a request declares something. -/
def declares : Request → Bool
  | .primitives | .type _ | .array _ | .function _ => true
  | .operators _ | .constructor _ _ | .conversion _ _ _ _ => false

/-- A lookup declares nothing that would have to be made. -/
theorem made_of_declares {q : Request} (h : q.declares → q.Made) : q.Made := by
  cases q with
  | primitives | type | array | function => exact h rfl
  | operators | constructor | conversion => exact trivial

end Request

namespace Registry

/-- The registry after a request, be it refused or not. -/
def after (r : Registry) : Request → Registry
  | .primitives => r.registerPrimitives
  | .type t => (r.registerType t).2
  | .array element => (r.registerArray element).2
  | .function f => (r.registerFunction f).2
  | .operators owner | .constructor owner _ | .conversion owner _ _ _ => r.remember owner

end Registry

/-- The registry after requests one after the other. -/
def Request.registry (requests : List Request) : Registry := requests.foldl Registry.after .empty

/-! ### Lookups -/

namespace Registry

variable {r r' : Registry}

theorem type?_eq_none (hnew : r.containsType h = false) : r.type? h = none :=
  getElem?_eq_none_of_contains_eq_false hnew

theorem exists_type? (hknown : r.containsType h) : ∃ t, r.type? h = some t := by
  rw [containsType, contains_eq_isSome_getElem?] at hknown
  exact Option.isSome_iff_exists.mp hknown

theorem type?_insert (htys : r'.types = r.types.insert h t) (owner : TypeHash) :
    r'.type? owner = if h = owner then some t else r.type? owner := by
  rw [type?, type?, htys, Std.TreeMap.getElem?_insert]
  simp only [Std.LawfulEqCmp.compare_eq_iff_eq]

theorem function?_insert (hfuns : r'.functions = r.functions.insert h f) (hash : TypeHash) :
    r'.function? hash = if h = hash then some f else r.function? hash := by
  rw [function?, function?, hfuns, Std.TreeMap.getElem?_insert]
  simp only [Std.LawfulEqCmp.compare_eq_iff_eq]

end Registry

/-! ### Changes -/

/-- The declaration with more functions behind those that it lists. -/
structure TypeDecl.Grows (t u : TypeDecl) : Prop where
  same : u = { t with methods := u.methods, constructors := u.constructors, operators :=
    u.operators }
  methods : t.methods <+: u.methods
  constructors : t.constructors <+: u.constructors
  operators : t.operators <+: u.operators

theorem TypeDecl.Grows.refl (t : TypeDecl) : t.Grows t :=
  ⟨rfl, prefix_refl _, prefix_refl _, prefix_refl _⟩

theorem TypeDecl.Grows.trans {u v : TypeDecl} (h : t.Grows u) (h' : u.Grows v) : t.Grows v :=
  ⟨by rw [h'.same, h.same], h.methods.trans h'.methods, h.constructors.trans h'.constructors,
    h.operators.trans h'.operators⟩

theorem TypeDecl.grows_addMember (t : TypeDecl) (f : FunctionDecl) : t.Grows (t.addMember f) := by
  unfold TypeDecl.addMember
  split <;> exact ⟨rfl, by simp, by simp, by simp⟩

namespace Registry

/-- The type as it is entered: its fields get their owner, their hash and their position. -/
def laidOut (r : Registry) (t : TypeDecl) : TypeDecl :=
  { t with fields := layOut t.hash ((t.base.map r.instanceFieldCount).getD 0) t.fields }

/-- One more type, laid out behind its base. -/
def withType (r : Registry) (t : TypeDecl) : Registry := { r with
    fields := (r.laidOut t).fields.foldl (fun m f => m.insert f.hash f) r.fields
    names := r.names.insert t.name t.hash
    types := r.types.insert t.hash (r.laidOut t) }

/-- One more function without owner. -/
def withFunction (r : Registry) (f : FunctionDecl) : Registry :=
  { r with functions := r.functions.insert f.hash f }

/-- One more function, which its owner lists. -/
def withMember (r : Registry) (owner : TypeHash) (t : TypeDecl) (f : FunctionDecl) : Registry :=
  { r.withFunction f with
    types := r.types.insert owner (t.addMember f)
    indexes := r.indexes.erase owner }

/-- A type that can be entered: its hash is free, and it is built in or would not be refused. -/
def Accepts (r : Registry) (t : TypeDecl) : Prop :=
  r.type? t.hash = none ∧ (t ∈ builtins ∨ r.typeRefusal? t = none)

/-- What can happen to a registry where types and functions of some sort are declared. -/
inductive Change (T : TypeDecl → Prop) (F : FunctionDecl → Prop) : Registry → Registry → Prop
  | type {r : Registry} {t : TypeDecl} (hsort : T t) (haccepts : r.Accepts t) :
  Change T F r (r.withType t)
  | free {r : Registry} {f : FunctionDecl} (hsort : F f) (hnew : r.function? f.hash = none)
      (howner : f.owner = none) : Change T F r (r.withFunction f)
  | member {r : Registry} {f : FunctionDecl} {owner : TypeHash} {t : TypeDecl} (hsort : F f)
      (hnew : r.function? f.hash = none) (howner : f.owner = some owner)
        (ht : r.type? owner = some t) :
      Change T F r (r.withMember owner t f)
  | remember (r : Registry) (owner : TypeHash) : Change T F r (r.remember owner)

/-- Changes one after the other. -/
def Changes (T : TypeDecl → Prop) (F : FunctionDecl → Prop) : Registry → Registry → Prop :=
  Relation.ReflTransGen (Change T F)

variable {r r' : Registry} {T T' : TypeDecl → Prop} {F F' : FunctionDecl → Prop}

theorem Changes.mono (h : Changes T F r r') (hT : ∀ t, T t → T' t) (hF : ∀ f, F f → F' f) :
    Changes T' F' r r' := by
  refine Relation.ReflTransGen.mono ?_ r r' h
  intro a b hab
  cases hab with
  | type hsort hacc => exact .type (hT _ hsort) hacc
  | free hsort hnew howner => exact .free (hF _ hsort) hnew howner
  | member hsort hnew howner ht => exact .member (hF _ hsort) hnew howner ht
  | remember owner => exact .remember a owner

theorem Changes.preserves {motive : Registry → Prop} (h : Changes T F r r')
    (change : ∀ {a b}, motive a → Change T F a b → motive b) (hr : motive r) : motive r' := by
  induction h with
  | refl => exact hr
  | tail _ hlast ih => exact change ih hlast

/-! ### What a change does to lookups -/

theorem Change.function? (h : Change T F r r') (hf : r.function? hash = some f) :
    r'.function? hash = some f := by
  have hinsert : ∀ {g : FunctionDecl} {r' : Registry}, r.function? g.hash = none →
      r'.functions = r.functions.insert g.hash g → r'.function? hash = some f := by
    intro g r' hnew hfuns
    rw [function?_insert hfuns, if_neg]
    · exact hf
    · rintro rfl
      rw [hnew] at hf
      cases hf
  cases h with
  | type => exact hf
  | free _ hnew => exact hinsert hnew rfl
  | member _ hnew => exact hinsert hnew rfl
  | remember => exact hf

/-- A function was there before, or it is the new one, which its owner lists. -/
theorem Change.of_function? (h : Change T F r r') (hf : r'.function? hash = some f) :
    r.function? hash = some f ∨
      F f ∧ f.hash = hash ∧ r.function? hash = none ∧ ∀ owner, f.owner = some owner →
        ∃ t, r.type? owner = some t ∧ r'.type? owner = some (t.addMember f) := by
  cases h with
  | type | remember => exact .inl hf
  | @free g hsort hnew howner =>
    rw [function?_insert rfl] at hf
    split at hf
    · rename_i heq
      cases hf
      exact .inr ⟨hsort, heq, heq ▸ hnew, by simp [howner]⟩
    · exact .inl hf
  | @member g owner t hsort hnew howner ht =>
    rw [function?_insert rfl] at hf
    split at hf
    · rename_i heq
      cases hf
      refine .inr ⟨hsort, heq, heq ▸ hnew, fun o ho => ?_⟩
      rw [howner] at ho
      cases ho
      exact ⟨t, ht, by rw [type?_insert rfl, if_pos rfl]⟩
    · exact .inl hf

theorem Change.type? (h : Change T F r r') (ht : r.type? hash = some t) :
    ∃ u, r'.type? hash = some u ∧ t.Grows u := by
  cases h with
  | @type u _ hacc =>
    refine ⟨t, ?_, .refl t⟩
    rw [type?_insert rfl, if_neg]
    · exact ht
    · rintro rfl
      rw [hacc.1] at ht
      cases ht
  | free | remember => exact ⟨t, ht, .refl t⟩
  | @member f owner u _ _ _ hu =>
    rw [type?_insert rfl]
    split
    · rename_i heq
      rw [← heq, hu] at ht
      cases ht
      exact ⟨_, rfl, t.grows_addMember f⟩
    · exact ⟨t, ht, .refl t⟩

/-- A type was there before and may have got functions, or it is the new one. -/
theorem Change.of_type? (h : Change T F r r') {u : TypeDecl} (hu : r'.type? hash = some u) :
    (∃ t, r.type? hash = some t ∧ t.Grows u) ∨
      ∃ t, T t ∧ r.Accepts t ∧ r' = r.withType t ∧ t.hash = hash ∧ u = r.laidOut t := by
  cases h with
  | @type t hsort hacc =>
    rw [type?_insert rfl] at hu
    split at hu
    · exact .inr ⟨t, hsort, hacc, rfl, ‹_›, (Option.some.inj hu).symm⟩
    · exact .inl ⟨u, hu, .refl u⟩
  | free | remember => exact .inl ⟨u, hu, .refl u⟩
  | @member f owner t _ _ _ ht =>
    rw [type?_insert rfl] at hu
    split at hu
    · rename_i heq
      cases hu
      exact .inl ⟨t, heq ▸ ht, t.grows_addMember f⟩
    · exact .inl ⟨u, hu, .refl u⟩

theorem Changes.function? (h : Changes T F r r') (hf : r.function? hash = some f) :
    r'.function? hash = some f :=
  h.preserves (fun hf hchg => hchg.function? hf) hf

theorem Changes.type? (h : Changes T F r r') (ht : r.type? hash = some t) :
    ∃ u, r'.type? hash = some u ∧ t.Grows u := by
  refine h.preserves (motive := fun r => ∃ u, r.type? hash = some u ∧ t.Grows u) ?_ ⟨t, ht, .refl t⟩
  rintro a b ⟨u, hu, hgrows⟩ hchg
  obtain ⟨v, hv, hgrows'⟩ := hchg.type? hu
  exact ⟨v, hv, hgrows.trans hgrows'⟩

/-! ### The changes of a request -/

/-- What is checked before a type is added. -/
theorem typeRefusal?_none (h : r.typeRefusal? t = none) :
    r.containsType t.hash = false ∧ t.name ∉ r.names ∧
      (t.kind.isValueType → t.base = none) ∧ (∀ b, t.base = some b → r.containsType b) ∧
      repeatedField? [] t.fields = none := by
  unfold typeRefusal? at h
  split at h
  · cases h
  rename_i hknown
  split at h
  · cases h
  rename_i hval
  split at h
  · cases h
  rename_i hbase
  refine ⟨by simp_all, by simp_all, fun hkind => by simp_all, fun b hb => ?_,
    Option.map_eq_none_iff.mp h⟩
  rw [hb] at hbase
  simpa using hbase

/-- A refused type leaves the registry as it was, and any other is entered. -/
theorem registerType_cases (r : Registry) (t : TypeDecl) :
    (∃ e, r.registerType t = (.error e, r)) ∨
      r.registerType t = (.ok t.hash, r.withType t) ∧ r.typeRefusal? t = none := by
  unfold registerType
  split
  · exact .inl ⟨_, rfl⟩
  · exact .inr ⟨rfl, ‹_›⟩

theorem changes_registerType (ht : T t) : Changes T F r (r.registerType t).2 := by
  rcases r.registerType_cases t with ⟨e, hcase⟩ | ⟨hcase, hrefusal⟩ <;> rw [hcase]
  · exact .refl
  · exact .single (.type ht ⟨type?_eq_none (typeRefusal?_none hrefusal).1, .inr hrefusal⟩)

/-- An array type is there, or its element type is missing, or it is entered as any other type. -/
theorem registerArray_cases (r : Registry) (element : TypeHash) :
    r.registerArray element = (.ok (.arrayOf element), r) ∧ r.containsType (.arrayOf element) ∨
      (∃ e, r.registerArray element = (.error e, r)) ∨
      ∃ name, r.registerArray element = r.registerType (.array name element) := by
  unfold registerArray
  dsimp only
  split
  · exact .inl ⟨rfl, ‹_›⟩
  · split
    · exact .inr (.inl ⟨_, rfl⟩)
    · exact .inr (.inr ⟨_, rfl⟩)

theorem plain_of_mem_builtins : ∀ t ∈ builtins, t.base = none ∧ t.fields = [] := by decide +kernel

theorem changes_registerPrimitives (hT : ∀ t ∈ builtins, T t) :
    Changes T F r r.registerPrimitives := by
  have hfold : ∀ ts ⊆ builtins, ∀ r, Changes T F r (ts.foldl addBuiltin r) := by
    intro ts
    induction ts with
    | nil => exact fun _ _ => .refl
    | cons t ts ih =>
      intro hsub r
      have ht : t ∈ builtins := hsub mem_cons_self
      refine .trans ?_ (ih (fun u hu => hsub (mem_cons_of_mem t hu)) _)
      unfold addBuiltin
      split
      · exact .refl
      · rename_i hnew
        have hentered : r.withType t =
            { r with names := r.names.insert t.name t.hash, types := r.types.insert t.hash t } := by
          obtain ⟨name, hash, kind, base, fields, methods, constructors, operators⟩ := t
          cases (plain_of_mem_builtins _ ht).2
          rfl
        rw [← hentered]
        exact .single (.type (hT t ht) ⟨type?_eq_none (by simpa using hnew), .inl ht⟩)
  exact hfold builtins (fun _ ht => ht) r

/-- A refused function leaves the registry as it was, and any other is added. -/
theorem registerFunction_cases (r : Registry) (hf : F f) :
    (∃ e, r.registerFunction f = (.error e, r)) ∨
      ∃ r', r.registerFunction f = (.ok f.hash, r') ∧ r'.function? f.hash = some f ∧
      Change T F r r' := by
  unfold registerFunction
  split
  · exact .inl ⟨_, rfl⟩
  rename_i hknown
  have hnew : r.function? f.hash = none := getElem?_eq_none (by simpa using hknown)
  split
  · exact .inr ⟨_, rfl, by rw [function?_insert rfl, if_pos rfl], .free hf hnew ‹_›⟩
  · split
    · exact .inl ⟨_, rfl⟩
    · exact .inr ⟨_, rfl, by rw [function?_insert rfl, if_pos rfl], .member hf hnew ‹_› ‹_›⟩

end Registry

open Registry

/-- The types that a request can enter. -/
def Request.Types : Request → TypeDecl → Prop
  | .primitives, t => t ∈ builtins
  | .type u, t => t = u
  | .array element, t => ∃ name, t = .array name element
  | _, _ => False

namespace Registry

variable {r : Registry}

/-- Whatever is asked, the registry changes in the four ways. -/
theorem changes_after (r : Registry) (q : Request) :
    Changes q.Types (fun f => q = .function f) r (r.after q) := by
  cases q with
  | primitives => exact changes_registerPrimitives fun _ ht => ht
  | type t => exact changes_registerType rfl
  | array element =>
    rw [after]
    rcases r.registerArray_cases element with ⟨hcase, -⟩ | ⟨e, hcase⟩ | ⟨name, hcase⟩ <;> rw [hcase]
    · exact .refl
    · exact .refl
    · exact changes_registerType ⟨name, rfl⟩
  | function f =>
    rw [after]
    rcases r.registerFunction_cases (f := f) (F := fun g => Request.function f = .function g)
      rfl with
      ⟨e, hcase⟩ | ⟨r', hcase, -, hchange⟩ <;> rw [hcase]
    · exact .refl
    · exact .single hchange
  | operators owner | constructor owner | conversion owner => exact .single (.remember r owner)

theorem changes_foldl (r : Registry) (qs : List Request) :
    Changes (fun t => ∃ q ∈ qs, q.Types t) (fun f => .function f ∈ qs) r (qs.foldl after r) := by
  induction qs generalizing r with
  | nil => exact .refl
  | cons q qs ih =>
    refine .trans ((r.changes_after q).mono (fun t ht => ⟨q, mem_cons_self, ht⟩) ?_)
      ((ih (r.after q)).mono ?_ fun f => mem_cons_of_mem q)
    · rintro f rfl
      exact mem_cons_self
    · rintro t ⟨q', hq', ht⟩
      exact ⟨q', mem_cons_of_mem q hq', ht⟩

end Registry

/-- The registries that can be built. -/
inductive Registry.Registered : Registry → Prop
  | empty : Registered .empty
  | primitives {r} (h : Registered r) : Registered r.registerPrimitives
  | type {r} (h : Registered r) (t : TypeDecl) : Registered (r.registerType t).2
  | array {r} (h : Registered r) (element : TypeHash) : Registered (r.registerArray element).2
  | function {r} (h : Registered r) (f : FunctionDecl) : Registered (r.registerFunction f).2
  | remember {r} (h : Registered r) (owner : TypeHash) : Registered (r.remember owner)

namespace Registry

/-- What holds of the empty registry and is preserved by every change. -/
theorem Registered.induction {motive : Registry → Prop} {r : Registry} (hr : r.Registered)
    (empty : motive .empty)
    (change : ∀ {r r'}, motive r → Change (fun _ => True) (fun _ => True) r r' → motive r') :
    motive r := by
  have hafter : ∀ {r} (q : Request), motive r → motive (r.after q) := by
    intro r q ih
    exact ((r.changes_after q).mono (fun _ _ => trivial) fun _ _ => trivial).preserves change ih
  induction hr with
  | empty => exact empty
  | primitives _ ih => exact hafter .primitives ih
  | type _ t ih => exact hafter (.type t) ih
  | array _ element ih => exact hafter (.array element) ih
  | function _ f ih => exact hafter (.function f) ih
  | remember _ owner ih => exact hafter (.operators owner) ih

end Registry

end StackCode
