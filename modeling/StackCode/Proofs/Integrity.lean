import Mathlib.Data.List.Nodup
import StackCode.Proofs.Declarations

/-!
# The integrity of a registry

One registration touches the types, their names, their fields, the functions and the lists of
another type. After any requests these fit together: types are found by their names, and the
functions of a type are listed once each. A refused declaration leaves everything as it was, and
what is registered never changes, but for types that list more functions.

A built-in type is entered whether or not its name is taken. It never is: a type has the hash of its
name unless it is an array type, and no built-in name is that of an array type.
-/

namespace StackCode

variable {t : TypeDecl}

/-! ### Names -/

/-- The type has the hash of its name, or the name of an array type. -/
def TypeDecl.Titled (t : TypeDecl) : Prop :=
  t.hash = .ofName t.name ∨ ∃ element, t.name = element ++ "[]"

theorem TypeDecl.Made.titled (h : t.Made) : t.Titled := by
  induction h with
  | named => exact .inl rfl
  | array elementName => exact .inr ⟨elementName, rfl⟩
  | withBase _ _ ih | withField _ _ _ _ ih => exact ih

namespace Registry

variable {r r' : Registry} {F : FunctionDecl → Prop}

theorem name_of_mem_builtins (ht : t ∈ builtins) (element : String) : t.name ≠ element ++ "[]" := by
  have hlast : ∀ t ∈ builtins, t.name.toList.getLast? ≠ some ']' := by decide +kernel
  intro hname
  refine hlast t ht ?_
  rw [hname, String.toList_append]
  simp

/-- Types stand under their hashes, and a name leads to the type that has it. -/
structure Named (r : Registry) : Prop where
  titled : ∀ h t, r.type? h = some t → t.hash = h ∧ t.Titled
  name : ∀ h t, r.type? h = some t → r.names[t.name]? = some h
  type : ∀ (n : String) h, r.names[n]? = some h → ∃ t, r.type? h = some t ∧ t.name = n

theorem named_empty : Registry.empty.Named := by
  constructor <;> simp [Registry.empty, type?]

theorem Named.name_free (hr : r.Named) (hmade : t.Made) (hacc : r.Accepts t) :
    r.names[t.name]? = none := by
  rcases hacc with ⟨hnew, hbuiltin | hrefusal⟩
  · refine Option.eq_none_iff_forall_ne_some.mpr fun h hh => ?_
    -- A type that had the name would have its hash too, or else the name of an array type.
    obtain ⟨u, hu, hname⟩ := hr.type _ h hh
    obtain ⟨rfl, htitled⟩ := hr.titled h u hu
    rcases htitled, hmade.titled with ⟨hhash | ⟨element, helem⟩, hhash' | ⟨element', helem'⟩⟩
    · rw [hhash', ← hname, ← hhash, hu] at hnew
      cases hnew
    · exact name_of_mem_builtins hbuiltin _ helem'
    · exact name_of_mem_builtins hbuiltin _ (hname.symm.trans helem)
    · exact name_of_mem_builtins hbuiltin _ helem'
  · exact Std.TreeMap.getElem?_eq_none (typeRefusal?_none hrefusal).2.1

theorem Named.change (hr : r.Named) (hchg : Change TypeDecl.Made F r r') : r'.Named := by
  -- An entry is not overwritten, since the name of a new type is free.
  have hkeeps : ∀ {n : String} {h}, r.names[n]? = some h → r'.names[n]? = some h := by
    intro n h hn
    cases hchg with
    | @type t hmade hacc =>
      rw [withType, Std.TreeMap.getElem?_insert, if_neg]
      · exact hn
      · intro heq
        rw [← Std.LawfulEqCmp.eq_of_compare heq, hr.name_free hmade hacc] at hn
        cases hn
    | free | member | remember => exact hn
  refine ⟨fun h u hu => ?_, fun h u hu => ?_, fun n h hn => ?_⟩
  · rcases hchg.of_type? hu with ⟨t, ht, hgrows⟩ | ⟨t, hmade, -, -, rfl, rfl⟩
    · rw [hgrows.same]
      exact hr.titled h t ht
    · exact ⟨rfl, hmade.titled⟩
  · rcases hchg.of_type? hu with ⟨t, ht, hgrows⟩ | ⟨t, -, -, rfl, rfl, rfl⟩
    · rw [hgrows.same]
      exact hkeeps (hr.name h t ht)
    · exact Std.TreeMap.getElem?_insert_self
  · have hold : r.names[n]? = some h → ∃ u, r'.type? h = some u ∧ u.name = n := by
      intro hn
      obtain ⟨t, ht, rfl⟩ := hr.type n h hn
      obtain ⟨u, hu, hgrows⟩ := hchg.type? ht
      exact ⟨u, hu, by rw [hgrows.same]⟩
    cases hchg with
    | @type t =>
      rw [withType, Std.TreeMap.getElem?_insert] at hn
      split at hn
      · rename_i heq
        cases hn
        exact ⟨r.laidOut t, by rw [type?_insert rfl, if_pos rfl], Std.LawfulEqCmp.eq_of_compare heq⟩
      · exact hold hn
    | free | member | remember => exact hold hn

theorem Named.typeNamed?_eq_some_iff (hr : r.Named) {n : String} :
    r.typeNamed? n = some t ↔ r.type? t.hash = some t ∧ t.name = n := by
  rw [typeNamed?, Option.bind_eq_bind, Option.bind_eq_some_iff]
  constructor
  · rintro ⟨h, hn, ht⟩
    obtain ⟨u, hu, hname⟩ := hr.type n h hn
    rw [ht] at hu
    cases hu
    exact ⟨by rw [(hr.titled h t ht).1]; exact ht, hname⟩
  · rintro ⟨ht, rfl⟩
    exact ⟨t.hash, hr.name _ t ht, ht⟩

/-! ### Integrity -/

/-- Types stand under their hashes and are found by their names. What a type lists are functions of
the sort of the list that belong to it, and a function with an owner is listed once, there and
nowhere else. -/
structure Integral (r : Registry) : Prop where
  hash : ∀ h t, r.type? h = some t → t.hash = h
  names : ∀ n t, r.typeNamed? n = some t ↔ r.type? t.hash = some t ∧ t.name = n
  members : ∀ owner t k, r.type? owner = some t → ∀ h ∈ t.roll k,
    ∃ f, r.function? h = some f ∧ f.owner = some owner ∧ f.kind.roll = k
  once : ∀ h f owner, r.function? h = some f → f.owner = some owner →
    (∃ t, r.type? owner = some t) ∧
    ∀ o t k, r.type? o = some t → (t.roll k).count h = if o = owner ∧ k = f.kind.roll then 1 else 0

theorem Enrolled.integral (hr : r.Enrolled) (hnamed : r.Named) : r.Integral where
  hash h t ht := (hnamed.titled h t ht).1
  names _ _ := hnamed.typeNamed?_eq_some_iff
  members owner t k ht h hmem := hr.owned owner t k h ht hmem
  once h f owner hf howner := by
    obtain ⟨u, hu, hlisted⟩ := hr.listed h f owner hf howner
    refine ⟨⟨u, hu⟩, fun o t k ht => ?_⟩
    split
    · rename_i hplace
      obtain ⟨rfl, rfl⟩ := hplace
      rw [hu] at ht
      cases ht
      exact List.count_eq_one_of_mem (hr.once o u _ hu) hlisted
    · rename_i hplace
      -- Listed elsewhere, the function would belong there and be of that sort.
      refine List.count_eq_zero.mpr fun hmem => hplace ?_
      obtain ⟨g, hg, hgowner, hgkind⟩ := hr.owned o t k h ht hmem
      rw [hf] at hg
      cases hg
      rw [howner] at hgowner
      exact ⟨(Option.some.inj hgowner).symm, hgkind.symm⟩

/-- The request is refused with an error. -/
def Refuses (r : Registry) (e : RegistrationError) : Request → Prop
  | .type t => (r.registerType t).1 = .error e
  | .array element => (r.registerArray element).1 = .error e
  | .function f => (r.registerFunction f).1 = .error e
  | _ => False

/-- What is declared is registered. -/
def Has (r : Registry) : Request → Prop
  | .type t => ∃ u, r.type? t.hash = some u ∧ u.name = t.name
  | .array element => ∃ u, r.type? (.arrayOf element) = some u
  | .function f => r.function? f.hash = some f
  | _ => True

theorem registerType_of_refuses {e : RegistrationError} (h : (r.registerType t).1 = .error e) :
    (r.registerType t).2 = r := by
  rcases r.registerType_cases t with ⟨e', hcase⟩ | ⟨hcase, -⟩
  · rw [hcase]
  · rw [hcase] at h
    cases h

/-- A refused request returns the registry that it was made to. -/
theorem after_of_refuses {q : Request} {e : RegistrationError} (h : r.Refuses e q) :
    r.after q = r := by
  cases q with
  | type t => exact registerType_of_refuses h
  | array element =>
    rw [Refuses] at h
    rw [after]
    rcases r.registerArray_cases element with ⟨hcase, -⟩ | ⟨e', hcase⟩ | ⟨name, hcase⟩
    · rw [hcase]
    · rw [hcase]
    · rw [hcase] at h ⊢
      exact registerType_of_refuses h
  | function f =>
    rw [Refuses] at h
    rw [after]
    rcases r.registerFunction_cases (f := f) (T := fun _ => True) (F := fun _ => True) trivial with
      ⟨e', hcase⟩ | ⟨r', hcase, -⟩
    · rw [hcase]
    · rw [hcase] at h
      cases h
  | primitives | operators | constructor | conversion => cases h

theorem has_registerType (h : ∀ e, (r.registerType t).1 ≠ .error e) :
    (r.registerType t).2.type? t.hash = some (r.laidOut t) := by
  rcases r.registerType_cases t with ⟨e, hcase⟩ | ⟨hcase, -⟩
  · exact absurd (congrArg Prod.fst hcase) (h e)
  · rw [hcase, type?_insert rfl, if_pos rfl]

theorem has_after {q : Request} (h : ∀ e, ¬r.Refuses e q) : (r.after q).Has q := by
  cases q with
  | type t => exact ⟨_, has_registerType h, rfl⟩
  | array element =>
    rw [after]
    rcases r.registerArray_cases element with ⟨hcase, hknown⟩ | ⟨e, hcase⟩ | ⟨name, hcase⟩
    · rw [hcase]
      exact exists_type? hknown
    · exact absurd (congrArg Prod.fst hcase) (h e)
    · rw [hcase]
      refine ⟨_, has_registerType fun e he => h e ?_⟩
      rw [Refuses, hcase]
      exact he
  | function f =>
    rw [after]
    rcases r.registerFunction_cases (f := f) (T := fun _ => True) (F := fun _ => True) trivial with
      ⟨e, hcase⟩ | ⟨r', hcase, hadded, -⟩
    · exact absurd (congrArg Prod.fst hcase) (h e)
    · rw [hcase]
      exact hadded
  | primitives | operators | constructor | conversion => trivial

theorem enrolled_and_named {requests : List Request} (hmade : ∀ q ∈ requests, q.Made) :
    (Request.registry requests).Enrolled ∧ (Request.registry requests).Named :=
  (changes_made .empty hmade).preserves (motive := fun r => r.Enrolled ∧ r.Named)
    (fun ih hchg => ⟨ih.1.change hchg, ih.2.change hchg⟩) ⟨enrolled_empty, named_empty⟩

end Registry

open Registry

/-- Whatever was declared, accepted or refused, and looked up: the registry is integral. A refused
request leaves it as it was, and any other has registered what it declares. What comes later changes
no function, and no type but for the functions that it lists behind those it listed. -/
theorem Request.registration_keeps_integrity {requests : List Request}
    (hmade : ∀ q ∈ requests, q.Made) :
    (registry requests).Integral ∧
    (∀ q e, (registry requests).Refuses e q → (registry requests).after q = registry requests) ∧
    (∀ q, (∀ e, ¬(registry requests).Refuses e q) → ((registry requests).after q).Has q) ∧
    ∀ more : List Request,
      (∀ h f, (registry requests).function? h = some f →
        (registry (requests ++ more)).function? h = some f) ∧
      ∀ h t, (registry requests).type? h = some t →
        ∃ u, (registry (requests ++ more)).type? h = some u ∧ t.Grows u := by
  obtain ⟨henrolled, hnamed⟩ := enrolled_and_named hmade
  refine ⟨henrolled.integral hnamed, fun q e => after_of_refuses, fun q => has_after,
    fun more => ?_⟩
  have hmore : registry (requests ++ more) = more.foldl after (registry requests) :=
    List.foldl_append
  rw [hmore]
  exact ⟨fun h f hf => (changes_foldl _ more).function? hf, fun h t ht =>
    (changes_foldl _ more).type? ht⟩

/-! ### Declarations of which some are refused -/

namespace Roster

def number : DataType := .plain (.ofName "int32")

def point : TypeDecl := (TypeDecl.named "Point" (.value 4 4)).withField "x" number false

def scale : FunctionDecl := .method point.hash "Scale" [] .void

def weigh : FunctionDecl :=
  .conversion point.hash .explicit ⟨"p", .plain point.hash, .byValue⟩ number

/-- A type that cannot be declared, as two fields have one name. -/
def torn : TypeDecl :=
  ((TypeDecl.named "Torn" .reference).withField "x" number false).withField "x" number true

/-- A method that cannot be declared, as its owner is missing. -/
def stray : FunctionDecl := .method (.ofName "Missing") "Scale" [] .void

def requests : List Request :=
  [.array point.hash, .type point, .primitives, .type torn, .function scale,
  .function stray, .array point.hash, .function weigh]

theorem made_requests : ∀ q ∈ requests, q.Made := by
  simp only [requests, List.forall_mem_cons]
  exact ⟨trivial, .withField (.named _ _) _ _ _, trivial,
    .withField (.withField (.named _ _) _ _ _) _ _ _,
    .method _ _ _ _, .method _ _ _ _, trivial, .conversion _ _ _ _, by simp⟩

end Roster

/-- The point lists its method and its conversion, and declaring it once more changes nothing. -/
theorem Request.point_is_registered_once : (∀ q ∈ Roster.requests, q.Made) ∧
    ((registry Roster.requests).type? Roster.point.hash).map (fun t => (t.methods, t.operators)) =
      some ([Roster.scale.hash], [Roster.weigh.hash]) ∧
    (registry Roster.requests).Integral ∧
    (registry Roster.requests).after (.type Roster.point) = registry Roster.requests := by
  obtain ⟨hintegral, hrefused, -⟩ := registration_keeps_integrity Roster.made_requests
  refine ⟨Roster.made_requests, by decide +kernel, hintegral,
    hrefused _ (.duplicateType "Point") ?_⟩
  have hrefusal : (registry Roster.requests).typeRefusal? Roster.point =
    some (.duplicateType "Point") := by
    decide +kernel
  rw [Refuses, registerType, hrefusal]

end StackCode
