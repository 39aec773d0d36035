import StackCode.Proofs.Clean
import StackCode.Proofs.Layout

/-!
# Typed values and places

A value fits a reference type if it is null, a string where strings may stand, or a reference to an
object of a type that may stand there. It fits any other type if its members fit theirs. What is
read at a path of a value fits the type at the end of the path, and a value that fits there can be
put there.
-/

namespace StackCode

open List Value Option HeapObject

variable {H H' : Holdings} {v w : Value} {e : TypeHash} {k : Holding}

/-! ### Members -/

namespace Registry

/-- The declared type of a member: the elements of an array have one type, the fields of an instance
each their own. -/
def Member (r : Registry) (h : TypeHash) (index : UInt16) (t : TypeHash) : Prop :=
  r.arrayElement? h = some t ∨ ∃ f ∈ r.layout h, f.index = index ∧ f.type.hash = t

/-- The declared type at the end of a path. -/
inductive Path (r : Registry) : TypeHash → List UInt16 → TypeHash → Prop
  | nil {h} : Path r h [] h
  | cons {h index u path t} (hmember : r.Member h index u) (hpath : Path r u path t) : Path r h
    (index :: path) t

/-- Registries in which members fit into instances, built-in types and arrays are what they are
meant to be, and nothing is declared by reference. -/
structure Regular (r : Registry) : Prop where
  registered : r.Registered
  voidFree : r.VoidFree
  /-- `object` has neither base nor members. -/
  object : ∀ t, r.type? .object = some t → t.base = none ∧ t.instanceFields = [] ∧ ∀ e,
    t.kind ≠ .array e
  primitives : ∀ p : Primitive, r.isReferenceType p.hash = false
  /-- The hash of the array type over a registered type belongs to that type. -/
  arrayOf : ∀ e k, r.containsType e → r.kind? (.arrayOf e) = some k → k = .array e
  /-- Arrays have neither base nor fields. -/
  arrays : ∀ h t e, r.type? h = some t → t.kind = .array e → t.base = none ∧ t.instanceFields = []
  /-- Nothing is derived from an array. -/
  bases : ∀ h t b, r.type? h = some t → t.base = some b → r.arrayElement? b = none
  /-- Instances have no more members than there are numbers for them. -/
  few : ∀ h, r.instanceFieldCount h ≤ 65536
  fields : ∀ h f, r.fieldByHash? h = some f → f.type.isByRef = false
  params : ∀ h f, r.function? h = some f → ∀ p ∈ f.params, p.type.isByRef = false
  returns : ∀ h f, r.function? h = some f → f.returns.isByRef = false
  /-- Functions have no more slots than there are numbers for them. -/
  slots : ∀ h f, r.function? h = some f → f.stackArity ≤ 65536
  /-- What a constructor makes is a value or an instance on the heap. -/
  constructed : ∀ h f owner, r.function? h = some f → f.kind = .constructor → f.owner = some owner →
    r.isReferenceType owner → r.kind? owner = some .reference
  /-- A converting constructor is one of the target. -/
  converting : ∀ source target f, r.constructor? target [source] = some f → f.owner = some target

variable {r : Registry}

theorem arrayElement?_eq_some {h : TypeHash} :
    r.arrayElement? h = some e ↔ ∃ t, r.type? h = some t ∧ t.kind = .array e := by
  unfold arrayElement? kind?
  cases r.type? h with
  | none => simp
  | some t =>
    cases hkind : t.kind with
    | array e' => simp [hkind]
    | _ => simp [hkind]

theorem isReferenceType_of_array {h : TypeHash} (h' : r.arrayElement? h = some e) :
    r.isReferenceType h = true := by
  obtain ⟨t, ht, hkind⟩ := arrayElement?_eq_some.mp h'
  rw [isReferenceType_of_kind (k := .array e) (by rw [kind?, ht, map_some, hkind])]
  rfl

theorem mem_layout_of_mem_baseChain (hr : r.Founded) {h : TypeHash} {u : TypeDecl}
    (hu : u ∈ r.baseChain h) {f : FieldDecl} (hf : f ∈ r.layout u.hash) : f ∈ r.layout h := by
  obtain ⟨t, ht, hf⟩ := mem_layout.mp hf
  exact mem_layout.mpr ⟨t, (hr.mem_baseChain hu).2.mem ht, hf⟩

namespace Regular

section

variable (hr : r.Regular)
include hr

theorem founded : r.Founded := hr.registered.founded

theorem layout_of_array {h : TypeHash} (he : r.arrayElement? h = some e) : r.layout h = [] := by
  obtain ⟨t, ht, hkind⟩ := arrayElement?_eq_some.mp he
  obtain ⟨hbase, hfields⟩ := hr.arrays h t e ht hkind
  rw [hr.founded.layout_eq ht, hbase, hfields]
  rfl

theorem not_member_object {index : UInt16} {t : TypeHash} : ¬r.Member .object index t := by
  rintro (helem | ⟨f, hf, -⟩)
  · obtain ⟨u, hu, hkind⟩ := arrayElement?_eq_some.mp helem
    exact (hr.object u hu).2.2 t hkind
  · cases hu : r.type? .object with
    | none => simp [layout, baseChain_of_none hu] at hf
    | some u =>
      obtain ⟨hbase, hfields, -⟩ := hr.object u hu
      rw [hr.founded.layout_eq hu, hbase, hfields] at hf
      cases hf

theorem assignable_trans {a b c : TypeHash} (hab : r.assignable a b) (hbc : r.assignable b c) :
    r.assignable a c :=
  hr.founded.assignable_trans (fun t ht => (hr.object t ht).1) hab hbc

/-- Nothing but `object` is above `object`. -/
theorem eq_object {t : TypeHash} (h : r.assignable .object t) : t = .object := by
  rcases assignable_iff.mp h with rfl | ⟨-, -, rfl | ⟨u, hu, rfl⟩⟩
  · rfl
  · rfl
  · cases htype : r.type? .object with
    | none =>
      rw [baseChain_of_none htype] at hu
      cases hu
    | some w =>
      rw [hr.founded.baseChain_eq htype, (hr.object w htype).1] at hu
      rw [mem_singleton.mp hu]
      exact hr.founded.hash _ w htype

end

end Regular

theorem Member.unique (hr : r.Regular) {h t u : TypeHash} {index : UInt16}
    (ht : r.Member h index t) (hu : r.Member h index u) : t = u := by
  rcases ht with ht | ⟨f, hf, rfl, rfl⟩
  · rcases hu with hu | ⟨g, hg, -⟩
    · exact some.inj (ht.symm.trans hu)
    · rw [hr.layout_of_array ht] at hg
      cases hg
  · rcases hu with hu | ⟨g, hg, hidx, rfl⟩
    · rw [hr.layout_of_array hu] at hf
      cases hf
    · have hf := hr.founded.layout_getElem? (hr.few h) hf
      have hg := hr.founded.layout_getElem? (hr.few h) hg
      rw [hidx, hf] at hg
      rw [some.inj hg]

/-- A type has the members of the types it may stand for. -/
theorem Member.of_assignable (hr : r.Regular) {source target t : TypeHash} {index : UInt16}
    (hassign : r.assignable source target) (hmem : r.Member target index t) :
    r.Member source index t := by
  rcases assignable_iff.mp hassign with rfl | ⟨-, -, rfl | ⟨u, hu, rfl⟩⟩
  · exact hmem
  · exact absurd hmem hr.not_member_object
  · rcases hmem with helem | ⟨f, hf, hidx, htype⟩
    · rcases hr.founded.mem_baseChain_cases hu with heq | ⟨h', t', ht', hbase⟩
      · exact heq ▸ .inl helem
      · rw [hr.bases h' t' _ ht' hbase] at helem
        cases helem
    · exact .inr ⟨f, mem_layout_of_mem_baseChain hr.founded hu hf, hidx, htype⟩

theorem Path.snoc {h u t : TypeHash} {path : List UInt16} {index : UInt16} (hpath : r.Path h path u)
    (hmem : r.Member u index t) : r.Path h (path ++ [index]) t := by
  induction hpath with
  | nil => exact .cons hmem .nil
  | cons hfirst _ ih => exact .cons hfirst (ih hmem)

end Registry

/-! ### Objects -/

/-- What a heap object is: an instance that references refer to, or a cell for a value of its
type. -/
inductive Holding
  | instance (type : TypeHash)
  | cell (type : TypeHash)
  deriving DecidableEq, Repr

/-- The type of what an object holds. -/
def Holding.type : Holding → TypeHash
  | .instance h | .cell h => h

/-- What the objects of a heap are. -/
abbrev Holdings := ObjectId → Option Holding

/-- Objects stay what they are. -/
def Holdings.Grows (H H' : Holdings) : Prop := ∀ id k, H id = some k → H' id = some k

theorem Holdings.Grows.refl (H : Holdings) : H.Grows H := fun _ _ h => h

theorem Holdings.Grows.trans {H₁ H₂ H₃ : Holdings} (h : H₁.Grows H₂) (h' : H₂.Grows H₃) :
    H₁.Grows H₃ := fun id k hk => h' id k (h id k hk)

/-- Whether a value is an aggregate. -/
def Value.isAggregate : Value → Bool
  | .aggregate _ => true
  | _ => false

/-- An aggregate of a reference type is an instance. -/
def HeapObject.holding (r : Registry) (o : HeapObject) : Holding :=
  if r.isReferenceType o.type && o.value.isAggregate then .instance o.type else .cell o.type

/-- What the objects of the heap are. -/
def Heap.holdings (r : Registry) (heap : Heap) : Holdings :=
  fun id => heap.objects[id.number]?.map (HeapObject.holding r)

theorem HeapObject.type_holding (r : Registry) (o : HeapObject) : (o.holding r).type = o.type := by
  unfold holding
  split <;> rfl

/-! ### Values -/

namespace Registry

/-- A value of a type, where objects are what they are. -/
inductive Fits (r : Registry) (H : Holdings) : TypeHash → Value → Prop
  | held {h v} (hvalue : r.isReferenceType h = false) (hvoid : v ≠ .void)
      (hmembers : ∀ index t w, r.Member h index t → v.member index = .ok w → Fits r H t w) :
      Fits r H h v
  | null {h} (href : r.isReferenceType h = true) : Fits r H h .null
  | string {h s} (href : r.isReferenceType h = true) (hassignable : r.assignable .string h) :
      Fits r H h (.lit (.str s))
  | object {h id k} (href : r.isReferenceType h = true) (hid : H id = some k)
      (hassignable : h = .object ∨ r.assignable k.type h) : Fits r H h (.ref id)

/-- The members of a value fit those of a type. Arrays may have elements beyond those that can be
addressed. -/
structure Content (r : Registry) (H : Holdings) (h : TypeHash) (v : Value) : Prop where
  member : ∀ index t w, r.Member h index t → v.member index = .ok w → r.Fits H t w
  elements : ∀ e items, r.arrayElement? h = some e → v = .aggregate items → ∀ w ∈ items,
    r.Fits H e w

/-- What an object may hold: an instance its members, a cell a value of its type. -/
def Stored (r : Registry) (H : Holdings) : Holding → Value → Prop
  | .instance h, v => r.Content H h v
  | .cell h, v => r.Fits H h v

namespace Fits

variable {r : Registry} {h t : TypeHash}

theorem ne_void (hv : r.Fits H h v) : v ≠ .void := by
  cases hv with
  | held _ hvoid => exact hvoid
  | null | string | object => simp

theorem content (hv : r.Fits H h v) : r.Content H h v where
  member index t w hmem hw := by
    cases hv with
    | held _ _ hmembers => exact hmembers index t w hmem hw
    | null | string | object => cases hw
  elements e items he hitems := by
    subst hitems
    cases hv with
    | held hval =>
      rw [isReferenceType_of_array he] at hval
      cases hval

theorem mono (hgrows : H.Grows H') (hv : r.Fits H h v) : r.Fits H' h v := by
  induction hv with
  | held hval hvoid _ ih => exact .held hval hvoid ih
  | null href => exact .null href
  | string href hassign => exact .string href hassign
  | object href hid hassign => exact .object href (hgrows _ _ hid) hassign

/-- A value without members fits every type that is no reference type. -/
theorem scalar (hval : r.isReferenceType h = false) (hvoid : v ≠ .void)
    (hmem : ∀ index w, v.member index ≠ .ok w) : r.Fits H h v :=
  .held hval hvoid fun index _ w _ hw => absurd hw (hmem index w)

theorem lit (hval : r.isReferenceType h = false) (l : Literal) : r.Fits H h (.lit l) := by
  refine .scalar hval (by simp) fun index w hw => ?_
  cases l <;> cases hw

theorem null_any (h : TypeHash) : r.Fits H h .null := by
  cases href : r.isReferenceType h with
  | true => exact .null href
  | false => exact .lit href _

theorem ref {id : ObjectId} (hid : H id = some k) (hassign : h = .object ∨ r.assignable k.type h) :
    r.Fits H h (.ref id) := by
  cases href : r.isReferenceType h with
  | true => exact .object href hid hassign
  | false => exact .scalar href (by simp) fun _ _ hw => by cases hw

/-- A value that fits a type fits every type that the type may stand for. -/
theorem upcast (hr : r.Regular) (hv : r.Fits H h v) (hassign : r.assignable h t) :
    r.Fits H t v := by
  rcases assignable_iff.mp hassign with rfl | ⟨hsrc, htgt, -⟩
  · exact hv
  cases hv with
  | held hval =>
    rw [hsrc] at hval
    cases hval
  | null => exact .null htgt
  | string _ hstring => exact .string htgt (hr.assignable_trans hstring hassign)
  | object _ hid hobj =>
    refine .object htgt hid ?_
    rcases hobj with rfl | hobj
    · exact .inl (hr.eq_object hassign)
    · exact .inr (hr.assignable_trans hobj hassign)

theorem isAggregate (href : r.isReferenceType h = true) (hv : r.Fits H h v) :
    v.isAggregate = false := by
  cases hv with
  | held hval =>
    rw [href] at hval
    cases hval
  | null | string | object => rfl

end Fits

/-- An object with a value of its own type is a cell. -/
theorem Fits.holding {r : Registry} {h : TypeHash} (hv : r.Fits H h v) :
    holding r ⟨h, v⟩ = .cell h := by
  unfold HeapObject.holding
  split
  · rename_i hinst
    obtain ⟨href, hagg⟩ := Bool.and_eq_true_iff.mp hinst
    rw [hv.isAggregate href] at hagg
    cases hagg
  · rfl

theorem Content.mono {r : Registry} {h : TypeHash} (hgrows : H.Grows H') (hv : r.Content H h v) :
    r.Content H' h v where
  member index t w hmem hw := (hv.member index t w hmem hw).mono hgrows
  elements e items he hitems w hw := (hv.elements e items he hitems w hw).mono hgrows

theorem Stored.mono {r : Registry} (hgrows : H.Grows H') (hv : r.Stored H k v) :
    r.Stored H' k v := by
  cases k with
  | «instance» h => exact Content.mono hgrows hv
  | cell h => exact Fits.mono hgrows hv

theorem Stored.member {r : Registry} (hv : r.Stored H k v) {index : UInt16} {t : TypeHash}
    (hmem : r.Member k.type index t) (hw : v.member index = .ok w) :
    r.Fits H t w := by
  cases k with
  | «instance» h => exact Content.member hv index t w hmem hw
  | cell h => exact (Fits.content hv).member index t w hmem hw

/-! ### Parts of values -/

end Registry

namespace Value

theorem isAggregate_setMember (v new : Value) (index : UInt16) :
    (v.setMember index new).isAggregate = v.isAggregate := by
  cases v <;> rfl

theorem isAggregate_of_member {index : UInt16} (h : v.member index = .ok w) :
    v.isAggregate = true := by
  obtain ⟨items, rfl, -⟩ := member_eq_ok h
  rfl

end Value

namespace Registry

variable {r : Registry} {h t u : TypeHash} {new item : Value} {path : List UInt16} {index : UInt16}

theorem Fits.follow (hpath : r.Path h path t) (hv : r.Fits H h v) (hw : v.follow path = .ok w) :
    r.Fits H t w := by
  induction hpath generalizing v with
  | nil =>
    cases hw
    exact hv
  | cons hmem _ ih =>
    obtain ⟨item, hitem, hw⟩ := follow_cons hw
    exact ih (hv.content.member _ _ _ hmem hitem) hw

theorem Content.setMember (hr : r.Regular) (hv : r.Content H h v) (hmem : r.Member h index t)
    (hnew : r.Fits H t new) : r.Content H h (v.setMember index new) where
  member index' u w hu hw := by
    by_cases heq : index' = index
    · subst heq
      obtain ⟨items, hset, hitem⟩ := member_eq_ok hw
      cases v with
      | aggregate items =>
        cases hset
        have hlt := (List.getElem?_eq_some_iff.mp hitem).1
        rw [getElem?_set_self (by simpa using hlt)] at hitem
        cases hitem
        rwa [hu.unique hr hmem]
      | _ => cases hset
    · rw [member_setMember_ne v new heq] at hw
      exact hv.member index' u w hu hw
  elements e items he hitems w hw := by
    cases v with
    | aggregate items' =>
      cases hitems
      rcases mem_or_eq_of_mem_set hw with hw | rfl
      · exact hv.elements e items' he rfl w hw
      · rwa [Member.unique hr (.inl he) hmem]
    | _ => cases hitems

/-- Replacing the value at the end of a path by a value of the type there. -/
theorem Fits.replace (hr : r.Regular) (hpath : r.Path h path t) (hv : r.Fits H h v)
    (hnew : r.Fits H t new) (hw : replace new v path = .ok w) : r.Fits H h w := by
  induction hpath generalizing v w with
  | nil =>
    cases hw
    exact hnew
  | @cons h index u path t hmem _ ih =>
    obtain ⟨item, item', hitem, hrepl, rfl⟩ := replace_cons hw
    have hitem' := ih (hv.content.member _ _ _ hmem hitem) hnew hrepl
    have hcont := hv.content.setMember hr hmem hitem'
    obtain ⟨items, rfl, -⟩ := member_eq_ok hitem
    cases hv with
    | held hval => exact .held hval (by simp [setMember]) hcont.member

/-! ### Fresh values -/

/-- Members of an aggregate of defaults fit, if the fields stand at their positions. -/
theorem content_of_fields {fs : List FieldDecl} {default : TypeHash → Value}
    (hfs : ∀ f ∈ fs, fs[f.index.toNat]? = some f) (hlayout : r.layout h = fs)
    (harray : r.arrayElement? h = none) (hdef : ∀ f ∈ fs,
      r.Fits H f.type.hash (default f.type.hash)) :
    r.Content H h (.aggregate (fs.map fun f => default f.type.hash)) where
  member index t w hmem hw := by
    rcases hmem with helem | ⟨f, hf, rfl, rfl⟩
    · rw [harray] at helem
      cases helem
    · rw [hlayout] at hf
      obtain ⟨items, hitems, hw⟩ := member_eq_ok hw
      cases hitems
      rw [getElem?_map, hfs f hf, map_some] at hw
      cases hw
      exact hdef f hf
  elements e items he := by
    rw [harray] at he
    cases he

namespace Regular

theorem fits_defaultWithin (hr : r.Regular) (depth : Nat) {h : TypeHash} (hvoid : h ≠ .void) :
    r.Fits H h (r.defaultWithin depth h) := by
  induction depth generalizing h with
  | zero => exact .null_any h
  | succ depth ih =>
    have hclean := hr.voidFree.clean_defaultWithin (depth + 1) hvoid
    unfold defaultWithin at hclean ⊢
    cases ht : r.type? h with
    | none => exact .null_any h
    | some t =>
      rw [ht] at hclean
      dsimp only at hclean ⊢
      have hkind? : r.kind? h = some t.kind := by rw [kind?, ht, map_some]
      have href := isReferenceType_of_kind hkind?
      cases hkind : t.kind with
      | primitive p =>
        rw [hkind] at hclean href
        cases p with
        | void => cases hclean
        | bool | int _ | float _ => exact .lit href _
      | value size align =>
        rw [hkind] at href
        have hval : t.kind.isValueType := by rw [hkind]; rfl
        have hlayout := hr.founded.layout_of_value ht hval
        dsimp only
        rw [hr.founded.inOrder_instanceFields ht hval (hr.few h)]
        refine .held href (by simp) (content_of_fields ?_ hlayout ?_ fun f hf => ?_).member
        · rw [← hlayout]
          exact fun f hf => hr.founded.layout_getElem? (hr.few h) hf
        · simp [arrayElement?, hkind?, hkind]
        · exact ih (hr.voidFree.members h t ht f (mem_filter.mp hf).1)
      | reference | object | array _ => exact .null_any h

theorem fits_defaultValue (hr : r.Regular) {h : TypeHash} (hvoid : h ≠ .void) :
    r.Fits H h (r.defaultValue h) :=
  hr.fits_defaultWithin _ hvoid

theorem content_objectLayout (hr : r.Regular) {h : TypeHash} (hkind : r.kind? h = some .reference) :
    r.Content H h (Exec.objectLayout r h) := by
  unfold Exec.objectLayout
  dsimp only
  rw [hr.founded.inOrder_baseChain (hr.few h)]
  refine content_of_fields (fun f hf => hr.founded.layout_getElem? (hr.few h) hf) rfl ?_
    fun f hf => hr.fits_defaultValue ?_
  · simp [arrayElement?, hkind]
  · obtain ⟨t, ht, hf⟩ := mem_layout.mp hf
    exact hr.voidFree.members t.hash t (hr.founded.mem_baseChain ht).1 f (mem_filter.mp hf).1

/-- The elements of a fresh array fit. The element type may be unknown; its default is null then,
which fits everywhere. -/
theorem stored_replicate (hr : r.Regular) (hvoid : e ≠ .void) (n : Nat) :
    r.Stored H (holding r ⟨.arrayOf e, .aggregate (List.replicate n (r.defaultValue e))⟩)
      (.aggregate (List.replicate n (r.defaultValue e))) := by
  have hmem : ∀ index w, (aggregate (List.replicate n (r.defaultValue e))).member index = .ok w →
      w = r.defaultValue e := by
    intro index w hw
    obtain ⟨items, hitems, hw⟩ := member_eq_ok hw
    cases hitems
    exact eq_of_mem_replicate (mem_of_getElem? hw)
  have hfits : ∀ t, (r.arrayElement? (.arrayOf e) = some t ∨ ∃ index,
    r.Member (.arrayOf e) index t) →
      r.Fits H t (r.defaultValue e) := by
    intro t ht
    cases hknown : r.type? e with
    | none =>
      have hnull : r.defaultValue e = .null := by
        rw [defaultValue, defaultWithin, hknown]
      rw [hnull]
      exact .null_any t
    | some u =>
      have hcontains : r.containsType e := by
        show r.types.contains e = true
        rw [Std.TreeMap.contains_eq_isSome_getElem?]
        exact isSome_iff_exists.mpr ⟨u, hknown⟩
      have helem : r.arrayElement? (.arrayOf e) = some t → t = e := by
        intro helem
        obtain ⟨w, hw, hkind⟩ := arrayElement?_eq_some.mp helem
        have hsame := hr.arrayOf e w.kind hcontains (by rw [kind?, hw, map_some])
        rw [hkind] at hsame
        exact TypeKind.array.inj hsame
      have htype : t = e := by
        rcases ht with ht | ⟨index, ht | ⟨f, hf, -⟩⟩
        · exact helem ht
        · exact helem ht
        · obtain ⟨w, hw⟩ : ∃ w, r.type? (.arrayOf e) = some w := by
            cases hw : r.type? (.arrayOf e) with
            | none => simp [layout, baseChain_of_none hw] at hf
            | some w => exact ⟨w, rfl⟩
          have hkind := hr.arrayOf e w.kind hcontains (by rw [kind?, hw, map_some])
          rw [hr.layout_of_array (arrayElement?_eq_some.mpr ⟨w, hw, hkind⟩)] at hf
          cases hf
      rw [htype]
      exact hr.fits_defaultValue hvoid
  unfold holding
  split
  · refine ⟨fun index t w ht hw => ?_, fun t items ht hitems w hw => ?_⟩
    · rw [hmem index w hw]
      exact hfits t (.inr ⟨index, ht⟩)
    · cases hitems
      rw [eq_of_mem_replicate hw]
      exact hfits t (.inl ht)
  · rename_i hcell
    have href : r.isReferenceType (.arrayOf e) = false := by simpa [Value.isAggregate] using hcell
    refine .held href (by simp) fun index t w ht hw => ?_
    rw [hmem index w hw]
    exact hfits t (.inr ⟨index, ht⟩)

end Regular

end Registry

end StackCode
