import StackCode.Machine.Run

/-!
# Clean values

A value is clean if `void` does not occur in it, at any depth. Where no member has the type `void`,
fresh slots and instances are clean, and what is read at a path of a clean value, or written there,
keeps it clean. Only a slot for addresses may hold nothing.
-/

namespace StackCode

open List

variable {item v w new : Value} {index : UInt16} {path : List UInt16} {h : TypeHash} {t : DataType}

/-- Values in which `void` does not occur. -/
inductive Value.Clean : Value → Prop
  | lit (l : Literal) : Clean (.lit l)
  | ref (id : ObjectId) : Clean (.ref id)
  | address (a : Address) : Clean (.address a)
  | aggregate {items : List Value} (h : ∀ v ∈ items, Clean v) : Clean (.aggregate items)

/-- What a slot or an operand may hold: a clean value, or perhaps nothing. -/
inductive Kind
  | clean
  | loose
  deriving DecidableEq, Repr

namespace Kind

/-- The values of a kind. -/
def Fits : Kind → Value → Prop
  | .clean, v => v.Clean
  | .loose, v => v = .void ∨ v.Clean

instance : LE Kind where
  le a b := b = .clean → a = .clean

theorem le_refl (k : Kind) : k ≤ k := fun h => h

theorem le_trans {a b c : Kind} (h : a ≤ b) (h' : b ≤ c) : a ≤ c := fun hc => h (h' hc)

theorem clean_le (k : Kind) : .clean ≤ k := fun _ => rfl

theorem le_loose (k : Kind) : k ≤ .loose := nofun

theorem Fits.mono {a b : Kind} (h : a ≤ b) (hv : a.Fits v) : b.Fits v := by
  cases b with
  | clean =>
    rwa [h rfl] at hv
  | loose =>
    cases a with
    | clean => exact .inr hv
    | loose => exact hv

theorem fits_of_clean (k : Kind) (h : v.Clean) : k.Fits v := Fits.mono (clean_le k) h

theorem Fits.loose {k : Kind} (h : k.Fits v) : Kind.loose.Fits v := h.mono (le_loose k)

end Kind

namespace Value

theorem Clean.ne_void (h : v.Clean) : v ≠ .void := by
  rintro rfl
  cases h

theorem Clean.isVoid (h : v.Clean) : v.isVoid = false := by
  cases h <;> rfl

theorem member_eq_ok (h : v.member index = .ok item) :
    ∃ items, v = .aggregate items ∧ items[index.toNat]? = some item := by
  unfold member at h
  split at h
  · split at h
    · cases h
      exact ⟨_, rfl, ‹_›⟩
    · cases h
  · cases h
  · cases h

theorem member_setMember (h : v.member index = .ok item) (new : Value) :
    (v.setMember index new).member index = .ok new := by
  obtain ⟨items, rfl, hitem⟩ := member_eq_ok h
  have hlt := (List.getElem?_eq_some_iff.mp hitem).1
  simp [setMember, member, hlt]

theorem member_setMember_ne (v new : Value) {index' : UInt16} (hne : index' ≠ index) :
    (v.setMember index new).member index' = v.member index' := by
  have hne : index.toNat ≠ index'.toNat := fun heq => hne (UInt16.toNat_inj.mp heq).symm
  cases v with
  | aggregate items => simp [setMember, member, getElem?_set_ne hne]
  | _ => rfl

theorem follow_cons (h : v.follow (index :: path) = .ok w) :
    ∃ item, v.member index = .ok item ∧ item.follow path = .ok w := by
  unfold follow at h
  cases hitem : v.member index with
  | error e =>
    rw [hitem] at h
    cases h
  | ok item =>
    rw [hitem] at h
    exact ⟨item, rfl, h⟩

theorem replace_cons (h : replace new v (index :: path) = .ok w) :
    ∃ item item', v.member index = .ok item ∧ replace new item path = .ok item' ∧
      w = v.setMember index item' := by
  unfold replace at h
  cases hitem : v.member index with
  | error e =>
    rw [hitem] at h
    cases h
  | ok item =>
    rw [hitem] at h
    dsimp only at h
    cases hrepl : replace new item path with
    | error e =>
      rw [hrepl] at h
      cases h
    | ok item' =>
      rw [hrepl] at h
      cases h
      exact ⟨item, item', rfl, hrepl, rfl⟩

theorem clean_member (hv : Kind.loose.Fits v) (h : v.member index = .ok item) : item.Clean := by
  obtain ⟨items, rfl, hitem⟩ := member_eq_ok h
  rcases hv with hv | hv
  · cases hv
  · cases hv with
    | aggregate hitems => exact hitems _ (mem_of_getElem? hitem)

/-- What is found at the end of a path is of the kind of what it starts from. -/
theorem fits_follow {k : Kind} (hv : k.Fits v) (h : v.follow path = .ok w) : k.Fits w := by
  induction path generalizing v with
  | nil =>
    cases h
    exact hv
  | cons index path ih =>
    obtain ⟨item, hitem, h⟩ := follow_cons h
    exact ih (k.fits_of_clean (clean_member hv.loose hitem)) h

theorem clean_setMember (hv : v.Clean) (hitem : item.Clean) : (v.setMember index item).Clean := by
  cases hv with
  | aggregate hitems =>
    refine .aggregate fun w hw => ?_
    rcases mem_or_eq_of_mem_set hw with hw | rfl
    · exact hitems w hw
    · exact hitem
  | _ => constructor

/-- Replacing a part of a value by a clean value leaves a clean value. -/
theorem clean_replace (hnew : new.Clean) (hv : Kind.loose.Fits v) (h : replace new v path = .ok w) :
    w.Clean := by
  induction path generalizing v w with
  | nil =>
    cases h
    exact hnew
  | cons index path ih =>
    obtain ⟨item, item', hitem, hrepl, rfl⟩ := replace_cons h
    have hclean : v.Clean := by
      refine hv.resolve_left ?_
      rintro rfl
      cases hitem
    exact clean_setMember hclean (ih (.inr (clean_member hv hitem)) hrepl)

end Value

/-! ### Declarations without `void` -/

/-- Nothing but the result of a function has the type `void`. -/
structure Registry.VoidFree (r : Registry) : Prop where
  /-- Only `void` itself is without values. -/
  only : ∀ h, r.kind? h = some (.primitive .void) → h = .void
  members : ∀ h t, r.type? h = some t → ∀ f ∈ t.fields, f.type.hash ≠ .void
  fields : ∀ h f, r.fieldByHash? h = some f → f.type.hash ≠ .void
  constructed : ∀ h f, r.function? h = some f → f.kind = .constructor → f.owner ≠ some .void

namespace Registry

variable {r : Registry}

theorem VoidFree.clean_defaultWithin (hr : r.VoidFree) (depth : Nat) (hvoid : h ≠ .void) :
    (r.defaultWithin depth h).Clean := by
  induction depth generalizing h with
  | zero => exact .lit _
  | succ depth ih =>
    unfold defaultWithin
    cases ht : r.type? h with
    | none => exact .lit _
    | some t =>
      dsimp only
      cases hkind : t.kind with
      | primitive p =>
        have hp : p ≠ .void := by
          rintro rfl
          exact hvoid (hr.only h (by rw [kind?, ht, Option.map_some, hkind]))
        cases p with
        | void => exact absurd rfl hp
        | bool | int _ | float _ => exact .lit _
      | value size align =>
        refine .aggregate fun v hv => ?_
        obtain ⟨f, hf, rfl⟩ := mem_map.mp hv
        exact ih (hr.members h t ht f (mem_filter.mp (mem_inOrder.mp hf)).1)
      | reference | object | array _ => exact .lit _

theorem VoidFree.clean_defaultValue (hr : r.VoidFree) (hvoid : h ≠ .void) :
    (r.defaultValue h).Clean :=
  hr.clean_defaultWithin _ hvoid

/-- The types in a chain of bases are registered. -/
theorem exists_of_mem_chainFrom {fuel : Nat} {t : TypeDecl} (ht : t ∈ r.chainFrom fuel h) :
    ∃ h', r.type? h' = some t := by
  induction fuel generalizing h with
  | zero => cases ht
  | succ fuel ih =>
    unfold chainFrom at ht
    cases hfound : r.type? h with
    | none =>
      rw [hfound] at ht
      cases ht
    | some u =>
      rw [hfound] at ht
      rcases mem_cons.mp ht with rfl | ht
      · exact ⟨h, hfound⟩
      · cases hbase : u.base with
        | none =>
          rw [hbase] at ht
          cases ht
        | some base =>
          rw [hbase] at ht
          exact ih ht

theorem VoidFree.clean_objectLayout (hr : r.VoidFree) (h : TypeHash) :
    (Exec.objectLayout r h).Clean := by
  refine .aggregate fun v hv => ?_
  obtain ⟨f, hf, rfl⟩ := mem_map.mp hv
  obtain ⟨t, ht, hf⟩ := mem_flatMap.mp (mem_inOrder.mp hf)
  obtain ⟨h', hfound⟩ := exists_of_mem_chainFrom ht
  exact hr.clean_defaultValue (hr.members h' t hfound f (mem_filter.mp hf).1)

end Registry

/-- What a slot of a type may hold: a slot for addresses holds nothing at first. -/
def DataType.kind (t : DataType) : Kind := if t.isByRef then .loose else .clean

theorem DataType.kind_of_plain (h : t.isByRef = false) : t.kind = .clean := by
  simp [kind, h]

theorem DataType.kind_of_byRef (h : t.isByRef = true) : t.kind = .loose := by
  simp [kind, h]

/-! ### Storage -/

/-- All objects hold clean values. -/
def Heap.Clean (h : Heap) : Prop := ∀ o ∈ h.objects, o.value.Clean

theorem Heap.clean_empty : Heap.empty.Clean := by simp [Heap.Clean, Heap.empty]

/-- Heap, static fields and captured values are clean. -/
structure State.Clean (s : State) : Prop where
  heap : s.heap.Clean
  statics : ∀ (h : TypeHash) (v : Value), s.statics[h]? = some v → v.Clean
  captured : ∀ (h : TypeHash) (vs : Array Value), s.captured[h]? = some vs → ∀ v ∈ vs, v.Clean

theorem State.clean_initial : State.initial.Clean :=
  ⟨Heap.clean_empty, by simp [State.initial], by simp [State.initial]⟩

/-- Faults that have nothing to do with the operand stack or the form of the code. -/
def Fault.Benign : Fault → Prop
  | .stackUnderflow _ | .invalidBytecode _ => False
  | _ => True

/-- Faults that have to do with values, objects and calls, and neither with the form of code nor
with places that are not there. -/
def Fault.Ordinary : Fault → Prop
  | .stackUnderflow _ | .invalidAddress _ | .unknownField _ | .invalidBytecode _ | .native _ =>
    False
  | _ => True

theorem Fault.Ordinary.benign {e : Fault} (h : e.Ordinary) : e.Benign := by
  cases e <;> trivial

end StackCode
