import Mathlib.Data.List.Sort
import StackCode.Proofs.Registered

/-!
# Bases and layouts

A base is registered before the types derived from it, so chains of bases end, and the chain of a
base is the end of the chain of every type derived from it. The instance fields along a chain are
numbered on from the outermost base. So a field has one position in the instances of its type and of
all types derived from it.
-/

namespace StackCode

open List Option UInt16 TypeDecl FieldDecl Nat

variable {t u : TypeDecl} {h : TypeHash} {rank : TypeHash → Nat} {f : FieldDecl}

/-- Two declarations that differ in their functions at most. -/
structure TypeDecl.Agrees (t u : TypeDecl) : Prop where
  hash : u.hash = t.hash
  kind : u.kind = t.kind
  base : u.base = t.base
  fields : u.fields = t.fields

theorem TypeDecl.Agrees.refl (t : TypeDecl) : t.Agrees t := ⟨rfl, rfl, rfl, rfl⟩

theorem TypeDecl.Agrees.instanceFields (h : t.Agrees u) : u.instanceFields = t.instanceFields := by
  rw [TypeDecl.instanceFields, TypeDecl.instanceFields, h.fields]

theorem TypeDecl.Grows.agrees (h : t.Grows u) : t.Agrees u := by
  rw [h.same]
  exact ⟨rfl, rfl, rfl, rfl⟩

namespace Registry

variable {r r' : Registry} {T : TypeDecl → Prop} {F : FunctionDecl → Prop}

/-- The numbers of the instance fields of a type follow those of its base. -/
def Numbered (r : Registry) (t : TypeDecl) : Prop :=
  t.instanceFields.map FieldDecl.index =
    (List.range' ((t.base.map r.instanceFieldCount).getD 0)
      t.instanceFields.length).map UInt16.ofNat

/-- Every type has a rank above that of its base, and there are more types than ranks below it. -/
def Ranks (r : Registry) (rank : TypeHash → Nat) : Prop :=
  ∀ h t, r.type? h = some t → rank h < r.types.size ∧
    ∀ b, t.base = some b → (∃ u, r.type? b = some u) ∧ rank b < rank h

/-- Types stand under their hashes, bases come first, and instance fields are numbered on. -/
structure Founded (r : Registry) : Prop where
  hash : ∀ h t, r.type? h = some t → t.hash = h
  ranked : ∃ rank, r.Ranks rank
  numbered : ∀ h t, r.type? h = some t → r.Numbered t
  values : ∀ h t, r.type? h = some t → t.kind.isValueType → t.base = none

/-! ### Chains of bases -/

theorem chainFrom_of_none (hnone : r.type? h = none) (fuel : Nat) : r.chainFrom fuel h = [] := by
  cases fuel with
  | zero => rfl
  | succ fuel => rw [chainFrom, hnone]

theorem chainFrom_of_some (ht : r.type? h = some t) (fuel : Nat) :
    r.chainFrom (fuel + 1) h = t :: (t.base.map (r.chainFrom fuel)).getD [] := by
  rw [chainFrom, ht]
  cases hbase : t.base with
  | none => simp [hbase]
  | some b => simp [hbase]

/-- A chain does not depend on how far one looks, if one looks far enough. -/
theorem Ranks.chainFrom_eq (hrank : r.Ranks rank) {n k : Nat} (hn : rank h < n) (hk : rank h < k) :
    r.chainFrom n h = r.chainFrom k h := by
  induction n generalizing h k with
  | zero => omega
  | succ n ih =>
    obtain ⟨k, rfl⟩ : ∃ k', k = k' + 1 := ⟨k - 1, by omega⟩
    cases ht : r.type? h with
    | none => rw [chainFrom_of_none ht, chainFrom_of_none ht]
    | some t =>
      rw [chainFrom_of_some ht, chainFrom_of_some ht]
      cases hbase : t.base with
      | none => rfl
      | some b =>
        have hlower := ((hrank h t ht).2 b hbase).2
        rw [map_some, map_some, ih (h := b) (k := k) (by omega) (by omega)]

theorem Founded.baseChain_eq (hr : r.Founded) (ht : r.type? h = some t) :
    r.baseChain h = t :: (t.base.map r.baseChain).getD [] := by
  obtain ⟨rank, hrank⟩ := hr.ranked
  have hlt := (hrank h t ht).1
  obtain ⟨n, hn⟩ : ∃ n, r.types.size = n + 1 := ⟨r.types.size - 1, by omega⟩
  rw [baseChain, hn, chainFrom_of_some ht]
  cases hbase : t.base with
  | none => rfl
  | some b =>
    have hlower := ((hrank h t ht).2 b hbase).2
    rw [map_some, map_some, baseChain, hrank.chainFrom_eq (k := r.types.size) (by omega) (by omega)]

theorem baseChain_of_none (hnone : r.type? h = none) : r.baseChain h = [] :=
  chainFrom_of_none hnone _

/-- Induction along the bases of registered types. -/
theorem Founded.induction (hr : r.Founded) {motive : TypeHash → Prop}
    (step : ∀ h t, r.type? h = some t → (∀ b, t.base = some b → motive b) → motive h) :
    ∀ h t, r.type? h = some t → motive h := by
  obtain ⟨rank, hrank⟩ := hr.ranked
  suffices hall : ∀ n h t, rank h < n → r.type? h = some t → motive h from
    fun h t ht => hall (rank h + 1) h t (lt_succ_self _) ht
  intro n
  induction n with
  | zero => intro h t hlt; omega
  | succ n ih =>
    intro h t hlt ht
    refine step h t ht fun b hb => ?_
    obtain ⟨⟨u, hu⟩, hlower⟩ := (hrank h t ht).2 b hb
    exact ih b u (by omega) hu

/-- The members of a chain are registered, and their chains are ends of the chain. -/
theorem Founded.mem_baseChain (hr : r.Founded) (hu : u ∈ r.baseChain h) :
    r.type? u.hash = some u ∧ r.baseChain u.hash <:+ r.baseChain h := by
  cases ht : r.type? h with
  | none =>
    rw [baseChain_of_none ht] at hu
    cases hu
  | some t =>
    refine hr.induction (motive := fun h => u ∈ r.baseChain h →
      r.type? u.hash = some u ∧ r.baseChain u.hash <:+ r.baseChain h) ?_ h t ht hu
    intro h t ht ih hu
    have hchain := hr.baseChain_eq ht
    rw [hchain] at hu
    rcases mem_cons.mp hu with rfl | hu
    · rw [hr.hash h u ht]
      exact ⟨ht, suffix_refl _⟩
    · cases hbase : t.base with
      | none =>
        rw [hbase] at hu
        cases hu
      | some b =>
        rw [hbase] at hu hchain
        obtain ⟨hfound, hsuffix⟩ := ih b hbase hu
        refine ⟨hfound, hsuffix.trans ?_⟩
        rw [hchain]
        exact suffix_cons ..

/-- A type that stands in the chain of another is that type, or the base of some type. -/
theorem Founded.mem_baseChain_cases (hr : r.Founded) (hu : u ∈ r.baseChain h) :
    u.hash = h ∨ ∃ h' t, r.type? h' = some t ∧ t.base = some u.hash := by
  cases ht : r.type? h with
  | none =>
    rw [baseChain_of_none ht] at hu
    cases hu
  | some t =>
    refine hr.induction (motive := fun h => u ∈ r.baseChain h →
      u.hash = h ∨ ∃ h' t, r.type? h' = some t ∧ t.base = some u.hash) ?_ h t ht hu
    intro h t ht ih hu
    rw [hr.baseChain_eq ht] at hu
    rcases mem_cons.mp hu with rfl | hu
    · exact .inl (hr.hash h u ht)
    · cases hbase : t.base with
      | none =>
        rw [hbase] at hu
        cases hu
      | some b =>
        rw [hbase] at hu
        rcases ih b hbase hu with heq | hbelow
        · exact .inr ⟨h, t, ht, by rw [hbase, heq]⟩
        · exact .inr hbelow

/-! ### Assignability -/

theorem assignable_iff {source target : TypeHash} : r.assignable source target ↔ source = target ∨
    (r.isReferenceType source ∧ r.isReferenceType target ∧
      (target = .object ∨ ∃ u ∈ r.baseChain source, u.hash = target)) := by
  simp [assignable, and_assoc]

theorem assignable_refl (h : TypeHash) : r.assignable h h := assignable_iff.mpr (.inl rfl)

/-- Assignments can be chained, if `object` has no base. -/
theorem Founded.assignable_trans (hr : r.Founded)
    (hobj : ∀ t, r.type? .object = some t → t.base = none) {a b c : TypeHash}
    (hab : r.assignable a b) (hbc : r.assignable b c) : r.assignable a c := by
  rcases assignable_iff.mp hab with rfl | ⟨ha, hb, hab⟩
  · exact hbc
  rcases assignable_iff.mp hbc with rfl | ⟨-, hc, hbc⟩
  · exact assignable_iff.mpr (.inr ⟨ha, hb, hab⟩)
  refine assignable_iff.mpr (.inr ⟨ha, hc, ?_⟩)
  rcases hbc with rfl | ⟨u, hu, rfl⟩
  · exact .inl rfl
  rcases hab with rfl | ⟨t, ht, rfl⟩
  · -- The chain of `object` is `object` alone.
    cases htype : r.type? .object with
    | none =>
      rw [baseChain_of_none htype] at hu
      cases hu
    | some t =>
      rw [hr.baseChain_eq htype, hobj t htype] at hu
      rw [mem_singleton.mp hu]
      exact .inl (hr.hash _ t htype)
  · exact .inr ⟨u, (hr.mem_baseChain ht).2.mem hu, rfl⟩

/-! ### Layouts -/

/-- The instance fields of a type, those of its outermost base first. -/
def layout (r : Registry) (h : TypeHash) : List FieldDecl :=
  (r.baseChain h).reverse.flatMap TypeDecl.instanceFields

theorem layout_perm (r : Registry) (h : TypeHash) :
    (r.layout h).Perm ((r.baseChain h).flatMap instanceFields) :=
  (reverse_perm _).flatMap_right _

theorem mem_layout : f ∈ r.layout h ↔ ∃ t ∈ r.baseChain h, f ∈ t.instanceFields := by
  rw [(r.layout_perm h).mem_iff, mem_flatMap]

theorem length_layout (r : Registry) (h : TypeHash) :
    (r.layout h).length = r.instanceFieldCount h :=
  (r.layout_perm h).length_eq

theorem Founded.layout_eq (hr : r.Founded) (ht : r.type? h = some t) :
    r.layout h = (t.base.map r.layout).getD [] ++ t.instanceFields := by
  rw [layout, hr.baseChain_eq ht]
  cases hbase : t.base with
  | none => simp
  | some b => simp [layout]

theorem Founded.layout_of_value (hr : r.Founded) (ht : r.type? h = some t)
    (hval : t.kind.isValueType) :
    r.layout h = t.instanceFields := by
  rw [hr.layout_eq ht, hr.values h t ht hval]
  rfl

/-- The instance fields of a type are numbered in the order of its layout. -/
theorem Founded.index_layout (hr : r.Founded) (h : TypeHash) :
    (r.layout h).map index = (List.range (r.layout h).length).map ofNat := by
  cases ht : r.type? h with
  | none => simp [layout, baseChain_of_none ht]
  | some t =>
    refine hr.induction (motive := fun h => (r.layout h).map index =
      (List.range (r.layout h).length).map ofNat) ?_ h t ht
    intro h t ht ih
    have hnum := hr.numbered h t ht
    rw [Numbered] at hnum
    rw [hr.layout_eq ht, map_append, hnum, length_append]
    cases hbase : t.base with
    | none => simp [range_eq_range']
    | some b =>
      rw [map_some, map_some, getD_some, getD_some, ih b hbase,
        ← r.length_layout b, ← map_append, range_eq_range', range_eq_range',
        ← range'_append_1, Nat.zero_add]

/-- Numbered on from zero, a list of fields holds every field at its own position. -/
theorem getElem?_of_index {fs : List FieldDecl} (hfew : fs.length ≤ 65536)
    (hidx : fs.map index = (List.range fs.length).map ofNat) (hf : f ∈ fs) :
    fs[f.index.toNat]? = some f := by
  obtain ⟨n, hn⟩ := List.getElem?_of_mem hf
  have hlt := (List.getElem?_eq_some_iff.mp hn).1
  have hnum := congrArg (fun l => l[n]?) hidx
  simp only [List.getElem?_map, hn, Option.map_some, List.getElem?_range hlt] at hnum
  rwa [Option.some.inj hnum, toNat_ofNat', mod_eq_of_lt (by omega)]

/-- A field of a type stands in the layout of the type at its own position. -/
theorem Founded.layout_getElem? (hr : r.Founded) (hfew : r.instanceFieldCount h ≤ 65536)
    (hf : f ∈ r.layout h) : (r.layout h)[f.index.toNat]? = some f :=
  getElem?_of_index (by rwa [length_layout]) (hr.index_layout h) hf

/-- Sorted by their positions, the instance fields of a type are its layout. -/
theorem Founded.inOrder_baseChain (hr : r.Founded) (hfew : r.instanceFieldCount h ≤ 65536) :
    inOrder ((r.baseChain h).flatMap instanceFields) = r.layout h := by
  have hpositions : (r.layout h).Pairwise fun a b => a.index < b.index := by
    rw [← pairwise_map (f := index) (R := (· < ·)), hr.index_layout h, pairwise_map]
    refine pairwise_lt_range.imp_of_mem fun ha hb hlt => ?_
    rw [length_layout] at ha hb
    rw [lt_iff_toNat_lt, toNat_ofNat', toNat_ofNat',
      mod_eq_of_lt (by have := mem_range.mp ha; omega),
      mod_eq_of_lt (by have := mem_range.mp hb; omega)]
    exact hlt
  have hperm := (mergeSort_perm ((r.baseChain h).flatMap instanceFields)
    fun a b => decide (a.index ≤ b.index)).trans (r.layout_perm h).symm
  have hsorted : (inOrder ((r.baseChain h).flatMap instanceFields)).Pairwise
      fun a b => decide (a.index ≤ b.index) :=
    pairwise_mergeSort (fun a b c => by simpa using fun hab hbc => UInt16.le_trans hab hbc)
      (fun a b => by simpa using UInt16.le_total a.index b.index) _
  refine hperm.eq_of_pairwise ?_ hsorted ?_
  · -- Two fields of the layout with one position are one field.
    intro a b ha hb hab hba
    have ha := hr.layout_getElem? hfew (hperm.mem_iff.mp ha)
    have hb := hr.layout_getElem? hfew hb
    rw [UInt16.le_antisymm (of_decide_eq_true hab) (of_decide_eq_true hba), hb] at ha
    exact (Option.some.inj ha).symm
  · exact hpositions.imp fun hab => decide_eq_true (UInt16.le_of_lt hab)

/-- The fields of a value type are declared in the order of their positions, if these do not run
over. -/
theorem Founded.inOrder_instanceFields (hr : r.Founded) (ht : r.type? h = some t)
    (hval : t.kind.isValueType) (hfew : r.instanceFieldCount h ≤ 65536) :
    inOrder t.instanceFields = t.instanceFields := by
  have hchain : (r.baseChain h).flatMap instanceFields = t.instanceFields := by
    rw [hr.baseChain_eq ht, hr.values h t ht hval]
    simp
  rw [← hchain, hr.inOrder_baseChain hfew, hr.layout_of_value ht hval, hchain]

/-! ### Registration -/

/-- What a registry knows of a type is known after more has been registered. -/
def Extends (r r' : Registry) : Prop :=
  ∀ h t, r.type? h = some t → ∃ u, r'.type? h = some u ∧ t.Agrees u

theorem Extends.chainFrom (hext : r.Extends r') (hrank : r.Ranks rank) (fuel : Nat)
    (ht : r.type? h = some t) :
    Forall₂ TypeDecl.Agrees (r.chainFrom fuel h) (r'.chainFrom fuel h) := by
  induction fuel generalizing h t with
  | zero => exact .nil
  | succ fuel ih =>
    obtain ⟨u, hu, hagrees⟩ := hext h t ht
    rw [chainFrom_of_some ht, chainFrom_of_some hu, hagrees.base]
    refine .cons hagrees ?_
    cases hbase : t.base with
    | none => exact .nil
    | some b =>
      obtain ⟨⟨w, hw⟩, -⟩ := (hrank h t ht).2 b hbase
      exact ih hw

theorem flatMap_instanceFields_of_agrees {ts us : List TypeDecl}
    (h : Forall₂ TypeDecl.Agrees ts us) :
    us.flatMap instanceFields = ts.flatMap instanceFields := by
  induction h with
  | nil => rfl
  | cons hagrees _ ih => rw [flatMap_cons, flatMap_cons, hagrees.instanceFields, ih]

/-- Later registrations do not change the number of fields of a type. -/
theorem Extends.instanceFieldCount (hext : r.Extends r') (hrank : r.Ranks rank)
    (hsize : r.types.size ≤ r'.types.size) (ht : r.type? h = some t) :
    r'.instanceFieldCount h = r.instanceFieldCount h := by
  have hlt := (hrank h t ht).1
  have hchain : r.baseChain h = r.chainFrom r'.types.size h :=
    hrank.chainFrom_eq hlt (lt_of_lt_of_le hlt hsize)
  rw [Registry.instanceFieldCount, Registry.instanceFieldCount, hchain, baseChain,
    flatMap_instanceFields_of_agrees (hext.chainFrom hrank _ ht)]

theorem Numbered.congr (hnum : r.Numbered t) (hagrees : t.Agrees u)
    (hcount : ∀ b, t.base = some b → r'.instanceFieldCount b = r.instanceFieldCount b) :
    r'.Numbered u := by
  rw [Numbered, hagrees.instanceFields, hagrees.base]
  rw [Numbered] at hnum
  rw [hnum]
  cases hbase : t.base with
  | none => rfl
  | some b => rw [map_some, map_some, hcount b hbase]

/-- A type that was not there before, and fits. -/
structure Fresh (r : Registry) (h : TypeHash) (u : TypeDecl) : Prop where
  unknown : r.type? h = none
  hash : u.hash = h
  base : ∀ b, u.base = some b → ∃ t, r.type? b = some t
  numbered : r.Numbered u
  values : u.kind.isValueType → u.base = none

/-- One more type, or more functions of a type. -/
theorem Founded.extend (hr : r.Founded) (hext : r.Extends r') (hsize : r.types.size ≤ r'.types.size)
    (hnew : ∀ h u, r'.type? h = some u → (∃ t, r.type? h = some t ∧ t.Agrees u) ∨
      r.types.size < r'.types.size ∧ r.Fresh h u) : r'.Founded := by
  obtain ⟨rank, hrank⟩ := hr.ranked
  have hcount : ∀ b, (∃ t, r.type? b = some t) →
    r'.instanceFieldCount b = r.instanceFieldCount b := by
    rintro b ⟨t, ht⟩
    exact hext.instanceFieldCount hrank hsize ht
  have hknown : ∀ b, (∃ t, r.type? b = some t) → ∃ u, r'.type? b = some u := by
    rintro b ⟨t, ht⟩
    obtain ⟨u, hu, -⟩ := hext b t ht
    exact ⟨u, hu⟩
  refine ⟨fun h u hu => ?_, ⟨fun h => if (r.type? h).isSome then rank h else r.types.size,
    fun h u hu => ?_⟩, fun h u hu => ?_, fun h u hu => ?_⟩
  · rcases hnew h u hu with ⟨t, ht, hagrees⟩ | ⟨-, hfresh⟩
    · exact hagrees.hash.trans (hr.hash h t ht)
    · exact hfresh.hash
  · -- A new type ranks above all the others.
    rcases hnew h u hu with ⟨t, ht, hagrees⟩ | ⟨hmore, hfresh⟩
    · obtain ⟨hlt, hbases⟩ := hrank h t ht
      simp only [ht, hagrees.base]
      refine ⟨lt_of_lt_of_le hlt hsize, fun b hb => ?_⟩
      obtain ⟨⟨w, hw⟩, hlower⟩ := hbases b hb
      exact ⟨hknown b ⟨w, hw⟩, by simpa [hw] using hlower⟩
    · simp only [hfresh.unknown]
      refine ⟨hmore, fun b hb => ?_⟩
      obtain ⟨w, hw⟩ := hfresh.base b hb
      exact ⟨hknown b ⟨w, hw⟩, by simpa [hw] using (hrank b w hw).1⟩
  · rcases hnew h u hu with ⟨t, ht, hagrees⟩ | ⟨-, hfresh⟩
    · exact (hr.numbered h t ht).congr hagrees fun b hb => hcount b ((hrank h t ht).2 b hb).1
    · exact hfresh.numbered.congr (.refl u) fun b hb => hcount b (hfresh.base b hb)
  · rcases hnew h u hu with ⟨t, ht, hagrees⟩ | ⟨-, hfresh⟩
    · rw [hagrees.kind, hagrees.base]
      exact hr.values h t ht
    · exact hfresh.values

theorem filter_layOut (owner : TypeHash) (n : Nat) (fs : List FieldDecl) :
    ((layOut owner n fs).filter fun f => !f.isStatic).map index =
      (List.range' n ((layOut owner n fs).filter fun f => !f.isStatic).length).map ofNat := by
  induction fs generalizing n with
  | nil => rfl
  | cons f fs ih =>
    unfold layOut
    cases hstat : f.isStatic with
    | true => simpa [hstat] using ih n
    | false => simpa [hstat, range'_succ] using ih (n + 1)

theorem size_insert_of_none (hnew : r.type? h = none) (t : TypeDecl) :
    (r.types.insert h t).size = r.types.size + 1 := by
  rw [Std.TreeMap.size_insert, if_neg]
  rw [Std.TreeMap.contains_eq_isSome_getElem?, show r.types[h]? = none from hnew]
  simp

theorem Accepts.fresh (h : r.Accepts t) : r.Fresh t.hash (r.laidOut t) := by
  obtain ⟨hnew, hbuiltin | hrefusal⟩ := h
  · have hbase := (plain_of_mem_builtins t hbuiltin).1
    exact ⟨hnew, rfl, by simp [laidOut, hbase], filter_layOut .., fun _ => hbase⟩
  · obtain ⟨-, -, hval, hbases, -⟩ := typeRefusal?_none hrefusal
    exact ⟨hnew, rfl, fun b hb => exists_type? (hbases b hb), filter_layOut .., hval⟩

theorem Change.size_le (h : Change T F r r') : r.types.size ≤ r'.types.size := by
  cases h with
  | type | member => exact Std.TreeMap.size_le_size_insert
  | free | remember => exact le_refl _

theorem Founded.change (hr : r.Founded) (h : Change T F r r') : r'.Founded := by
  refine hr.extend (fun hash t ht => ?_) h.size_le fun hash u hu => ?_
  · obtain ⟨u, hu, hgrows⟩ := h.type? ht
    exact ⟨u, hu, hgrows.agrees⟩
  · rcases h.of_type? hu with ⟨t, ht, hgrows⟩ | ⟨t, -, hacc, rfl, rfl, rfl⟩
    · exact .inl ⟨t, ht, hgrows.agrees⟩
    · refine .inr ⟨?_, hacc.fresh⟩
      exact (size_insert_of_none hacc.1 _).symm ▸ lt_succ_self _

theorem Registered.founded (h : r.Registered) : r.Founded := by
  have hnone : ∀ h, Registry.empty.type? h = none := fun h => by simp [Registry.empty, type?]
  refine h.induction ⟨by simp [hnone], ⟨fun _ => 0, ?_⟩, by simp [hnone], by simp [hnone]⟩
    Founded.change
  simp [Ranks, hnone]

end Registry

end StackCode
