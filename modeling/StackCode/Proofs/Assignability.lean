import StackCode.Proofs.Layout
import StackCode.Proofs.Resolution
import StackCode.Proofs.Scripts

/-!
# Assignability

A type is assignable to its bases. The walk from a type to its base and on ends and comes to no type
twice, so assignability is a partial order. Registration adds types and functions, and what was
registered keeps its kind, its base and its fields; so assignability between types stays what it was
when they were registered.
-/

namespace StackCode

open List Option

variable {t u : TypeDecl} {ts us : List TypeDecl} {a b hash : TypeHash}

namespace Registry

variable {r r' r'' : Registry} {T : TypeDecl → Prop} {F : FunctionDecl → Prop}

/-! ### Walks along the bases -/

/-- The types that one meets from a type along the bases, up to a type without base. Nothing is met
at a hash that is not registered. -/
inductive Walk (r : Registry) : TypeHash → List TypeDecl → Prop
  | unknown {h} (hh : r.type? h = none) : Walk r h []
  | root {h t} (ht : r.type? h = some t) (hbase : t.base = none) : Walk r h [t]
  | step {h t b ts} (ht : r.type? h = some t) (hbase : t.base = some b)
    (hrest : Walk r b ts) : Walk r h (t :: ts)

theorem Walk.unique {h : TypeHash} (hts : r.Walk h ts) (hus : r.Walk h us) : us = ts := by
  induction hts generalizing us with
  | unknown hh => cases hus <;> simp_all
  | root ht hbase => cases hus <;> simp_all
  | @step h t b ts ht hbase _ ih =>
    cases hus with
    | unknown hh => simp_all
    | root hu hubase => simp_all
    | step hu hubase hrest =>
      rw [ht] at hu
      cases hu
      rw [hbase] at hubase
      cases hubase
      rw [ih hrest]

section

variable (hr : r.Founded)
include hr

/-- The walk along the bases ends, and the base chain is all that it meets. -/
theorem Founded.walk (h : TypeHash) : r.Walk h (r.baseChain h) := by
  cases ht : r.type? h with
  | none =>
    rw [baseChain_of_none ht]
    exact .unknown ht
  | some t =>
    refine hr.induction (motive := fun h => r.Walk h (r.baseChain h)) ?_ h t ht
    intro h t ht ih
    rw [hr.baseChain_eq ht]
    cases hbase : t.base with
    | none => exact .root ht hbase
    | some b => exact .step ht hbase (ih b hbase)

/-- The chain of a type that stands in the chain of its base would be longer than itself. -/
theorem Founded.nodup_baseChain (h : TypeHash) : ((r.baseChain h).map TypeDecl.hash).Nodup := by
  cases ht : r.type? h with
  | none => simp [baseChain_of_none ht]
  | some t =>
    refine hr.induction (motive := fun h => ((r.baseChain h).map TypeDecl.hash).Nodup) ?_ h t ht
    intro h t ht ih
    have hchain := hr.baseChain_eq ht
    cases hbase : t.base with
    | none => simp [hchain, hbase]
    | some b =>
      rw [hbase, map_some, getD_some] at hchain
      rw [hchain, map_cons, nodup_cons]
      refine ⟨fun hmem => ?_, ih b hbase⟩
      obtain ⟨u, hu, hhash⟩ := mem_map.mp hmem
      have hlen := (hr.mem_baseChain hu).2.length_le
      rw [hhash, hr.hash h t ht, hchain, length_cons] at hlen
      omega

/-- A chain that is the end of another which is the end of it starts with the same type. -/
theorem Founded.eq_of_mem_baseChain (ht : t ∈ r.baseChain u.hash) (hu : u ∈ r.baseChain t.hash) :
    u = t := by
  obtain ⟨htype, hsuffix⟩ := hr.mem_baseChain ht
  obtain ⟨hutype, hsuffix'⟩ := hr.mem_baseChain hu
  have hchains := hsuffix.eq_of_length_le hsuffix'.length_le
  rw [hr.baseChain_eq htype, hr.baseChain_eq hutype] at hchains
  exact (List.cons.inj hchains).1.symm

/-- The chain of `object` is `object` alone. -/
theorem Founded.object_baseChain (hobj : ∀ t, r.type? .object = some t → t.base = none)
    (hu : u ∈ r.baseChain .object) :
    u.hash = .object := by
  cases ht : r.type? .object with
  | none =>
    rw [baseChain_of_none ht] at hu
    cases hu
  | some t =>
    rw [hr.baseChain_eq ht, hobj t ht] at hu
    rw [mem_singleton.mp hu]
    exact hr.hash _ t ht

theorem Founded.assignable_antisymm (hobj : ∀ t, r.type? .object = some t → t.base = none)
    (hab : r.assignable a b) (hba : r.assignable b a) :
    a = b := by
  rcases assignable_iff.mp hab with rfl | ⟨-, -, hab⟩
  · rfl
  rcases assignable_iff.mp hba with rfl | ⟨-, -, hba⟩
  · rfl
  rcases hab with rfl | ⟨u, hu, rfl⟩ <;> rcases hba with rfl | ⟨t, ht, rfl⟩
  · rfl
  · exact hr.object_baseChain hobj ht
  · exact (hr.object_baseChain hobj hu).symm
  · rw [hr.eq_of_mem_baseChain ht hu]

end

/-! ### Growing registries -/

/-- A registry with more in it. What was registered differs in its functions at most. -/
structure Grows (r r' : Registry) : Prop where
  types : r.Extends r'
  size : r.types.size ≤ r'.types.size

theorem Grows.refl (r : Registry) : r.Grows r := ⟨fun _ t ht => ⟨t, ht, .refl t⟩, Nat.le_refl _⟩

theorem Grows.trans (h : r.Grows r') (h' : r'.Grows r'') : r.Grows r'' := by
  refine ⟨fun hash t ht => ?_, Nat.le_trans h.size h'.size⟩
  obtain ⟨u, hu, htu⟩ := h.types hash t ht
  obtain ⟨w, hw, huw⟩ := h'.types hash u hu
  exact ⟨w, hw, huw.hash.trans htu.hash, huw.kind.trans htu.kind, huw.base.trans htu.base,
    huw.fields.trans htu.fields⟩

theorem Grows.change (h : r.Grows r') (hchg : Change T F r' r'') : r.Grows r'' := by
  refine h.trans ⟨fun hash t ht => ?_, hchg.size_le⟩
  obtain ⟨u, hu, hgrows⟩ := hchg.type? ht
  exact ⟨u, hu, hgrows.agrees⟩

theorem grows_foldl (r : Registry) (qs : List Request) : r.Grows (qs.foldl after r) :=
  (r.changes_foldl qs).preserves Grows.change (.refl r)

theorem Grows.baseChain (h : r.Grows r') (hr : r.Founded) (ht : r.type? hash = some t) :
    Forall₂ TypeDecl.Agrees (r.baseChain hash) (r'.baseChain hash) := by
  obtain ⟨rank, hrank⟩ := hr.ranked
  have hlt := (hrank hash t ht).1
  rw [Registry.baseChain, Registry.baseChain,
    hrank.chainFrom_eq (k := r'.types.size) hlt (Nat.lt_of_lt_of_le hlt h.size)]
  exact h.types.chainFrom hrank _ ht

theorem Grows.isReferenceType (h : r.Grows r') (ht : r.type? hash = some t) :
    r'.isReferenceType hash = r.isReferenceType hash := by
  obtain ⟨u, hu, hagrees⟩ := h.types hash t ht
  rw [Registry.isReferenceType, Registry.isReferenceType, kind?, kind?, ht, hu, map_some, map_some,
    hagrees.kind]

theorem any_hash_of_agrees (h : Forall₂ TypeDecl.Agrees ts us) (target : TypeHash) :
    (us.any fun u => u.hash == target) = ts.any fun t => t.hash == target := by
  induction h with
  | nil => rfl
  | cons hagrees _ ih => rw [any_cons, any_cons, hagrees.hash, ih]

/-- Between registered types assignability is not changed by what is registered later. -/
theorem Grows.assignable (h : r.Grows r') (hr : r.Founded) (ha : r.type? a = some t)
    (hb : r.type? b = some u) : r'.assignable a b = r.assignable a b := by
  rw [Registry.assignable, Registry.assignable, h.isReferenceType ha, h.isReferenceType hb,
    any_hash_of_agrees (h.baseChain hr ha)]

end Registry

namespace Request

open Registry

theorem founded_extended (qs : List Request) : (extended qs).Founded :=
  (registered_of_requests (.primitives :: qs)).founded

theorem grows_extended (qs more : List Request) : (extended qs).Grows (extended (qs ++ more)) := by
  unfold extended
  rw [foldl_append]
  exact grows_foldl _ more

theorem exists_object (qs : List Request) :
    ∃ t, (extended qs).type? .object = some t ∧ t.kind = .object ∧ t.base = none := by
  have hbuiltin : (withPrimitives.type? .object).map (fun t => (t.kind, t.base)) =
    some (.object, none) := by
    decide +kernel
  obtain ⟨t, ht, heq⟩ := map_eq_some_iff.mp hbuiltin
  obtain ⟨hkind, hbase⟩ := Prod.mk.inj heq
  have hgrows : withPrimitives.Grows (extended qs) := grows_foldl _ qs
  obtain ⟨u, hu, hagrees⟩ := hgrows.types .object t ht
  exact ⟨u, hu, hagrees.kind.trans hkind, hagrees.base.trans hbase⟩

theorem extended_object {qs : List Request} (ht : (extended qs).type? .object = some t) :
    t.base = none := by
  obtain ⟨u, hu, -, hbase⟩ := exists_object qs
  rw [ht] at hu
  cases hu
  exact hbase

/-- Whatever was declared, accepted or refused: from everywhere there is one walk along the bases,
which ends and comes to no type twice, and assignability is a partial order. What is declared later
does not change it between types that are registered. -/
theorem assignability_is_an_order (qs more : List Request) :
    (∀ h ts, (extended qs).Walk h ts ↔ ts = (extended qs).baseChain h) ∧
    (∀ h, (((extended qs).baseChain h).map TypeDecl.hash).Nodup) ∧
    (∀ a, (extended qs).assignable a a) ∧
    (∀ a b c, (extended qs).assignable a b → (extended qs).assignable b c →
      (extended qs).assignable a c) ∧
    (∀ a b, (extended qs).assignable a b → (extended qs).assignable b a → a = b) ∧
    ∀ a b, (extended qs).containsType a → (extended qs).containsType b →
      (extended (qs ++ more)).assignable a b = (extended qs).assignable a b := by
  have hr := founded_extended qs
  have hobject : ∀ t, (extended qs).type? .object = some t → t.base = none :=
    fun _ => extended_object
  have hregistered : ∀ h, (extended qs).containsType h → ∃ t, (extended qs).type? h = some t :=
    fun h hh => Option.isSome_iff_exists.mp (Std.TreeMap.contains_eq_isSome_getElem?.symm.trans hh)
  refine ⟨fun h ts => ⟨(hr.walk h).unique, fun hts => hts ▸ hr.walk h⟩, hr.nodup_baseChain,
    assignable_refl, fun a b c => hr.assignable_trans hobject,
    fun a b => hr.assignable_antisymm hobject, fun a b ha hb => ?_⟩
  obtain ⟨t, ht⟩ := hregistered a ha
  obtain ⟨u, hu⟩ := hregistered b hb
  exact (grows_extended qs more).assignable hr ht hu

end Request

end StackCode
