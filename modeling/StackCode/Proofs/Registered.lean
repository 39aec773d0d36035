import StackCode.Proofs.Requests

/-!
# Registries that registration leads to

In a registry that is built by registration every function stands under its own hash, and what an
operator index refers to is registered with the signature it is indexed by, also where an index is
kept.
-/

namespace StackCode

open Option OperatorIndex List

variable {h source target owner declaring : TypeHash} {f : FunctionDecl} {r r' : Registry}

/-- What an operator index refers to is registered with the signature it is indexed by. -/
structure OperatorIndex.Reflects (r : Registry) (x : OperatorIndex) : Prop where
  conversions : ∀ e ∈ x.conversions, ∃ f, r.function? e.2 = some f ∧
    f.kind = .conversion e.1.1 ∧ f.paramHashes = [e.1.2.1] ∧ f.returns.hash = e.1.2.2
  constructors : ∀ e ∈ x.constructors, ∃ f, r.function? e.2 = some f ∧ f.kind = .constructor ∧
    f.paramHashes = e.1

/-- Functions stand under their hashes, and kept indexes refer to functions. -/
structure Registry.Coherent (r : Registry) : Prop where
  functions : ∀ h f, r.function? h = some f → f.hash = h
  indexes : ∀ (owner : TypeHash) (x : OperatorIndex), r.indexes[owner]? = some x → x.Reflects r

/-! ### Kinds of types -/

namespace Registry

theorem isReferenceType_of_kind {k : TypeKind} (hk : r.kind? h = some k) :
    r.isReferenceType h = k.isReferenceType := by
  rw [isReferenceType, hk]
  rfl

theorem isReferenceType_of_valueType (hval : r.isValueType h = true) :
    r.isReferenceType h = false := by
  unfold isValueType at hval
  unfold isReferenceType
  cases hkind : r.kind? h with
  | none => rfl
  | some k =>
    rw [hkind] at hval
    have hval : k.isValueType = true := hval
    simp [TypeKind.isReferenceType, hval]

theorem eq_of_assignable (hval : r.isValueType source) (h : r.assignable source target) :
    source = target := by
  unfold assignable at h
  simpa [isReferenceType_of_valueType hval] using h

end Registry

/-! ### Operator indexes -/

namespace OperatorIndex

variable {x : OperatorIndex}

theorem Reflects.mono (hx : x.Reflects r)
    (hfuns : ∀ h f, r.function? h = some f → r'.function? h = some f) : x.Reflects r' where
  conversions e he := by
    obtain ⟨f, hf, hrest⟩ := hx.conversions e he
    exact ⟨f, hfuns _ _ hf, hrest⟩
  constructors e he := by
    obtain ⟨f, hf, hrest⟩ := hx.constructors e he
    exact ⟨f, hfuns _ _ hf, hrest⟩

theorem reflects_empty : empty.Reflects r := ⟨by simp [empty], by simp [empty]⟩

theorem mem_bind {κ : Type} [DecidableEq κ] {key : κ} {l : List (κ × TypeHash)} {e : κ × TypeHash}
    (he : e ∈ bind key h l) : e = (key, h) ∨ e ∈ l := by
  rcases mem_cons.mp he with he | he
  · exact .inl he
  · exact .inr (mem_filter.mp he).1

theorem Reflects.enter (hx : x.Reflects r) (hf : r.function? f.hash = some f) :
    (x.enter f).Reflects r := by
  unfold OperatorIndex.enter
  split
  · rename_i op p hkind hparams
    refine ⟨fun e he => ?_, hx.constructors⟩
    rcases mem_bind he with rfl | he
    · exact ⟨f, hf, hkind, by simp [FunctionDecl.paramHashes, paramHashes, hparams], rfl⟩
    · exact hx.conversions e he
  · rename_i hkind
    refine ⟨hx.conversions, fun e he => ?_⟩
    rcases mem_bind he with rfl | he
    · exact ⟨f, hf, hkind, rfl⟩
    · exact hx.constructors e he
  · exact hx

theorem reflects_build {fs : List FunctionDecl} (hfs : ∀ f ∈ fs, r.function? f.hash = some f) :
    (build fs).Reflects r := by
  have hfold : ∀ x : OperatorIndex, x.Reflects r → (fs.foldl enter x).Reflects r := by
    induction fs with
    | nil => exact fun x hx => hx
    | cons f fs ih =>
      intro x hx
      obtain ⟨hf, hrest⟩ := forall_mem_cons.mp hfs
      exact ih hrest _ (hx.enter hf)
  exact hfold _ reflects_empty

end OperatorIndex

namespace Registry

variable {T : TypeDecl → Prop} {F : FunctionDecl → Prop}

theorem Coherent.function (h : r.Coherent) {hash : TypeHash} (hf : r.function? hash = some f) :
    r.function? f.hash = some f := by
  rwa [h.functions hash f hf]

/-- The index of a type, kept or fresh, refers to functions. -/
theorem Coherent.operatorIndex (h : r.Coherent) (owner : TypeHash) :
    (r.operatorIndex owner).Reflects r := by
  unfold Registry.operatorIndex
  split
  · rename_i x hx
    exact h.indexes owner x hx
  · refine reflects_build fun f hf => ?_
    unfold indexed at hf
    split at hf
    · cases hf
    · obtain ⟨hash, -, hfun⟩ := mem_filterMap.mp hf
      exact h.function hfun

theorem Coherent.change (h : r.Coherent) (hchg : Change T F r r') : r'.Coherent := by
  refine ⟨fun hash f hf => ?_, fun owner x hx => ?_⟩
  · rcases hchg.of_function? hf with hf | ⟨-, hhash, -⟩
    · exact h.functions hash f hf
    · exact hhash
  have hkept : x.Reflects r := by
    cases hchg with
    | type | free => exact h.indexes owner x hx
    | member =>
      unfold withMember at hx
      rw [Std.TreeMap.getElem?_erase] at hx
      split at hx
      · cases hx
      · exact h.indexes owner x hx
    | remember owner' =>
      unfold Registry.remember at hx
      rw [Std.TreeMap.getElem?_insert] at hx
      split at hx
      · cases hx
        exact h.operatorIndex owner'
      · exact h.indexes owner x hx
  exact hkept.mono fun _ _ => hchg.function?

theorem Registered.coherent (h : r.Registered) : r.Coherent :=
  h.induction ⟨by simp [Registry.empty, function?], by simp [Registry.empty]⟩ Coherent.change

/-! ### Fields stand under their hashes -/

theorem hash_of_foldl_insert {fs : List FieldDecl} {m : Std.TreeMap TypeHash FieldDecl}
    (hm : ∀ (h : TypeHash) f, m[h]? = some f → f.hash = h) :
    ∀ (h : TypeHash) f, (fs.foldl (fun m f => m.insert f.hash f) m)[h]? = some f → f.hash = h := by
  induction fs generalizing m with
  | nil => exact hm
  | cons g fs ih =>
    refine ih fun h f hf => ?_
    rw [Std.TreeMap.getElem?_insert] at hf
    split at hf
    · rename_i heq
      cases hf
      exact Std.LawfulEqCmp.eq_of_compare heq
    · exact hm h f hf

theorem Registered.field_hash (h : r.Registered) :
    ∀ hash f, r.fieldByHash? hash = some f → f.hash = hash := by
  refine h.induction (motive := fun r => ∀ hash f, r.fieldByHash? hash = some f → f.hash = hash)
    (by simp [Registry.empty, fieldByHash?]) fun ih hchg => ?_
  cases hchg with
  | type => exact hash_of_foldl_insert ih
  | free | member | remember => exact ih

/-- A field that a type or one of its bases has. The type is registered. -/
theorem Registered.field (h : r.Registered) {name : String} {f : FieldDecl}
    (hf : r.field? owner name = some f) :
    r.fieldByHash? f.hash = some f ∧ ∃ kind, r.kind? owner = some kind := by
  obtain ⟨t, ht, hfield⟩ := exists_of_findSome?_eq_some hf
  refine ⟨by rw [h.field_hash _ f hfield]; exact hfield, ?_⟩
  unfold baseChain at ht
  cases hsize : r.types.size with
  | zero =>
    rw [hsize] at ht
    cases ht
  | succ size =>
    rw [hsize, chainFrom] at ht
    unfold kind?
    cases htype : r.type? owner with
    | none =>
      rw [htype] at ht
      cases ht
    | some t => exact ⟨t.kind, rfl⟩

/-! ### Functions behind conversions -/

theorem mem_of_lookup {κ : Type} [BEq κ] [LawfulBEq κ] {key : κ} {l : List (κ × TypeHash)}
    (hl : l.lookup key = some h) : (key, h) ∈ l := by
  obtain ⟨before, after, rfl, -⟩ := lookup_eq_some_iff.mp hl
  simp

/-- A conversion operator takes the source and returns the target. -/
theorem Coherent.conversion (h : r.Coherent) {op : ConversionOperator}
    (hf : r.conversion? declaring op source target = some f) :
    r.function? f.hash = some f ∧ f.kind = .conversion op ∧ f.paramHashes = [source] ∧
      f.returns.hash = target := by
  obtain ⟨hash, hlook, hfun⟩ := bind_eq_some_iff.mp hf
  obtain ⟨g, hg, hkind, hparams, hret⟩ :=
    (h.operatorIndex declaring).conversions _ (mem_of_lookup hlook)
  rw [hfun] at hg
  cases hg
  exact ⟨h.function hfun, hkind, hparams, hret⟩

/-- A constructor takes the parameters that it is looked up by. -/
theorem Coherent.constructor (h : r.Coherent) {params : List TypeHash}
    (hf : r.constructor? owner params = some f) :
    r.function? f.hash = some f ∧ f.kind = .constructor ∧ f.paramHashes = params := by
  obtain ⟨hash, hlook, hfun⟩ := bind_eq_some_iff.mp hf
  obtain ⟨g, hg, hkind, hparams⟩ := (h.operatorIndex owner).constructors _ (mem_of_lookup hlook)
  rw [hfun] at hg
  cases hg
  exact ⟨h.function hfun, hkind, hparams⟩

theorem length_of_paramHashes (hf : f.paramHashes = [h]) : f.params.length = 1 := by
  simpa [FunctionDecl.paramHashes, paramHashes] using congrArg length hf

/-- What a rule says of source and target. Its function takes the source and leads to the target. -/
def Refers (r : Registry) (source target : TypeHash) : ConversionRule → Prop
  | .identity => r.assignable source target
  | .box h => h = source ∧ target = .object
  | .unbox h => h = target ∧ r.isValueType target
  | .operator function _ op => ∃ f, r.function? function = some f ∧ f.kind = .conversion op ∧
      f.paramHashes = [source] ∧ f.returns.hash = target
  | .constructor function => ∃ f, r.function? function = some f ∧ f.kind = .constructor ∧
      f.paramHashes = [source] ∧ r.constructor? target [source] = some f
  | .cast h => h = target ∧ r.isReferenceType target

theorem Coherent.userOperator (h : r.Coherent) {rule : ConversionRule}
    (hrule : r.userOperator? declaring source target = some rule) :
    r.Refers source target rule := by
  obtain ⟨op, -, hop⟩ := exists_of_findSome?_eq_some hrule
  obtain ⟨f, hf, rfl⟩ := map_eq_some_iff.mp hop
  exact ⟨f, h.conversion hf⟩

/-- A conversion leads to its target, which has values. -/
theorem Coherent.resolve (h : r.Coherent) {k : Conversion} (hk : r.resolve source target = .ok k) :
    k.target = target ∧ target ≠ .void ∧ r.Refers source target k.rule := by
  unfold Registry.resolve at hk
  split at hk
  case h_2 => cases hk
  rename_i rule hrule
  cases hk
  unfold conversionRule? at hrule
  split at hrule
  · cases hrule
  rename_i hvoid
  refine ⟨rfl, fun htgt => hvoid (by simp [htgt]), ?_⟩
  split at hrule
  · rename_i hassign
    cases hrule
    exact hassign
  split at hrule
  · rename_i hbox
    cases hrule
    exact ⟨rfl, beq_iff_eq.mp (Bool.and_eq_true_iff.mp hbox).1⟩
  split at hrule
  · rename_i hunbox
    cases hrule
    exact ⟨rfl, (Bool.and_eq_true_iff.mp hunbox).2⟩
  rcases or_eq_some_iff.mp hrule with hrule | ⟨-, hrule⟩
  · exact h.userOperator hrule
  rcases or_eq_some_iff.mp hrule with hrule | ⟨-, hrule⟩
  · exact h.userOperator hrule
  rcases or_eq_some_iff.mp hrule with hrule | ⟨-, hrule⟩
  · obtain ⟨f, hf, rfl⟩ := map_eq_some_iff.mp hrule
    obtain ⟨hfun, hkind, hparams⟩ := h.constructor hf
    exact ⟨f, hfun, hkind, hparams, hf⟩
  · unfold cast? at hrule
    by_cases hcast : (r.isReferenceType source && r.isReferenceType target) = true
    · rw [if_pos hcast] at hrule
      cases hrule
      exact ⟨rfl, (Bool.and_eq_true_iff.mp hcast).2⟩
    · rw [if_neg hcast] at hrule
      cases hrule

end Registry

end StackCode
