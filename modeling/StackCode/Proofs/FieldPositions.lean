import Mathlib.Data.Finset.Card
import StackCode.Proofs.Assignability
import StackCode.Proofs.Yields

/-!
# Positions of fields

A field gets its position when its type is registered: the instance fields of a type are numbered on
from those of its base. The instance that the machine makes, and the default of a value type, hold
at every position the default of the field that stands there. This needs that declared fields have
different hashes, for else one of them cannot be looked up, and that no value type contains itself,
for else it has no default.
-/

namespace StackCode

open List Std.TreeMap FieldDecl

variable {fs : List FieldDecl} {f : FieldDecl} {h k : TypeHash} {t u : TypeDecl}

namespace Registry

variable {r r' : Registry} {T : TypeDecl → Prop} {F : FunctionDecl → Prop}

/-! ### Fields are found under their hashes -/

/-- Declared fields with different owners or names have different hashes. -/
def Separates (r : Registry) : Prop :=
  ∀ a t, r.type? a = some t → ∀ b u, r.type? b = some u → ∀ f ∈ t.fields, ∀ g ∈ u.fields,
    TypeHash.ofField a f.name = .ofField b g.name → a = b ∧ f.name = g.name

/-- With more registered there are more fields to be kept apart. -/
theorem Separates.of_grows (h : r'.Separates) (hgrows : r.Grows r') : r.Separates := by
  intro a t ht b u hu f hf g hg
  obtain ⟨t', ht', ht⟩ := hgrows.types a t ht
  obtain ⟨u', hu', hu⟩ := hgrows.types b u hu
  exact h a t' ht' b u' hu' f (by rwa [ht.fields]) g (by rwa [hu.fields])

theorem nodup_of_repeatedField? {seen : List String} (h : repeatedField? seen fs = none) :
    (∀ f ∈ fs, f.name ∉ seen) ∧ (fs.map name).Nodup := by
  induction fs generalizing seen with
  | nil => simp
  | cons f fs ih =>
    unfold repeatedField? at h
    split at h
    · cases h
    rename_i hnew
    obtain ⟨hseen, hnodup⟩ := ih h
    refine ⟨forall_mem_cons.mpr ⟨hnew, fun g hg hmem => ?_⟩, ?_⟩
    · exact hseen g hg (mem_cons_of_mem _ hmem)
    · rw [map_cons, nodup_cons]
      refine ⟨fun hmem => ?_, hnodup⟩
      obtain ⟨g, hg, hname⟩ := mem_map.mp hmem
      exact hseen g hg (hname ▸ mem_cons_self)

theorem map_name_layOut (owner : TypeHash) (n : Nat) (fs : List FieldDecl) :
    (layOut owner n fs).map name = fs.map name := by
  induction fs generalizing n with
  | nil => rfl
  | cons f fs ih =>
    unfold layOut
    dsimp only
    split <;> simp [ih]

theorem hash_layOut {owner : TypeHash} {n : Nat} (hf : f ∈ layOut owner n fs) :
    f.hash = .ofField owner f.name := by
  induction fs generalizing n with
  | nil => cases hf
  | cons g fs ih =>
    unfold layOut at hf
    dsimp only at hf
    split at hf <;> rcases mem_cons.mp hf with rfl | hf
    · rfl
    · exact ih hf
    · rfl
    · exact ih hf

theorem getElem?_foldl_insert_of_ne (m : Std.TreeMap TypeHash FieldDecl)
    (hh : ∀ f ∈ fs, f.hash ≠ h) :
    (fs.foldl (fun m f => m.insert f.hash f) m)[h]? = m[h]? := by
  induction fs generalizing m with
  | nil => rfl
  | cons f fs ih =>
    obtain ⟨hf, hfs⟩ := forall_mem_cons.mp hh
    rw [foldl_cons, ih _ hfs, Std.TreeMap.getElem?_insert, if_neg]
    exact fun heq => hf (Std.LawfulEqCmp.eq_of_compare heq)

theorem getElem?_foldl_insert_of_mem (m : Std.TreeMap TypeHash FieldDecl)
    (hfs : (fs.map hash).Nodup) (hf : f ∈ fs) :
    (fs.foldl (fun m f => m.insert f.hash f) m)[f.hash]? = some f := by
  induction fs generalizing m with
  | nil => cases hf
  | cons g fs ih =>
    rw [map_cons, nodup_cons] at hfs
    rcases mem_cons.mp hf with rfl | hf
    · rw [foldl_cons, getElem?_foldl_insert_of_ne, getElem?_insert_self]
      exact fun g hg heq => hfs.1 (heq ▸ mem_map_of_mem hg)
    · exact ih _ hfs.2 hf

/-- Fields have the hashes of their owners and names, a type has no two fields of one name, and
fields are found under hashes that are different. -/
structure Fielded (r : Registry) : Prop where
  hash : ∀ h t, r.type? h = some t → ∀ f ∈ t.fields, f.hash = .ofField h f.name
  names : ∀ h t, r.type? h = some t → (t.fields.map FieldDecl.name).Nodup
  found : r.Separates → ∀ h t, r.type? h = some t → ∀ f ∈ t.fields, r.fieldByHash? f.hash = some f

theorem Accepts.nodup (h : r.Accepts t) : ((r.laidOut t).fields.map name).Nodup := by
  rw [laidOut, map_name_layOut]
  rcases h.2 with hbuiltin | hrefusal
  · simp [(plain_of_mem_builtins t hbuiltin).2]
  · exact (nodup_of_repeatedField? (typeRefusal?_none hrefusal).2.2.2.2).2

/-- The fields of a new type are entered, and take no other field's place if all hashes are
different. -/
theorem Fielded.found_withType (hr : r.Fielded) (hacc : r.Accepts t)
    (hapart : (r.withType t).Separates) (hu : (r.withType t).type? h = some u) (hf : f ∈ u.fields) :
    (r.withType t).fieldByHash? f.hash = some f := by
  have hhash : ∀ f ∈ (r.laidOut t).fields, f.hash = .ofField t.hash f.name :=
    fun f hf => hash_layOut hf
  have hnew : (r.withType t).type? t.hash = some (r.laidOut t) :=
    by rw [type?_insert rfl, if_pos rfl]
  rw [fieldByHash?, withType]
  by_cases heq : t.hash = h
  · -- Two fields of the new type with one hash have one name.
    subst heq
    rw [hnew] at hu
    cases hu
    refine getElem?_foldl_insert_of_mem _ ?_ hf
    refine Nodup.map_on (fun f hf g hg heq => ?_) (Nodup.of_map _ hacc.nodup)
    rw [hhash f hf, hhash g hg] at heq
    exact inj_on_of_nodup_map hacc.nodup hf hg (hapart _ _ hnew _ _ hnew f hf g hg heq).2
  · -- The types that were there before are other owners.
    have hold : r.type? h = some u := by rwa [type?_insert rfl, if_neg heq] at hu
    rw [getElem?_foldl_insert_of_ne]
    · have hchg : Change (· = t) (fun _ => False) r (r.withType t) := .type rfl hacc
      exact hr.found (hapart.of_grows ((Grows.refl r).change hchg)) h u hold f hf
    · intro g hg hcollide
      rw [hhash g hg, hr.hash h u hold f hf] at hcollide
      exact heq (hapart _ _ hnew _ _ hu g hg f hf hcollide).1

theorem Fielded.change (hr : r.Fielded) (hchg : Change T F r r') : r'.Fielded := by
  refine ⟨fun h u hu f hf => ?_, fun h u hu => ?_, fun hapart h u hu f hf => ?_⟩
  · rcases hchg.of_type? hu with ⟨t, ht, hgrows⟩ | ⟨t, -, -, -, rfl, rfl⟩
    · exact hr.hash h t ht f (hgrows.agrees.fields ▸ hf)
    · exact hash_layOut hf
  · rcases hchg.of_type? hu with ⟨t, ht, hgrows⟩ | ⟨t, -, hacc, -, -, rfl⟩
    · exact hgrows.agrees.fields ▸ hr.names h t ht
    · exact hacc.nodup
  · rcases hchg.of_type? hu with ⟨t, ht, htu⟩ | ⟨t, -, hacc, rfl, -, -⟩
    · have hold : r.fieldByHash? f.hash = some f :=
        hr.found (hapart.of_grows ((Grows.refl r).change hchg)) h t ht f (htu.agrees.fields ▸ hf)
      cases hchg with
      | type _ hacc => exact hr.found_withType hacc hapart hu hf
      | free | member | remember => exact hold
    · exact hr.found_withType hacc hapart hu hf

theorem Registered.fielded (hr : r.Registered) : r.Fielded :=
  hr.induction (by constructor <;> simp [Registry.empty, type?]) Fielded.change

/-! ### Defaults of value types -/

/-- Values of the first type are aggregates with a member of the second. -/
def Embeds (r : Registry) (h k : TypeHash) : Prop :=
  ∃ t, r.type? h = some t ∧ t.kind.isAggregate ∧ ∃ f ∈ t.instanceFields, f.type.hash = k

/-- No value type contains itself. -/
def Layered (r : Registry) : Prop := ∀ h, ¬Relation.TransGen r.Embeds h h

open Classical in
/-- The registered types that a type contains. -/
noncomputable def embedded (r : Registry) (h : TypeHash) : Finset TypeHash :=
  r.types.keys.toFinset.filter (Relation.TransGen r.Embeds h)

theorem mem_embedded :
    k ∈ r.embedded h ↔ (∃ t, r.type? k = some t) ∧ Relation.TransGen r.Embeds h k := by
  simp only [embedded, Finset.mem_filter, mem_toFinset, Std.TreeMap.mem_keys, type?,
    Std.TreeMap.mem_iff_isSome_getElem?, Option.isSome_iff_exists]

theorem Layered.card_embedded_lt (hr : r.Layered) (hembeds : r.Embeds h k)
    (ht : r.type? k = some t) :
    (r.embedded k).card < (r.embedded h).card := by
  refine Finset.card_lt_card ⟨fun l hl => ?_, fun hsub => ?_⟩
  · obtain ⟨hknown, hpath⟩ := mem_embedded.mp hl
    exact mem_embedded.mpr ⟨hknown, .head hembeds hpath⟩
  · exact hr k (mem_embedded.mp (hsub (mem_embedded.mpr ⟨⟨t, ht⟩, .single hembeds⟩))).2

/-- A type contains fewer types than there are. -/
theorem Layered.card_embedded (hr : r.Layered) (ht : r.type? h = some t) :
    (r.embedded h).card < r.types.size := by
  have hmem : h ∈ r.types.keys.toFinset := by
    rw [mem_toFinset, Std.TreeMap.mem_keys, Std.TreeMap.mem_iff_isSome_getElem?]
    exact Option.isSome_iff_exists.mpr ⟨t, ht⟩
  have hlt : (r.embedded h).card < r.types.keys.toFinset.card := by
    classical
    refine Finset.card_lt_card ⟨Finset.filter_subset .., fun hsub => ?_⟩
    exact hr h (mem_embedded.mp (hsub hmem)).2
  exact Nat.lt_of_lt_of_le hlt (Nat.le_trans (toFinset_card_le _) length_keys.le)

theorem defaultWithin_of_none (hnone : r.type? h = none) (n : Nat) :
    r.defaultWithin n h = .null := by
  cases n with
  | zero => rfl
  | succ n => rw [defaultWithin, hnone]

theorem defaultWithin_of_aggregate (ht : r.type? h = some t) (hkind : t.kind.isAggregate)
    (n : Nat) :
    r.defaultWithin (n + 1) h =
      .aggregate ((inOrder t.instanceFields).map fun f => r.defaultWithin n f.type.hash) := by
  rw [defaultWithin, ht]
  cases hcase : t.kind <;> simp_all [TypeKind.isAggregate]

/-- A default does not depend on how deep one looks, if one looks deeper than types nest. -/
theorem Layered.defaultWithin_eq (hr : r.Layered) {n m : Nat} (hn : (r.embedded h).card < n)
    (hm : (r.embedded h).card < m) :
    r.defaultWithin n h = r.defaultWithin m h := by
  induction n generalizing h m with
  | zero => omega
  | succ n ih =>
    obtain ⟨m, rfl⟩ : ∃ k, m = k + 1 := ⟨m - 1, by omega⟩
    cases ht : r.type? h with
    | none => rw [defaultWithin_of_none ht, defaultWithin_of_none ht]
    | some t =>
      by_cases hkind : t.kind.isAggregate
      · rw [defaultWithin_of_aggregate ht hkind, defaultWithin_of_aggregate ht hkind]
        refine congrArg Value.aggregate (map_congr_left fun f hf => ?_)
        have hembeds : r.Embeds h f.type.hash := ⟨t, ht, hkind, f, mem_inOrder.mp hf, rfl⟩
        cases hf : r.type? f.type.hash with
        | none => rw [defaultWithin_of_none hf, defaultWithin_of_none hf]
        | some u =>
          have hlt := hr.card_embedded_lt hembeds hf
          exact ih (by omega) (by omega)
      · rw [defaultWithin, defaultWithin, ht]
        cases hcase : t.kind <;> simp_all [TypeKind.isAggregate]

/-- The default of a value type is made of the defaults of its fields. -/
theorem Layered.defaultValue_eq (hr : r.Layered) (ht : r.type? h = some t)
    (hkind : t.kind.isAggregate) :
    r.defaultValue h =
      .aggregate ((inOrder t.instanceFields).map fun f => r.defaultValue f.type.hash) := by
  rw [defaultValue, defaultWithin_of_aggregate ht hkind]
  refine congrArg Value.aggregate (map_congr_left fun f hf => ?_)
  cases hf' : r.type? f.type.hash with
  | none => rw [defaultValue, defaultWithin_of_none hf', defaultWithin_of_none hf']
  | some u =>
    have hlt := hr.card_embedded hf'
    exact hr.defaultWithin_eq hlt (by omega)

/-! ### Layouts -/

theorem Founded.layout_prefix (hr : r.Founded) (hu : u ∈ r.baseChain h) :
    r.layout u.hash <+: r.layout h := by
  obtain ⟨nearer, hchain⟩ := (hr.mem_baseChain hu).2
  refine ⟨nearer.reverse.flatMap TypeDecl.instanceFields, ?_⟩
  rw [layout, layout, ← hchain, reverse_append, flatMap_append]

/-- The layout of a type is fixed when the type is registered. -/
theorem Grows.layout (h : r.Grows r') (hr : r.Founded) {hash : TypeHash}
    (ht : r.type? hash = some t) :
    r'.layout hash = r.layout hash :=
  flatMap_instanceFields_of_agrees (rel_reverse (h.baseChain hr ht))

/-- Defaults of fields, each at the position of its field. -/
def DefaultsOf (r : Registry) (fs : List FieldDecl) (vs : List Value) : Prop :=
  vs.length = fs.length ∧ ∀ f ∈ fs, vs[f.index.toNat]? = some (r.defaultValue f.type.hash)

theorem Founded.defaultsOf_layout (hr : r.Founded) (hfew : r.instanceFieldCount h ≤ 65536) :
    r.DefaultsOf (r.layout h) ((r.layout h).map fun f => r.defaultValue f.type.hash) := by
  refine ⟨length_map _, fun f hf => ?_⟩
  rw [getElem?_map, hr.layout_getElem? hfew hf, Option.map_some]

/-- The fields are those of a type and of its bases. They have the positions from zero on, and are
found under their hashes, and the fields of every base come first. Instances and default values hold
the defaults of the fields at their positions. -/
structure LaidOut (r : Registry) (h : TypeHash) (fs : List FieldDecl) : Prop where
  fields : fs.Perm ((r.baseChain h).flatMap TypeDecl.instanceFields)
  positions : fs.map (fun f => f.index.toNat) = List.range fs.length
  found : ∀ f ∈ fs, r.fieldByHash? f.hash = some f
  bases : ∀ u ∈ r.baseChain h, r.layout u.hash <+: fs
  object : r.kind? h = some .reference → ∀ p s, p.registry = r → ∃ id s' vs,
    (Exec.instantiate h).exec p s = (.ok (.ref id), s') ∧
      s'.heap.get id = .ok ⟨h, .aggregate vs⟩ ∧ r.DefaultsOf fs vs
  value : ∀ size align, r.kind? h = some (.value size align) →
    ∃ vs, r.defaultValue h = .aggregate vs ∧ r.DefaultsOf fs vs

theorem Founded.positions_layout (hr : r.Founded) (hfew : r.instanceFieldCount h ≤ 65536) :
    (r.layout h).map (fun f => f.index.toNat) = List.range (r.layout h).length := by
  calc (r.layout h).map (fun f => f.index.toNat)
      = ((r.layout h).map index).map UInt16.toNat := by rw [map_map]; rfl
    _ = (List.range (r.layout h).length).map fun n => (UInt16.ofNat n).toNat := by
      rw [hr.index_layout, map_map]
      rfl
    _ = List.range (r.layout h).length := by
      refine (map_congr_left fun n hn => ?_).trans (map_id _)
      rw [length_layout, mem_range] at hn
      rw [UInt16.toNat_ofNat', Nat.mod_eq_of_lt (by omega), id]

/-- The instance that the machine makes of a reference type. -/
theorem Founded.instantiate_eq {p : Program} (hr : p.registry.Founded)
    (hfew : p.registry.instanceFieldCount h ≤ 65536) (hkind : p.registry.kind? h = some .reference)
    (s : State) : ∃ id s', (Exec.instantiate h).exec p s = (.ok (.ref id), s') ∧ s'.heap.get id =
      .ok ⟨h, .aggregate ((p.registry.layout h).map fun f =>
        p.registry.defaultValue f.type.hash)⟩ := by
  refine ⟨⟨s.heap.objects.size⟩,
    { s with heap := (s.heap.alloc h (Exec.objectLayout p.registry h)).2 }, ?_, ?_⟩
  · unfold Exec.instantiate
    rw [Exec.exec_read_bind]
    dsimp only
    rw [hkind]
    rfl
  · rw [Exec.objectLayout, ← hr.inOrder_baseChain hfew]
    simp [Heap.get, Heap.alloc]

/-- A type is laid out when it is registered, and what is registered later does not change that. -/
theorem Registered.fields_keep_their_positions (hr : r.Registered) (more : List Request)
    (hseparates : (more.foldl Registry.after r).Separates)
    (hlayered : (more.foldl Registry.after r).Layered)
    {h : TypeHash} (hknown : r.containsType h) (hfew : r.instanceFieldCount h ≤ 65536) :
    (more.foldl Registry.after r).LaidOut h (r.layout h) := by
  have hgrows := r.grows_foldl more
  have hr' : (more.foldl Registry.after r).Registered := hr.foldl_after more
  generalize more.foldl Registry.after r = r' at hseparates hlayered hgrows hr' ⊢
  obtain ⟨t, ht⟩ :=
    Option.isSome_iff_exists.mp (Std.TreeMap.contains_eq_isSome_getElem?.symm.trans hknown)
  obtain ⟨u, hu, hagrees⟩ := hgrows.types h t ht
  rw [← length_layout] at hfew
  rw [← hgrows.layout hr.founded ht] at hfew ⊢
  rw [length_layout] at hfew
  have hfounded := hr'.founded
  refine ⟨r'.layout_perm h, hfounded.positions_layout hfew, fun f hf => ?_,
    fun w hw => hfounded.layout_prefix hw, fun hkind p s hp => ?_, fun size align hkind => ?_⟩
  · obtain ⟨w, hw, hmem⟩ := mem_layout.mp hf
    exact hr'.fielded.found hseparates w.hash w (hfounded.mem_baseChain hw).1 f
      (List.mem_filter.mp hmem).1
  · subst hp
    obtain ⟨id, s', hexec, hget⟩ := hfounded.instantiate_eq hfew hkind s
    exact ⟨id, s', _, hexec, hget, hfounded.defaultsOf_layout hfew⟩
  · rw [kind?, hu, Option.map_some] at hkind
    have haggregate : u.kind.isAggregate := by rw [Option.some.inj hkind]; rfl
    refine ⟨_, hlayered.defaultValue_eq hu haggregate, ?_⟩
    have hval : u.kind.isValueType := by rw [Option.some.inj hkind]; rfl
    rw [hfounded.inOrder_instanceFields hu hval hfew, ← hfounded.layout_of_value hu hval]
    exact hfounded.defaultsOf_layout hfew

theorem separates_of_entries (h : ∀ e ∈ r.types.toList, ∀ e' ∈ r.types.toList, ∀ f ∈ e.2.fields,
    ∀ g ∈ e'.2.fields, TypeHash.ofField e.1 f.name = .ofField e'.1 g.name → e.1 = e'.1 ∧
    f.name = g.name) :
    r.Separates := fun _ _ ht _ _ hu =>
  h _ (mem_toList_iff_getElem?_eq_some.mpr ht) _ (mem_toList_iff_getElem?_eq_some.mpr hu)

/-- Value types do not contain themselves if they can be ranked above their fields. -/
theorem layered_of_rank (rank : TypeHash → Nat)
    (h : ∀ e ∈ r.types.toList, ∀ f ∈ e.2.instanceFields, e.2.kind.isAggregate →
      rank f.type.hash < rank e.1) :
    r.Layered := by
  have hlower : ∀ a b, Relation.TransGen r.Embeds a b → rank b < rank a := by
    have hstep : ∀ a b, r.Embeds a b → rank b < rank a := by
      rintro a b ⟨t, ht, hkind, f, hf, rfl⟩
      exact h (a, t) (mem_toList_iff_getElem?_eq_some.mpr ht) f hf hkind
    intro a b hpath
    induction hpath with
    | single hembeds => exact hstep _ _ hembeds
    | tail _ hembeds ih => exact (hstep _ _ hembeds).trans ih
  exact fun a hcycle => Nat.lt_irrefl _ (hlower a a hcycle)

end Registry

namespace Drawing

def point : TypeDecl :=
  ((TypeDecl.named "Point" (.value 8 4)).withField "x" (.plain .int32) false).withField "y"
    (.plain .int32) false

/-- Two points, with a static field between them. -/
def segment : TypeDecl :=
  (((TypeDecl.named "Segment" (.value 16 4)).withField "start" (.plain point.hash) false).withField
    "count" (.plain .int32) true).withField "stop" (.plain point.hash) false

/-- A reference type with a name. -/
def shape : TypeDecl := (TypeDecl.named "Shape" .reference).withField "name" (.plain .string) false

def line : TypeDecl :=
  { ((TypeDecl.named "Line" .reference).withField "place" (.plain segment.hash) false).withField
    "width" (.plain .int32) false with base := some shape.hash }

/-- A type that is registered later. -/
def arrow : TypeDecl :=
  { (TypeDecl.named "Arrow" .reference).withField "tip" (.plain point.hash) false with
    base := some line.hash }

def registry : Registry :=
  Request.registry [.primitives, .type point, .type segment, .type shape, .type line]

/-- The registry after more was declared. -/
def later : Registry := [Request.type arrow, .array line.hash].foldl Registry.after registry

/-- How deep the value types nest. -/
def depth (h : TypeHash) : Nat := if h = segment.hash then 2 else if h = point.hash then 1 else 0

theorem evaluation : registry.containsType line.hash = true ∧
    registry.instanceFieldCount line.hash ≤ 65536 ∧
    (∀ e ∈ later.types.toList, ∀ e' ∈ later.types.toList, ∀ f ∈ e.2.fields, ∀ g ∈ e'.2.fields,
      TypeHash.ofField e.1 f.name = .ofField e'.1 g.name → e.1 = e'.1 ∧ f.name = g.name) ∧
    ∀ e ∈ later.types.toList, ∀ f ∈ e.2.instanceFields, e.2.kind.isAggregate →
    depth f.type.hash < depth e.1 := by
  decide +kernel

theorem line_keeps_its_positions : later.LaidOut line.hash (registry.layout line.hash) := by
  obtain ⟨hknown, hfew, hseparates, hlayered⟩ := evaluation
  exact (Registry.registered_of_requests _).fields_keep_their_positions _
    (Registry.separates_of_entries hseparates) (Registry.layered_of_rank depth hlayered) hknown hfew

end Drawing

end StackCode
