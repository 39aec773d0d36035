import Mathlib.Data.List.Basic
import StackCode.Proofs.Registered

/-!
# Registries of made declarations

A made function has a hash that is computed from its owner, its name and its types, and a made type
lists no functions yet. A type lists its methods, its constructors and its operators apart, and
operators and constructors are what its operator index is built from.
-/

namespace StackCode

open List TypeDecl Registry

variable {owner h : TypeHash} {requests : List Request} {f : FunctionDecl} {t u : TypeDecl}

/-! ### The lists of a type -/

/-- The lists that a type has of its functions. -/
inductive Roll
  | methods
  | constructors
  | operators
  deriving DecidableEq

/-- The list for functions of a sort. -/
def FunctionKind.roll : FunctionKind → Roll
  | .method => .methods
  | .constructor => .constructors
  | .conversion _ => .operators

namespace TypeDecl

/-- The functions that a type lists under a heading. -/
def roll (t : TypeDecl) : Roll → List TypeHash
  | .methods => t.methods
  | .constructors => t.constructors
  | .operators => t.operators

/-- What a type lists of operators and constructors. -/
def listed (t : TypeDecl) : List TypeHash := t.operators ++ t.constructors

theorem mem_listed : h ∈ t.listed ↔ ∃ k ≠ Roll.methods, h ∈ t.roll k := by
  rw [listed, mem_append]
  constructor
  · rintro (hmem | hmem)
    · exact ⟨.operators, nofun, hmem⟩
    · exact ⟨.constructors, nofun, hmem⟩
  · rintro ⟨_ | _ | _, hk, hmem⟩
    · exact absurd rfl hk
    · exact .inr hmem
    · exact .inl hmem

theorem Made.roll_eq (h : t.Made) (k : Roll) : t.roll k = [] := by
  induction h with
  | named | array => cases k <;> rfl
  | withBase _ _ ih => exact ih
  | withField _ _ _ _ ih => exact ih

theorem roll_addMember (t : TypeDecl) (f : FunctionDecl) (k : Roll) :
    (t.addMember f).roll k = if k = f.kind.roll then t.roll k ++ [f.hash] else t.roll k := by
  unfold addMember
  cases f.kind <;> cases k <;> rfl

theorem Grows.roll (h : t.Grows u) : ∀ k, t.roll k <+: u.roll k
  | .methods => h.methods
  | .constructors => h.constructors
  | .operators => h.operators

end TypeDecl

namespace Registry

variable {r r' : Registry}

/-- The function is registered. -/
def Holds (r : Registry) (f : FunctionDecl) : Prop := ∃ h, r.function? h = some f

/-- Functions are made and stand under their hashes. Each is listed by its owner among those of its
sort, nothing else is listed, nothing is listed twice, and a kept operator index is as good as a
fresh one. -/
structure Enrolled (r : Registry) : Prop where
  made : ∀ h f, r.function? h = some f → f.hash = h ∧ f.Made
  listed : ∀ h f owner, r.function? h = some f → f.owner = some owner →
    ∃ t, r.type? owner = some t ∧ h ∈ t.roll f.kind.roll
  owned : ∀ owner t k h, r.type? owner = some t → h ∈ t.roll k →
    ∃ f, r.function? h = some f ∧ f.owner = some owner ∧ f.kind.roll = k
  once : ∀ owner t k, r.type? owner = some t → (t.roll k).Nodup
  kept : ∀ (owner : TypeHash) x, r.indexes[owner]? = some x → x = .build (r.indexed owner)

theorem enrolled_empty : empty.Enrolled := by
  constructor <;> simp [empty, function?, type?]

theorem indexed_eq (r : Registry) (owner : TypeHash) :
    r.indexed owner = ((r.type? owner).elim [] listed).filterMap r.function? := by
  rw [indexed]
  cases r.type? owner <;> rfl

/-- The index that a lookup uses, kept or not, is the index of what the type lists now. -/
theorem operatorIndex_eq (hkept : ∀ x, r.indexes[owner]? = some x → x = .build (r.indexed owner)) :
    r.operatorIndex owner = .build (r.indexed owner) := by
  unfold operatorIndex
  split
  · exact hkept _ ‹_›
  · rfl

/-- The index of a type is the same where it lists the same and no function was there under
another. -/
theorem Enrolled.indexed_congr (hr : r.Enrolled)
    (hkeeps : ∀ {h f}, r.function? h = some f → r'.function? h = some f)
    (hlisted : (r'.type? owner).elim [] TypeDecl.listed = (r.type? owner).elim [] TypeDecl.listed) :
    r'.indexed owner = r.indexed owner := by
  rw [indexed_eq, indexed_eq, hlisted]
  refine filterMap_congr fun h hmem => ?_
  cases ht : r.type? owner with
  | none =>
    rw [ht] at hmem
    cases hmem
  | some t =>
    rw [ht] at hmem
    obtain ⟨k, -, hmem⟩ := mem_listed.mp hmem
    obtain ⟨f, hf, -⟩ := hr.owned owner t k h ht hmem
    rw [hf, hkeeps hf]

section Change

variable (hr : r.Enrolled) (hchange : Change TypeDecl.Made FunctionDecl.Made r r')

include hr hchange

theorem Enrolled.owned_change {k : Roll} (hu : r'.type? owner = some u) (hmem : h ∈ u.roll k) :
    ∃ f, r'.function? h = some f ∧ f.owner = some owner ∧ f.kind.roll = k := by
  have hold : ∀ {t}, r.type? owner = some t → h ∈ t.roll k →
      ∃ f, r'.function? h = some f ∧ f.owner = some owner ∧ f.kind.roll = k := by
    intro t ht hmem
    obtain ⟨f, hf, hrest⟩ := hr.owned owner t k h ht hmem
    exact ⟨f, hchange.function? hf, hrest⟩
  cases hchange with
  | @type t hmade hacc =>
    rw [type?_insert rfl] at hu
    split at hu
    · cases hu
      have hnone : h ∈ t.roll k := hmem
      rw [hmade.roll_eq] at hnone
      cases hnone
    · exact hold hu hmem
  | free | remember => exact hold hu hmem
  | @member f owner' t _ _ howner ht =>
    rw [type?_insert rfl] at hu
    split at hu
    · rename_i heq
      cases hu
      rw [t.roll_addMember] at hmem
      split at hmem
      · rename_i hk
        rcases mem_append.mp hmem with hmem | hmem
        · exact hold (heq ▸ ht) hmem
        · rw [mem_singleton.mp hmem]
          exact ⟨f, by rw [function?_insert rfl, if_pos rfl], heq ▸ howner, hk.symm⟩
      · exact hold (heq ▸ ht) hmem
    · exact hold hu hmem

theorem Enrolled.once_change {k : Roll} (hu : r'.type? owner = some u) : (u.roll k).Nodup := by
  cases hchange with
  | @type t hmade hacc =>
    rw [type?_insert rfl] at hu
    split at hu
    · cases hu
      have hnone : (t.roll k).Nodup := by simp [hmade.roll_eq]
      exact hnone
    · exact hr.once owner u k hu
  | free | remember => exact hr.once owner u k hu
  | @member f owner' t _ hnew _ ht =>
    rw [type?_insert rfl] at hu
    split at hu
    · cases hu
      have hnodup := hr.once owner' t k ht
      rw [t.roll_addMember]
      split
      · refine nodup_append.mpr ⟨hnodup, by simp, fun h hmem h' hh' => ?_⟩
        -- what is listed is registered, and the function is not
        rintro rfl
        obtain ⟨g, hg, -⟩ := hr.owned owner' t k h ht hmem
        rw [mem_singleton.mp hh', hnew] at hg
        cases hg
      · exact hnodup
    · exact hr.once owner u k hu

theorem Enrolled.kept_change {x : OperatorIndex} (hx : r'.indexes[owner]? = some x) :
    x = .build (r'.indexed owner) := by
  have hcongr : (r'.type? owner).elim [] TypeDecl.listed = (r.type? owner).elim [] TypeDecl.listed →
      r'.indexed owner = r.indexed owner := hr.indexed_congr hchange.function?
  cases hchange with
  | @type t hmade hacc =>
    rw [hcongr]
    · exact hr.kept owner x hx
    · rw [type?_insert rfl]
      split
      · rename_i heq
        rw [← heq, hacc.1]
        have hnone : t.listed = [] := eq_nil_iff_forall_not_mem.mpr fun h hmem => by
          obtain ⟨k, -, hmem⟩ := TypeDecl.mem_listed.mp hmem
          simp [hmade.roll_eq] at hmem
        exact hnone
      · rfl
  | free =>
    rw [hcongr rfl]
    exact hr.kept owner x hx
  | @member f owner' t =>
    unfold withMember at hx
    rw [Std.TreeMap.getElem?_erase] at hx
    simp only [Std.LawfulEqCmp.compare_eq_iff_eq] at hx
    split at hx
    · cases hx
    rename_i hne
    rw [hcongr]
    · exact hr.kept owner x hx
    · rw [type?_insert rfl, if_neg hne]
  | remember owner' =>
    have hindexed : (r.remember owner').indexed owner = r.indexed owner := rfl
    rw [hindexed]
    unfold remember at hx
    rw [Std.TreeMap.getElem?_insert] at hx
    simp only [Std.LawfulEqCmp.compare_eq_iff_eq] at hx
    split at hx
    · rename_i heq
      cases hx
      rw [← heq]
      exact operatorIndex_eq (hr.kept owner')
    · exact hr.kept owner x hx

theorem Enrolled.change : r'.Enrolled where
  made hash f hf := by
    rcases hchange.of_function? hf with hf | ⟨hmade, hhash, -⟩
    · exact hr.made hash f hf
    · exact ⟨hhash, hmade⟩
  listed hash f owner hf howner := by
    rcases hchange.of_function? hf with hf | ⟨-, hhash, -, hlisted⟩
    · obtain ⟨t, ht, hmem⟩ := hr.listed hash f owner hf howner
      obtain ⟨u, hu, hgrows⟩ := hchange.type? ht
      exact ⟨u, hu, (hgrows.roll _).subset hmem⟩
    · obtain ⟨t, -, hu⟩ := hlisted owner howner
      refine ⟨_, hu, ?_⟩
      rw [t.roll_addMember, if_pos rfl, hhash]
      exact mem_append_right _ (mem_singleton_self hash)
  owned _ _ _ _ := hr.owned_change hchange
  once _ _ _ := hr.once_change hchange
  kept _ _ := hr.kept_change hchange

end Change

theorem made_of_mem_builtins (ht : t ∈ builtins) : t.Made := by
  rcases mem_append.mp ht with ht | ht
  · obtain ⟨p, -, rfl⟩ := mem_map.mp ht
    exact .named _ _
  · simp only [mem_cons, not_mem_nil, or_false] at ht
    rcases ht with rfl | rfl <;> exact .named _ _

theorem changes_made (r : Registry) (hmade : ∀ q ∈ requests, q.Made) :
    Changes TypeDecl.Made FunctionDecl.Made r (requests.foldl after r) := by
  refine (r.changes_foldl requests).mono ?_ fun f hf => hmade _ hf
  rintro t ⟨q, hq, ht⟩
  cases q with
  | primitives => exact made_of_mem_builtins ht
  | type u => exact ht ▸ hmade _ hq
  | array element =>
    obtain ⟨name, rfl⟩ := ht
    exact .array name element
  | function | operators | constructor | conversion => cases ht

/-! ### Operator indexes -/

/-- Functions are made and stand under their hashes. All but methods are listed with their owners,
which list nothing else, and a kept operator index is as good as a fresh one. -/
structure Orderly (r : Registry) : Prop where
  made : ∀ h f, r.function? h = some f → f.hash = h ∧ f.Made
  listed : ∀ h f owner, r.function? h = some f → f.owner = some owner → f.kind ≠ .method →
    ∃ t, r.type? owner = some t ∧ h ∈ t.listed
  owned : ∀ owner t h, r.type? owner = some t → h ∈ t.listed → ∃ f, r.function? h = some f ∧
    f.owner = some owner
  kept : ∀ (owner : TypeHash) x, r.indexes[owner]? = some x → x = .build (r.indexed owner)

theorem Enrolled.orderly (hr : r.Enrolled) : r.Orderly where
  made := hr.made
  listed h f owner hf howner hkind := by
    obtain ⟨t, ht, hmem⟩ := hr.listed h f owner hf howner
    refine ⟨t, ht, mem_listed.mpr ⟨_, ?_, hmem⟩⟩
    cases hcase : f.kind <;> simp_all [FunctionKind.roll]
  owned owner t h ht hmem := by
    obtain ⟨k, -, hmem⟩ := mem_listed.mp hmem
    obtain ⟨f, hf, howner, -⟩ := hr.owned owner t k h ht hmem
    exact ⟨f, hf, howner⟩
  kept := hr.kept

theorem orderly_registry (hmade : ∀ q ∈ requests, q.Made) : (Request.registry requests).Orderly :=
  ((changes_made .empty hmade).preserves Enrolled.change enrolled_empty).orderly

/-! ### Where functions come from -/

/-- Every registered function was declared. -/
theorem mem_of_holds_registry (h : (Request.registry requests).Holds f) :
    .function f ∈ requests := by
  refine (changes_foldl .empty requests).preserves (motive :=
    fun r => r.Holds f → .function f ∈ requests)
    (fun ih hchange h => ?_) (by simp [Holds, empty, function?]) h
  obtain ⟨hash, hf⟩ := h
  rcases hchange.of_function? hf with hf | ⟨hmem, -⟩
  · exact ih ⟨hash, hf⟩
  · exact hmem

theorem Orderly.holds_iff (hr : r.Orderly) : r.Holds f ↔ r.function? f.hash = some f := by
  refine ⟨fun ⟨h, hf⟩ => ?_, fun hf => ⟨f.hash, hf⟩⟩
  rwa [(hr.made h f hf).1]

/-- What the operator index of a type is built from. -/
theorem Orderly.mem_indexed (hr : r.Orderly) (hkind : f.kind ≠ .method) :
    f ∈ r.indexed owner ↔ r.Holds f ∧ f.owner = some owner := by
  rw [indexed_eq, mem_filterMap]
  constructor
  · rintro ⟨h, hmem, hf⟩
    refine ⟨⟨h, hf⟩, ?_⟩
    cases ht : r.type? owner with
    | none =>
      rw [ht] at hmem
      cases hmem
    | some t =>
      rw [ht] at hmem
      obtain ⟨g, hg, howner⟩ := hr.owned owner t h ht hmem
      rw [hf] at hg
      cases hg
      exact howner
  · rintro ⟨⟨h, hf⟩, howner⟩
    obtain ⟨t, ht, hmem⟩ := hr.listed h f owner hf howner hkind
    exact ⟨h, by rw [ht]; exact hmem, hf⟩

end Registry

end StackCode
