import StackCode.Proofs.OperatorLookup

/-!
# Resolution of conversions

A conversion is made by the first of a few rules that applies. Which rules apply is a matter of what
is registered, and not of the order in which it was registered or of what was looked up in between:
the rules speak of kinds of types, of bases, and of functions with certain signatures.
-/

namespace StackCode

open List ConversionRule Std.TreeMap Request TypeDecl

variable {rule : ConversionRule} {r r' : Registry} {source target hash : TypeHash}
  {es es' : List Entry}
  {k : Conversion} {t : TypeDecl}

/-! ### Rules that apply -/

/-- A rule applies to two types. Operators and constructors are registered functions with exactly
the owner and the types that are asked for. -/
inductive Registry.Applies (r : Registry) (source target : TypeHash) : ConversionRule → Prop
  | identity (h : r.assignable source target) : Applies r source target .identity
  | box (htarget : target = .object) (hsource : r.isValueType source) : Applies r source target
    (.box source)
  | unbox (hsource : source = .object) (htarget : r.isValueType target) : Applies r source target
    (.unbox target)
  | operator {f declaring op} (hdeclaring : declaring = source ∨ declaring = target)
      (hf : r.HasConversion declaring op source target f) :
      Applies r source target (.operator f.hash declaring op)
  | constructor {f} (hf : r.HasConstructor target [source] f) : Applies r source target
    (.constructor f.hash)
  | cast (hsource : r.isReferenceType source) (htarget : r.isReferenceType target) :
      Applies r source target (.cast target)

/-- The priority of a rule: identity, boxing, unboxing, the operators of the source, those of the
target, constructors, casts. Of the operators of one type the explicit one comes first. -/
def ConversionRule.rank (source : TypeHash) : ConversionRule → Nat
  | .identity => 0
  | .box _ => 1
  | .unbox _ => 2
  | .operator _ declaring .explicit => if declaring = source then 3 else 5
  | .operator _ declaring .implicit => if declaring = source then 4 else 6
  | .constructor _ => 7
  | .cast _ => 8

theorem ConversionRule.rank_lt (source : TypeHash) (rule : ConversionRule) :
    rule.rank source < 9 := by
  cases rule with
  | operator f declaring op => cases op <;> simp only [rank] <;> split <;> decide
  | _ => simp [rank]

theorem ConversionRule.eq_identity_of_rank (h : rule.rank source = 0) : rule = .identity := by
  cases rule with
  | identity => rfl
  | operator f declaring op => cases op <;> simp only [rank] at h <;> split at h <;> cases h
  | _ => cases h

namespace Registry

/-! ### The rule that is chosen -/

/-- The rule of a priority, if it applies. -/
def attempt (r : Registry) (source target : TypeHash) : Nat → Option ConversionRule
  | 0 => if r.assignable source target then some .identity else none
  | 1 => if target == .object && r.isValueType source then some (.box source) else none
  | 2 => if source == .object && r.isValueType target then some (.unbox target) else none
  | 3 =>
    (r.conversion? source .explicit source target).map fun f => .operator f.hash source .explicit
  | 4 =>
    (r.conversion? source .implicit source target).map fun f => .operator f.hash source .implicit
  | 5 =>
    (r.conversion? target .explicit source target).map fun f => .operator f.hash target .explicit
  | 6 =>
    (r.conversion? target .implicit source target).map fun f => .operator f.hash target .implicit
  | 7 => r.convertingConstructor? source target
  | 8 => r.cast? source target
  | _ => none

theorem conversionRule?_eq_findSome? (hsrc : source ≠ .void) (htgt : target ≠ .void) :
    r.conversionRule? source target = (List.range 9).findSome? (r.attempt source target) := by
  have hrange : List.range 9 = [0, 1, 2, 3, 4, 5, 6, 7, 8] := by decide
  rw [conversionRule?, if_neg (by simp [hsrc, htgt]), hrange]
  simp only [findSome?_cons, attempt, userOperator?, findSome?_nil]
  split
  · rfl
  split
  · rfl
  split
  · rfl
  cases r.conversion? source .explicit source target <;> cases r.conversion? source .implicit source
    target <;>
    cases r.conversion? target .explicit source target <;>
    cases r.conversion? target .implicit source target <;>
    cases r.convertingConstructor? source target <;> cases r.cast? source target <;> rfl

/-- An attempt gives a rule that applies and has the priority. -/
theorem Orderly.attempt_eq_some_iff (hr : r.Orderly) (hne : source ≠ target) {n : Nat} :
    r.attempt source target n = some rule ↔ r.Applies source target rule ∧
    rule.rank source = n := by
  have hconv : ∀ declaring op, (declaring = source ∨ declaring = target) →
      ((r.conversion? declaring op source target).map fun f =>
        operator f.hash declaring op) = some rule →
      r.Applies source target rule ∧ ∃ f, rule = .operator f declaring op := by
    intro declaring op hdeclaring h
    obtain ⟨f, hf, rfl⟩ := Option.map_eq_some_iff.mp h
    exact ⟨.operator hdeclaring ((hr.conversion?_eq_some_iff ..).mp hf), _, rfl⟩
  constructor
  · intro h
    unfold attempt at h
    split at h
    · split at h <;> cases h
      exact ⟨.identity ‹_›, rfl⟩
    · split at h <;> cases h
      rename_i hbox
      simp only [Bool.and_eq_true, beq_iff_eq] at hbox
      exact ⟨.box hbox.1 hbox.2, rfl⟩
    · split at h <;> cases h
      rename_i hunbox
      simp only [Bool.and_eq_true, beq_iff_eq] at hunbox
      exact ⟨.unbox hunbox.1 hunbox.2, rfl⟩
    · obtain ⟨happ, f, rfl⟩ := hconv _ _ (.inl rfl) h
      exact ⟨happ, if_pos rfl⟩
    · obtain ⟨happ, f, rfl⟩ := hconv _ _ (.inl rfl) h
      exact ⟨happ, if_pos rfl⟩
    · obtain ⟨happ, f, rfl⟩ := hconv _ _ (.inr rfl) h
      exact ⟨happ, if_neg hne.symm⟩
    · obtain ⟨happ, f, rfl⟩ := hconv _ _ (.inr rfl) h
      exact ⟨happ, if_neg hne.symm⟩
    · obtain ⟨f, hf, rfl⟩ := Option.map_eq_some_iff.mp h
      exact ⟨.constructor ((hr.constructor?_eq_some_iff ..).mp hf), rfl⟩
    · unfold cast? at h
      split at h <;> cases h
      rename_i hcast
      obtain ⟨hsrc, htgt⟩ := Bool.and_eq_true_iff.mp hcast
      exact ⟨.cast hsrc htgt, rfl⟩
    · cases h
  · rintro ⟨happ, rfl⟩
    cases happ with
    | identity h => exact if_pos h
    | box htgt hsrc => exact if_pos (by simp [htgt, hsrc])
    | unbox hsrc htgt => exact if_pos (by simp [hsrc, htgt])
    | @operator f declaring op hdeclaring hf =>
      have hf := (hr.conversion?_eq_some_iff ..).mpr hf
      rcases hdeclaring with rfl | rfl <;> cases op <;> simp [rank, attempt, hf, hne.symm]
    | constructor hf =>
      have hf := (hr.constructor?_eq_some_iff ..).mpr hf
      simp [rank, attempt, convertingConstructor?, hf]
    | cast hsrc htgt => simp [rank, attempt, cast?, hsrc, htgt]

/-- The first of some attempts that gives something. -/
theorem findSome?_range_eq_some_iff {α : Type} {f : Nat → Option α} {n : Nat} {a : α} :
    (List.range n).findSome? f = some a ↔ ∃ i < n, f i = some a ∧ ∀ j < i, f j = none := by
  induction n with
  | zero => simp
  | succ n ih =>
    rw [range_succ, findSome?_append, Option.or_eq_some_iff, ih]
    constructor
    · rintro (⟨i, hi, hfound⟩ | ⟨hnone, hlast⟩)
      · exact ⟨i, by omega, hfound⟩
      · rw [findSome?_eq_none_iff] at hnone
        refine ⟨n, by omega, by simpa using hlast, fun j hj => hnone j (mem_range.mpr hj)⟩
    · rintro ⟨i, hi, hfound, hfirst⟩
      rcases Nat.lt_succ_iff_lt_or_eq.mp hi with hi | rfl
      · exact .inl ⟨i, hi, hfound, hfirst⟩
      · refine .inr ⟨?_, by simpa using hfound⟩
        rw [findSome?_eq_none_iff]
        exact fun j hj => hfirst j (mem_range.mp hj)

/-- A rule is the first one that applies. -/
structure First (r : Registry) (source target : TypeHash) (rule : ConversionRule) : Prop where
  source_ne : source ≠ .void
  target_ne : target ≠ .void
  applies : r.Applies source target rule
  first : ∀ rule', r.Applies source target rule' → rule.rank source ≤ rule'.rank source

/-- What is chosen is the first rule that applies. -/
theorem Orderly.conversionRule?_eq_some_iff (hr : r.Orderly) :
    r.conversionRule? source target = some rule ↔ r.First source target rule := by
  by_cases hvoid : source = .void ∨ target = .void
  · rw [conversionRule?, if_pos (by simpa using hvoid)]
    refine ⟨fun h => (by cases h), fun h => ?_⟩
    rcases hvoid with hvoid | hvoid
    · exact absurd hvoid h.source_ne
    · exact absurd hvoid h.target_ne
  obtain ⟨hsrc, htgt⟩ := not_or.mp hvoid
  by_cases heq : source = target
  · -- every type is assignable to itself
    have hself : r.assignable source target := by simp [assignable, heq]
    rw [conversionRule?, if_neg (by simp [hsrc, htgt]), if_pos hself]
    constructor
    · intro h
      cases h
      exact ⟨hsrc, htgt, .identity hself, fun _ _ => Nat.zero_le _⟩
    · intro h
      rw [eq_identity_of_rank (Nat.le_zero.mp (h.first _ (.identity hself)))]
  · rw [conversionRule?_eq_findSome? hsrc htgt, findSome?_range_eq_some_iff]
    constructor
    · rintro ⟨n, -, hrule, hfirst⟩
      obtain ⟨happ, rfl⟩ := (hr.attempt_eq_some_iff heq).mp hrule
      refine ⟨hsrc, htgt, happ, fun rule' happ' => Nat.le_of_not_lt fun hlt => ?_⟩
      have hrule' := (hr.attempt_eq_some_iff heq).mpr ⟨happ', rfl⟩
      rw [hfirst _ hlt] at hrule'
      cases hrule'
    · intro h
      refine ⟨rule.rank source, rule.rank_lt source,
        (hr.attempt_eq_some_iff heq).mpr ⟨h.applies, rfl⟩, fun n hn => ?_⟩
      cases hrule' : r.attempt source target n with
      | none => rfl
      | some rule' =>
        obtain ⟨happ, rfl⟩ := (hr.attempt_eq_some_iff heq).mp hrule'
        exact absurd (h.first rule' happ) (Nat.not_le.mpr hn)

theorem resolve_eq_ok_iff_rule : r.resolve source target = .ok k ↔
    k.source = source ∧ k.target = target ∧ r.conversionRule? source target = some k.rule := by
  unfold resolve
  cases r.conversionRule? source target with
  | none => simp
  | some rule =>
    obtain ⟨s, t, rule'⟩ := k
    simp only [Except.ok.injEq, Conversion.mk.injEq, Option.some.injEq]
    exact ⟨fun ⟨h, h', h''⟩ => ⟨h.symm, h'.symm, h''⟩, fun ⟨h, h', h''⟩ => ⟨h.symm, h'.symm, h''⟩⟩

theorem Orderly.resolve_eq_ok_iff (hr : r.Orderly) : r.resolve source target = .ok k ↔
      k.source = source ∧ k.target = target ∧ r.First source target k.rule := by
  rw [resolve_eq_ok_iff_rule, hr.conversionRule?_eq_some_iff]

/-- A conversion is refused if no rule applies. -/
theorem Orderly.resolve_eq_error_iff (hr : r.Orderly) {e : EmitError} :
    r.resolve source target = .error e ↔
      e = .noConversion (r.typeName source) (r.typeName target) ∧
        (source = .void ∨ target = .void ∨ ∀ rule, ¬r.Applies source target rule) := by
  have hnone : r.conversionRule? source target = none ↔
      source = .void ∨ target = .void ∨ ∀ rule, ¬r.Applies source target rule := by
    by_cases hvoid : source = .void ∨ target = .void
    · rw [conversionRule?, if_pos (by simpa using hvoid), ← or_assoc]
      exact ⟨fun _ => .inl hvoid, fun _ => rfl⟩
    rw [← or_assoc, or_iff_right hvoid]
    obtain ⟨hsrc, htgt⟩ := not_or.mp hvoid
    constructor
    · intro hnone rule happ
      by_cases heq : source = target
      · have hself : r.assignable source target := by simp [assignable, heq]
        rw [conversionRule?, if_neg (by simp [hsrc, htgt]), if_pos hself] at hnone
        cases hnone
      · rw [conversionRule?_eq_findSome? hsrc htgt, List.findSome?_eq_none_iff] at hnone
        have hattempt := (hr.attempt_eq_some_iff heq).mpr ⟨happ, rfl⟩
        rw [hnone _ (List.mem_range.mpr (rule.rank_lt source))] at hattempt
        cases hattempt
    · intro hnot
      cases hrule : r.conversionRule? source target with
      | none => rfl
      | some rule => exact absurd (hr.conversionRule?_eq_some_iff.mp hrule).applies (hnot rule)
  rw [← hnone]
  unfold resolve
  cases r.conversionRule? source target with
  | none => simp [eq_comm]
  | some rule => simp

/-! ### Registries with the same types -/

end Registry

/-- What the rules can see of a type. -/
def TypeDecl.profile (t : TypeDecl) : String × TypeHash × TypeKind × Option TypeHash :=
  (t.name, t.hash, t.kind, t.base)

namespace Registry

/-- The same types are registered, apart from the functions that they list. -/
def SameTypes (r r' : Registry) : Prop :=
  ∀ h, (r.type? h).map TypeDecl.profile = (r'.type? h).map TypeDecl.profile

namespace SameTypes

section

variable (h : r.SameTypes r')
include h

theorem symm : r'.SameTypes r := fun hash => (h hash).symm

theorem map_eq {α : Type} (f : String × TypeHash × TypeKind × Option TypeHash → α)
    (hash : TypeHash) :
    (r.type? hash).map (fun t => f t.profile) = (r'.type? hash).map fun t => f t.profile := by
  simpa only [Option.map_map, Function.comp_def] using congrArg (Option.map f) (h hash)

theorem kind?_eq (hash : TypeHash) : r.kind? hash = r'.kind? hash :=
  h.map_eq (fun p => p.2.2.1) hash

theorem isValueType_eq (hash : TypeHash) : r.isValueType hash = r'.isValueType hash := by
  rw [isValueType, isValueType, h.kind?_eq]

theorem isReferenceType_eq (hash : TypeHash) :
    r.isReferenceType hash = r'.isReferenceType hash := by
  rw [isReferenceType, isReferenceType, h.kind?_eq]

theorem typeName_eq (hash : TypeHash) : r.typeName hash = r'.typeName hash := by
  have hname := h.map_eq Prod.fst hash
  unfold typeName
  cases ht : r.type? hash <;> cases ht' : r'.type? hash <;> rw [ht, ht'] at hname <;>
    simp_all [profile]

theorem size_eq : r.types.size = r'.types.size := by
  rw [← length_keys, ← length_keys]
  refine Perm.length_eq ((perm_ext_iff_of_nodup nodup_keys nodup_keys).mpr fun hash => ?_)
  have hsome := congrArg Option.isSome (h hash)
  simp only [Option.isSome_map, type?] at hsome
  rw [Std.TreeMap.mem_keys, Std.TreeMap.mem_keys, Std.TreeMap.mem_iff_isSome_getElem?,
    Std.TreeMap.mem_iff_isSome_getElem?, hsome]

theorem chainFrom_eq (fuel : Nat) (hash : TypeHash) :
    (r.chainFrom fuel hash).map profile = (r'.chainFrom fuel hash).map profile := by
  induction fuel generalizing hash with
  | zero => rfl
  | succ fuel ih =>
    have hprof := h hash
    rw [chainFrom, chainFrom]
    cases ht : r.type? hash with
    | none =>
      cases ht' : r'.type? hash with
      | none => rfl
      | some t' => simp [ht, ht'] at hprof
    | some t =>
      cases ht' : r'.type? hash with
      | none => simp [ht, ht'] at hprof
      | some t' =>
        rw [ht, ht'] at hprof
        have hprof : t.profile = t'.profile := Option.some.inj hprof
        have hbase : t.base = t'.base := congrArg (fun p => p.2.2.2) hprof
        simp only [map_cons, hprof, hbase]
        cases t'.base with
        | none => rfl
        | some base => simp only [ih base]

theorem assignable_eq (source target : TypeHash) :
    r.assignable source target = r'.assignable source target := by
  have hchain : (r.baseChain source).map profile = (r'.baseChain source).map profile := by
    rw [baseChain, baseChain, h.size_eq, h.chainFrom_eq]
  have hany : (r.baseChain source).any (fun t => t.hash == target) =
      (r'.baseChain source).any fun t => t.hash == target := by
    have hmap := congrArg (List.any · fun p => p.2.1 == target) hchain
    simp only [List.any_map] at hmap
    exact hmap
  rw [assignable, assignable, h.isReferenceType_eq, h.isReferenceType_eq, hany]

end

end SameTypes

/-- Identity, boxing and unboxing apply in both registries or in none. -/
theorem SameTypes.applies_of_rank (h : r.SameTypes r') (hrank : rule.rank source ≤ 2)
    (happ : r.Applies source target rule) :
    r'.Applies source target rule := by
  cases happ with
  | identity hassign => exact .identity (h.assignable_eq .. ▸ hassign)
  | box htgt hsrc => exact .box htgt (h.isValueType_eq _ ▸ hsrc)
  | unbox hsrc htgt => exact .unbox hsrc (h.isValueType_eq _ ▸ htgt)
  | @operator f declaring op =>
    cases op <;> simp only [rank] at hrank <;> split at hrank <;> omega
  | constructor | cast => simp [rank] at hrank

/-- Identity, boxing and unboxing do not depend on functions. -/
theorem SameTypes.first_of_rank (h : r.SameTypes r') (hrank : rule.rank source ≤ 2)
    (hfirst : r.First source target rule) :
    r'.First source target rule := by
  refine ⟨hfirst.source_ne, hfirst.target_ne, h.applies_of_rank hrank hfirst.applies,
    fun rule' happ => ?_⟩
  by_cases hrank' : rule'.rank source ≤ 2
  · exact hfirst.first rule' (h.symm.applies_of_rank hrank' happ)
  · omega

/-- More functions are registered, with the same types. -/
structure Richer (r r' : Registry) : Prop where
  types : r.SameTypes r'
  functions : ∀ f, r.Holds f → r'.Holds f

/-- What applies still applies when there are more functions. -/
theorem Richer.applies (h : r.Richer r') (happ : r.Applies source target rule) :
    r'.Applies source target rule := by
  cases happ with
  | operator hdeclaring hf => exact .operator hdeclaring ⟨h.functions _ hf.1, hf.2⟩
  | constructor hf => exact .constructor ⟨h.functions _ hf.1, hf.2⟩
  | cast hsrc htgt =>
    exact .cast (h.types.isReferenceType_eq _ ▸ hsrc) (h.types.isReferenceType_eq _ ▸ htgt)
  | identity hassign => exact h.types.applies_of_rank (by simp [rank]) (.identity hassign)
  | box htgt hsrc => exact h.types.applies_of_rank (by simp [rank]) (.box htgt hsrc)
  | unbox hsrc htgt => exact h.types.applies_of_rank (by simp [rank]) (.unbox hsrc htgt)

/-- The same types and functions are registered. -/
structure Alike (r r' : Registry) : Prop where
  types : r.SameTypes r'
  functions : ∀ f, r.Holds f ↔ r'.Holds f

/-- Registries with the same declarations resolve alike. -/
theorem Alike.resolve_eq (h : r.Alike r') (hr : r.Orderly) (hr' : r'.Orderly)
    (source target : TypeHash) : r.resolve source target = r'.resolve source target := by
  have hforth : r.Richer r' := ⟨h.types, fun f => (h.functions f).mp⟩
  have hback : r'.Richer r := ⟨h.types.symm, fun f => (h.functions f).mpr⟩
  cases hk : r.resolve source target with
  | ok k =>
    obtain ⟨hsrc, htgt, hfirst⟩ := hr.resolve_eq_ok_iff.mp hk
    exact (hr'.resolve_eq_ok_iff.mpr ⟨hsrc, htgt, hfirst.source_ne, hfirst.target_ne,
      hforth.applies hfirst.applies, fun rule happ => hfirst.first rule (hback.applies happ)⟩).symm
  | error e =>
    obtain ⟨rfl, hnone⟩ := hr.resolve_eq_error_iff.mp hk
    refine (hr'.resolve_eq_error_iff.mpr ⟨?_, hnone.imp_right fun hnone => hnone.imp_right
      fun hnone rule happ => hnone rule (hback.applies happ)⟩).symm
    rw [h.types.typeName_eq, h.types.typeName_eq]

/-- What can be resolved stays so when functions are added, and identity, boxing and unboxing stay
what they are. -/
theorem Richer.resolve (h : r.Richer r') (hr : r.Orderly) (hr' : r'.Orderly)
    (source target : TypeHash) :
    (∀ k, r.resolve source target = .ok k → ∃ k', r'.resolve source target = .ok k') ∧
      ∀ k, k.rule.rank source ≤ 2 → (r.resolve source target = .ok k ↔
        r'.resolve source target = .ok k) := by
  refine ⟨fun k hk => ?_, fun k hrank => ?_⟩
  · obtain ⟨-, -, hfirst⟩ := hr.resolve_eq_ok_iff.mp hk
    cases hk' : r'.resolve source target with
    | ok k' => exact ⟨k', rfl⟩
    | error e =>
      obtain ⟨-, hvoid | hvoid | hnone⟩ := hr'.resolve_eq_error_iff.mp hk'
      · exact absurd hvoid hfirst.source_ne
      · exact absurd hvoid hfirst.target_ne
      · exact absurd (h.applies hfirst.applies) (hnone _)
  · rw [hr.resolve_eq_ok_iff, hr'.resolve_eq_ok_iff]
    refine and_congr_right fun _ => and_congr_right fun _ => ⟨?_, ?_⟩
    · exact h.types.first_of_rank hrank
    · exact h.types.symm.first_of_rank hrank

end Registry

/-! ### Accepted declarations -/

/-- What can be entered into a registry. -/
inductive Entry
  | type (t : TypeDecl)
  | function (f : FunctionDecl)
  deriving DecidableEq

namespace Registry

/-- The type as an entry, unless it is refused. -/
def typeEntry? (r : Registry) (t : TypeDecl) : Option Entry :=
  match (r.registerType t).1 with
  | .ok _ => some (.type t)
  | .error _ => none

/-- The function as an entry, unless it is refused. -/
def functionEntry? (r : Registry) (f : FunctionDecl) : Option Entry :=
  match (r.registerFunction f).1 with
  | .ok _ => some (.function f)
  | .error _ => none

/-- What a request enters into a registry that has the built-in types, if it is not refused. -/
def entry? (r : Registry) : Request → Option Entry
  | .type t => r.typeEntry? t
  | .array element =>
    if r.containsType (.arrayOf element) then none
    else r.type? element >>= fun t => r.typeEntry? (.array t.name element)
  | .function f => r.functionEntry? f
  | .primitives | .operators _ | .constructor _ _ | .conversion _ _ _ _ => none

end Registry

namespace Request

/-- The registry that requests lead to from the built-in types. -/
def extended (requests : List Request) : Registry := requests.foldl Registry.after .withPrimitives

/-- What requests enter into a registry, one after the other. -/
def entries (r : Registry) : List Request → List Entry
  | [] => []
  | q :: qs => (r.entry? q).toList ++ entries (r.after q) qs

end Request

namespace Registry

/-- Besides the built-in types a registry has what was entered, and nothing else. -/
structure Collects (r : Registry) (es : List Entry) : Prop where
  entered : ∀ t, t ∈ builtins ∨ .type t ∈ es →
    (r.type? t.hash).map TypeDecl.profile = some t.profile
  types : ∀ h t, r.type? h = some t → ∃ t₀, (t₀ ∈ builtins ∨ .type t₀ ∈ es) ∧ t₀.hash = h
  functions : ∀ f, r.Holds f ↔ .function f ∈ es

/-- The entries determine what is seen of the types. -/
theorem Collects.sameTypes (h : r.Collects es) (h' : r'.Collects es')
    (hsame : ∀ t, .type t ∈ es ↔ .type t ∈ es') : r.SameTypes r' := by
  have hmap : ∀ {r r' : Registry} {es es' : List Entry}, r.Collects es → r'.Collects es' →
      (∀ t, .type t ∈ es → .type t ∈ es') → ∀ hash t, r.type? hash = some t →
      (r'.type? hash).map profile = some t.profile := by
    intro r r' es es' h h' hsub hash t ht
    obtain ⟨t₀, ht₀, rfl⟩ := h.types hash t ht
    rw [h'.entered t₀ (ht₀.imp_right (hsub t₀)), ← h.entered t₀ ht₀, ht]
    rfl
  intro hash
  cases ht : r.type? hash with
  | some t => exact (hmap h h' (fun t => (hsame t).mp) hash t ht).symm
  | none =>
    cases ht' : r'.type? hash with
    | none => rfl
    | some t' =>
      have hprof := hmap h' h (fun t => (hsame t).mpr) hash t' ht'
      rw [ht] at hprof
      cases hprof

theorem collects_withPrimitives : withPrimitives.Collects [] := by
  have hchanges : Changes (· ∈ builtins) (fun _ => False) .empty withPrimitives :=
    changes_registerPrimitives fun _ ht => ht
  have honly : (∀ h t, withPrimitives.type? h = some t → ∃ t₀ ∈ builtins, t₀.hash = h) ∧
      ∀ f, ¬withPrimitives.Holds f := by
    refine hchanges.preserves (motive := fun r => (∀ h t, r.type? h = some t →
      ∃ t₀ ∈ builtins, t₀.hash = h) ∧ ∀ f, ¬r.Holds f) (fun ih hchg => ?_) ?_
    · refine ⟨fun h u hu => ?_, fun f ⟨h, hf⟩ => ?_⟩
      · rcases hchg.of_type? hu with ⟨t, ht, -⟩ | ⟨t, hmem, -, -, hhash, -⟩
        · exact ih.1 h t ht
        · exact ⟨t, hmem, hhash⟩
      · rcases hchg.of_function? hf with hf | ⟨hsort, -⟩
        · exact ih.2 f ⟨h, hf⟩
        · exact hsort
    · simp [Holds, Registry.empty, type?, function?]
  refine ⟨fun t ht => ?_, fun h t ht => ?_, fun f => by simp [honly.2]⟩
  · have hall : ∀ t ∈ builtins, (withPrimitives.type? t.hash).map profile = some t.profile := by
      decide +kernel
    exact hall t (ht.resolve_right (by simp))
  · obtain ⟨t₀, hmem, hhash⟩ := honly.1 h t ht
    exact ⟨t₀, .inl hmem, hhash⟩

section

variable (h : r.Collects es)
include h

theorem Collects.registerPrimitives_eq : r.registerPrimitives = r := by
  have hknown : ∀ t ∈ builtins, r.containsType t.hash := by
    intro t ht
    have hprof := h.entered t (.inl ht)
    have hsome : (r.type? t.hash).isSome := by
      rw [← Option.isSome_map (f := profile), hprof]
      rfl
    rwa [type?, ← contains_eq_isSome_getElem?] at hsome
  unfold registerPrimitives
  generalize builtins = ts at hknown
  induction ts with
  | nil => rfl
  | cons t ts ih =>
    obtain ⟨ht, hts⟩ := forall_mem_cons.mp hknown
    rw [foldl_cons, addBuiltin, if_pos ht, ih hts]

/-- A new type with the profile of a declaration. -/
theorem Collects.insertType {u : TypeDecl} (hfresh : r.type? t.hash = none)
    (hprof : u.profile = t.profile) (htys : r'.types = r.types.insert t.hash u)
    (hfuns : r'.functions = r.functions) : r'.Collects (es ++ [.type t]) := by
  have htype := type?_insert htys
  refine ⟨fun t₀ ht₀ => ?_, fun hash t₀ ht₀ => ?_, fun f => ?_⟩
  · simp only [List.mem_append, List.mem_singleton, Entry.type.injEq, ← or_assoc] at ht₀
    rw [htype]
    rcases ht₀ with hold | rfl
    · have hentered := h.entered t₀ hold
      rw [if_neg, hentered]
      intro heq
      rw [← heq, hfresh] at hentered
      cases hentered
    · rw [if_pos rfl, Option.map_some, hprof]
  · rw [htype] at ht₀
    split at ht₀
    · exact ⟨t, .inr (by simp), ‹_›⟩
    · obtain ⟨t₁, hmem, hhash⟩ := h.types hash t₀ ht₀
      exact ⟨t₁, hmem.imp_right (List.mem_append_left _), hhash⟩
  · have hholds : r'.Holds f ↔ r.Holds f := by simp only [Holds, function?, hfuns]
    simp [hholds, h.functions]

theorem Collects.registerType (t : TypeDecl) :
    (r.registerType t).2.Collects (es ++ (r.typeEntry? t).toList) := by
  unfold typeEntry?
  rcases r.registerType_cases t with ⟨e, hcase⟩ | ⟨hcase, hrefusal⟩ <;> rw [hcase]
  · simpa using h
  · exact h.insertType (u := r.laidOut t) (type?_eq_none (typeRefusal?_none hrefusal).1) rfl rfl rfl

theorem Collects.insertFunction {f : FunctionDecl} (hnew : r'.function? f.hash = some f)
    (hchg : Change (fun _ => False) (· = f) r r') : r'.Collects (es ++ [.function f]) := by
  have htys : r.SameTypes r' := by
    intro hash
    cases hu : r'.type? hash with
    | none =>
      cases ht : r.type? hash with
      | none => rfl
      | some t =>
        obtain ⟨u, hu', -⟩ := hchg.type? ht
        rw [hu] at hu'
        cases hu'
    | some u =>
      rcases hchg.of_type? hu with ⟨t, ht, hgrows⟩ | ⟨_, hsort, -⟩
      · rw [ht, hgrows.same]
        rfl
      · cases hsort
  refine ⟨fun t ht => ?_, fun hash t ht => ?_, fun g => ?_⟩
  · rw [← htys]
    exact h.entered t (by simpa using ht)
  · rcases hchg.of_type? ht with ⟨t', ht', -⟩ | ⟨_, hsort, -⟩
    · obtain ⟨t₀, hmem, hhash⟩ := h.types hash t' ht'
      exact ⟨t₀, hmem.imp_right (mem_append_left _), hhash⟩
    · cases hsort
  · rw [mem_append, ← h.functions, mem_singleton, Entry.function.injEq]
    constructor
    · rintro ⟨hash, hg⟩
      exact (hchg.of_function? hg).imp (fun hg => ⟨hash, hg⟩) And.left
    · rintro (⟨hash, hg⟩ | rfl)
      · exact ⟨hash, hchg.function? hg⟩
      · exact ⟨g.hash, hnew⟩

theorem Collects.registerFunction (f : FunctionDecl) :
    (r.registerFunction f).2.Collects (es ++ (r.functionEntry? f).toList) := by
  unfold functionEntry?
  rcases r.registerFunction_cases (f := f) (F := (· = f)) rfl with
    ⟨e, hcase⟩ | ⟨r', hcase, hnew, hchg⟩ <;> rw [hcase]
  · simpa using h
  · exact h.insertFunction hnew hchg

theorem Collects.remember (owner : TypeHash) : (r.remember owner).Collects es :=
  ⟨h.entered, h.types, h.functions⟩

theorem Collects.after (q : Request) : (r.after q).Collects (es ++ (r.entry? q).toList) := by
  have hsame : r.Collects (es ++ []) := by rwa [append_nil]
  cases q with
  | primitives =>
    show r.registerPrimitives.Collects _
    rwa [h.registerPrimitives_eq]
  | type t => exact h.registerType t
  | array element =>
    show (r.registerArray element).2.Collects _
    unfold entry? registerArray
    dsimp only
    split
    · exact hsame
    · cases r.type? element with
      | none => exact hsame
      | some t => exact h.registerType _
  | function f => exact h.registerFunction f
  | operators owner | constructor owner _ | conversion owner _ _ _ => exact hsame.remember owner

theorem Collects.foldl (requests : List Request) :
    (requests.foldl Registry.after r).Collects (es ++ entries r requests) := by
  induction requests generalizing r es with
  | nil => simpa [entries] using h
  | cons q qs ih =>
    rw [foldl_cons, entries, ← append_assoc]
    exact ih (h.after q)

end

theorem collects_extended (requests : List Request) :
    (extended requests).Collects (entries .withPrimitives requests) :=
  collects_withPrimitives.foldl requests

theorem orderly_extended {requests : List Request} (hmade : ∀ q ∈ requests, q.Made) :
    (extended requests).Orderly :=
  have hall : ∀ q ∈ primitives :: requests, q.Made := forall_mem_cons.mpr ⟨trivial, hmade⟩
  orderly_registry hall

theorem entries_functions (r : Registry) (fs : List FunctionDecl) (t : TypeDecl) :
    .type t ∉ entries r (fs.map .function) := by
  induction fs generalizing r with
  | nil => simp [entries]
  | cons f fs ih =>
    rw [map_cons, entries, mem_append, not_or]
    refine ⟨?_, ih _⟩
    rw [show r.entry? (.function f) = r.functionEntry? f from rfl, functionEntry?]
    cases (r.registerFunction f).1 <;> simp

/-- Conversions are resolved by priority, whatever was declared and looked up before: what is chosen
is the first rule that applies, and a conversion is refused if and only if none applies or one of
the types is void. Requests that enter the same types and functions, in any order and with any
lookups between them, lead to the same answers. Further functions never make a conversion fail that
was possible, and they neither bring about nor change identity, boxing and unboxing, which are the
rules of rank at most two. -/
theorem conversions_follow_priority {requests : List Request} (hmade : ∀ q ∈ requests, q.Made) :
    (∀ source target k, (Request.extended requests).resolve source target = .ok k ↔
      k.source = source ∧ k.target = target ∧
        (Request.extended requests).First source target k.rule) ∧
    (∀ source target e, (Request.extended requests).resolve source target = .error e ↔
      e = .noConversion ((Request.extended requests).typeName source)
          ((Request.extended requests).typeName target) ∧
        (source = .void ∨ target = .void ∨
          ∀ rule, ¬(Request.extended requests).Applies source target rule)) ∧
    (∀ requests', (∀ q ∈ requests', q.Made) →
      (Request.entries .withPrimitives requests').Perm (Request.entries .withPrimitives requests) →
      ∀ source target, (Request.extended requests').resolve source target =
        (Request.extended requests).resolve source target) ∧
    ∀ fs : List FunctionDecl, (∀ f ∈ fs, f.Made) → ∀ source target,
      (∀ k, (Request.extended requests).resolve source target = .ok k →
        ∃ k', (Request.extended (requests ++ fs.map .function)).resolve source target = .ok k') ∧
      ∀ k, k.rule.rank source ≤ 2 →
        ((Request.extended requests).resolve source target = .ok k ↔
          (Request.extended (requests ++ fs.map .function)).resolve source target = .ok k) := by
  have hr := orderly_extended hmade
  have hcollects := collects_extended requests
  refine ⟨fun source target k => hr.resolve_eq_ok_iff, fun source target e =>
    hr.resolve_eq_error_iff,
    fun requests' hmade' hperm => ?_, fun fs hfs => ?_⟩
  · have hcollects' := collects_extended requests'
    refine Alike.resolve_eq ⟨hcollects'.sameTypes hcollects fun t => hperm.mem_iff, fun f => ?_⟩
      (orderly_extended hmade') hr
    rw [hcollects'.functions, hcollects.functions, hperm.mem_iff]
  · have hmore := hcollects.foldl (fs.map .function)
    rw [Request.extended, ← List.foldl_append] at hmore
    have hmade' : ∀ q ∈ requests ++ fs.map .function, q.Made := by
      intro q hq
      rcases List.mem_append.mp hq with hq | hq
      · exact hmade q hq
      · obtain ⟨f, hf, rfl⟩ := List.mem_map.mp hq
        exact hfs f hf
    refine Richer.resolve ⟨hcollects.sameTypes hmore fun t => ?_, fun f hf => ?_⟩ hr
      (orderly_extended hmade')
    · rw [List.mem_append, or_iff_left (entries_functions _ fs t)]
    · exact (hmore.functions f).mpr (List.mem_append_left _ ((hcollects.functions f).mp hf))

end Registry

/-! ### Lengths -/

namespace Lengths

/-- Two types of lengths. -/
def meters : TypeDecl := .named "Meters" (.value 8 8)

@[inherit_doc meters] def feet : TypeDecl := .named "Feet" (.value 8 8)

/-- A length in feet from one in meters, by an operator. -/
def toFeet : FunctionDecl :=
  .conversion feet.hash .implicit ⟨"m", .plain meters.hash, .byValue⟩ (.plain feet.hash)

def newFeet : FunctionDecl := .constructor feet.hash [⟨"m", .plain meters.hash, .byValue⟩]

/-- The constructor is declared first, and missed before that. -/
def requests : List Request :=
  [.type feet, .constructor feet.hash [meters.hash], .function newFeet, .type meters,
    .function toFeet]

/-- The operator is declared first, and looked up before the constructor is declared. -/
def reordered : List Request :=
  [.type meters, .type feet, .function toFeet, .operators feet.hash, .function newFeet]

theorem made : (∀ q ∈ requests, q.Made) ∧ ∀ q ∈ reordered, q.Made := by
  simp only [requests, reordered, forall_mem_cons]
  exact ⟨⟨.named _ _, trivial, .constructor _ _, .named _ _, .conversion _ _ _ _, by simp⟩,
    .named _ _, .named _ _, .conversion _ _ _ _, trivial, .constructor _ _, by simp⟩

/-- The conversion from meters to feet. -/
def conversion : Conversion := ⟨meters.hash, feet.hash, .operator toFeet.hash feet.hash .implicit⟩

theorem evaluation : (entries .withPrimitives reordered).Perm (entries .withPrimitives requests) ∧
      (extended requests).conversionRule? meters.hash feet.hash = some conversion.rule := by
  decide +kernel

/-- The operator is taken rather than the constructor, in whatever order they are declared. -/
theorem operator_comes_before_constructor :
    ((∀ q ∈ requests, q.Made) ∧ ∀ q ∈ reordered, q.Made) ∧
      (Request.entries .withPrimitives reordered).Perm (Request.entries .withPrimitives requests) ∧
      (Request.extended requests).First meters.hash feet.hash conversion.rule ∧
      (Request.extended reordered).resolve meters.hash feet.hash = .ok conversion := by
  obtain ⟨hperm, hrule⟩ := evaluation
  obtain ⟨hok, -, hsame, -⟩ := Registry.conversions_follow_priority made.1
  have hresolve : (Request.extended requests).resolve meters.hash feet.hash = .ok conversion :=
    Registry.resolve_eq_ok_iff_rule.mpr ⟨rfl, rfl, hrule⟩
  exact ⟨made, hperm, ((hok _ _ _).mp hresolve).2.2,
    (hsame reordered made.2 hperm _ _).trans hresolve⟩

end Lengths

end StackCode
