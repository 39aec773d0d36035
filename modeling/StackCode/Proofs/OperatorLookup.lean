import Mathlib.Data.List.Induction
import StackCode.Proofs.Declarations

/-!
# Lookup of constructors and conversions

The operators and constructors of a type are looked up in an index that is built when it is first
needed and kept until a function is added to the type. An answer says no more and no less than what
is registered, whatever was declared or looked up before: signatures determine hashes, and a hash is
taken once.
-/

namespace StackCode

open List OperatorIndex

variable {owner : TypeHash} {answer : OperatorIndex → Option TypeHash} {sort : FunctionDecl → Prop}

/-! ### Answers of an index -/

namespace OperatorIndex

theorem lookup_bind {κ : Type} [BEq κ] [LawfulBEq κ] [DecidableEq κ] (key k : κ) (h : TypeHash)
    (l : List (κ × TypeHash)) :
    (bind key h l).lookup k = if key = k then some h else l.lookup k := by
  rw [bind, lookup_cons]
  by_cases hk : key = k
  · simp [hk]
  · rw [if_neg hk, beq_eq_false_iff_ne.mpr (Ne.symm hk)]
    dsimp only
    induction l with
    | nil => rfl
    | cons e l ih =>
      by_cases he : e.1 = key
      · rw [filter_cons_of_neg (by simp [he]), ih, lookup_cons,
          beq_eq_false_iff_ne.mpr (he ▸ Ne.symm hk)]
      · rw [filter_cons_of_pos (by simp [he]), lookup_cons, lookup_cons, ih]

/-- The function is a constructor with given parameter types. -/
def Constructs (params : List TypeHash) (f : FunctionDecl) : Prop :=
  f.kind = .constructor ∧ f.paramHashes = params

/-- The function is a conversion with one parameter, from one type to another. -/
def Converts (op : ConversionOperator) (source target : TypeHash) (f : FunctionDecl) : Prop :=
  f.kind = .conversion op ∧ f.paramHashes = [source] ∧ f.returns.hash = target

/-- An answer of an index is the hash of the function of a sort that was entered last. -/
structure Answers (answer : OperatorIndex → Option TypeHash) (sort : FunctionDecl → Prop) :
    Prop where
  empty : answer .empty = none
  hit : ∀ (x : OperatorIndex) f, sort f → answer (x.enter f) = some f.hash
  miss : ∀ (x : OperatorIndex) f, ¬sort f → answer (x.enter f) = answer x

theorem answers_constructor (params : List TypeHash) :
    Answers (fun x => x.constructor params) (Constructs params) where
  empty := rfl
  hit x f hf := by
    obtain ⟨hkind, rfl⟩ := hf
    simp only [enter, hkind, constructor, lookup_bind, if_pos]
  miss x f hf := by
    unfold enter
    split
    · rfl
    · rename_i hkind
      simp only [constructor, lookup_bind]
      rw [if_neg fun hparams => hf ⟨hkind, hparams⟩]
    · rfl

theorem answers_conversion (op : ConversionOperator) (source target : TypeHash) :
    Answers (fun x => x.conversion op source target) (Converts op source target) where
  empty := rfl
  hit x f hf := by
    obtain ⟨hkind, hparams, rfl⟩ := hf
    obtain ⟨p, hp⟩ := length_eq_one_iff.mp (Registry.length_of_paramHashes hparams)
    rw [FunctionDecl.paramHashes, hp] at hparams
    cases hparams
    simp only [enter, hkind, hp, conversion, lookup_bind, if_pos]
  miss x f hf := by
    unfold enter
    split
    · rename_i op' p hkind hparams
      simp only [conversion, lookup_bind, Prod.mk.injEq]
      rw [if_neg]
      rintro ⟨rfl, rfl, rfl⟩
      exact hf ⟨hkind, by rw [FunctionDecl.paramHashes, hparams]; rfl, rfl⟩
    · rfl
    · rfl

/-- An index answers with a function that was entered, if functions that answer alike have one
hash. -/
theorem Answers.build_eq_some_iff (h : Answers answer sort) {fs : List FunctionDecl}
    (hone : ∀ f ∈ fs, ∀ g ∈ fs, sort f → sort g → f.hash = g.hash) (hash : TypeHash) :
    answer (build fs) = some hash ↔ ∃ f ∈ fs, sort f ∧ f.hash = hash := by
  -- functions are entered from the left, so the induction takes them off on the right
  induction fs using List.reverseRecOn with
  | nil => simp [build, h.empty]
  | append_singleton fs f ih =>
    have hfs := ih fun g hg g' hg' =>
      hone g (mem_append_left _ hg) g' (mem_append_left _ hg')
    have hlast : f ∈ fs ++ [f] := mem_append_right _ (mem_singleton_self f)
    have hbuild : build (fs ++ [f]) = (build fs).enter f := by simp [build]
    rw [hbuild]
    by_cases hf : sort f
    · rw [h.hit _ f hf]
      constructor
      · intro heq
        exact ⟨f, hlast, hf, Option.some.inj heq⟩
      · rintro ⟨g, hg, hsort, rfl⟩
        rw [hone f hlast g hg hf hsort]
    · rw [h.miss _ f hf, hfs]
      constructor
      · rintro ⟨g, hg, hrest⟩
        exact ⟨g, mem_append_left _ hg, hrest⟩
      · rintro ⟨g, hg, hsort, hgh⟩
        rcases mem_append.mp hg with hg | hg
        · exact ⟨g, hg, hsort, hgh⟩
        · rw [mem_singleton.mp hg] at hsort
          exact absurd hsort hf

end OperatorIndex

open OperatorIndex

/-! ### Signatures determine hashes -/

namespace FunctionDecl.Made

variable {f g : FunctionDecl}

theorem hash_of_constructs (h : f.Made) (howner : f.owner = some owner) {params : List TypeHash}
    (hf : Constructs params f) : f.hash = .ofConstructor owner params := by
  obtain ⟨hkind, rfl⟩ := hf
  cases h with
  | constructor o ps =>
    cases howner
    rfl
  | method | staticMethod | free | conversion => cases hkind

theorem hash_of_converts (h : f.Made) (howner : f.owner = some owner) {op : ConversionOperator}
    {source target : TypeHash} (hf : Converts op source target f) :
    f.hash = .ofOperator owner op.name [source] target := by
  obtain ⟨hkind, hparams, rfl⟩ := hf
  cases h with
  | conversion o op' p t =>
    cases howner
    cases hkind
    cases hparams
    rfl
  | method | staticMethod | free | constructor => cases hkind

end FunctionDecl.Made

/-! ### Answers of a registry -/

namespace Registry

variable {r : Registry}

/-- The answers of the operator index of a type to a question that fixes the hash of a function. -/
theorem Orderly.answer_eq_some_iff (hr : r.Orderly) {hash : TypeHash} (h : Answers answer sort)
    (hkind : ∀ f, sort f → f.kind ≠ .method)
    (hhash : ∀ f, f.Made → f.owner = some owner → sort f → f.hash = hash) (f : FunctionDecl) :
    (answer (r.operatorIndex owner) >>= r.function?) = some f ↔ r.Holds f ∧ f.owner = some owner ∧
    sort f := by
  have hindexed : ∀ g ∈ r.indexed owner, sort g → g.hash = hash := by
    intro g hg hsort
    obtain ⟨⟨h, hfun⟩, howner⟩ := (hr.mem_indexed (hkind g hsort)).mp hg
    exact hhash g (hr.made h g hfun).2 howner hsort
  have hone : ∀ g ∈ r.indexed owner, ∀ g' ∈ r.indexed owner, sort g → sort g' → g.hash = g'.hash :=
    fun g hg g' hg' hsort hsort' => (hindexed g hg hsort).trans (hindexed g' hg' hsort').symm
  have hans := h.build_eq_some_iff hone
  rw [operatorIndex_eq (hr.kept owner), Option.bind_eq_bind, Option.bind_eq_some_iff]
  constructor
  · rintro ⟨h, hh, hf⟩
    obtain ⟨g, hg, hsort, rfl⟩ := (hans h).mp hh
    obtain ⟨hholds, howner⟩ := (hr.mem_indexed (hkind g hsort)).mp hg
    rw [hr.holds_iff, hf] at hholds
    cases hholds
    exact ⟨⟨_, hf⟩, howner, hsort⟩
  · rintro ⟨hholds, howner, hsort⟩
    have hmem := (hr.mem_indexed (hkind f hsort)).mpr ⟨hholds, howner⟩
    exact ⟨f.hash, (hans _).mpr ⟨f, hmem, hsort, rfl⟩, hr.holds_iff.mp hholds⟩

theorem Orderly.constructor?_eq_some_iff (hr : r.Orderly) (owner : TypeHash)
    (params : List TypeHash)
    (f : FunctionDecl) : r.constructor? owner params = some f ↔
      r.Holds f ∧ f.owner = some owner ∧ Constructs params f :=
  hr.answer_eq_some_iff (answers_constructor params) (fun f hf => by simp [hf.1])
    (fun _ hmade howner hf => hmade.hash_of_constructs howner hf) f

theorem Orderly.conversion?_eq_some_iff (hr : r.Orderly) (declaring : TypeHash)
    (op : ConversionOperator) (source target : TypeHash) (f : FunctionDecl) :
    r.conversion? declaring op source target = some f ↔
      r.Holds f ∧ f.owner = some declaring ∧ Converts op source target f :=
  hr.answer_eq_some_iff (answers_conversion op source target) (fun f hf => by simp [hf.1])
    (fun _ hmade howner hf => hmade.hash_of_converts howner hf) f

/-! ### Lookups leave no trace -/

/-- The registry without the operator indexes that are kept. -/
def forget (r : Registry) : Registry := { r with indexes := ∅ }

theorem chainFrom_forget (r : Registry) (fuel : Nat) (h : TypeHash) :
    r.forget.chainFrom fuel h = r.chainFrom fuel h := by
  induction fuel generalizing h with
  | zero => rfl
  | succ fuel ih =>
    rw [chainFrom, chainFrom, show r.forget.type? h = r.type? h from rfl]
    cases r.type? h with
    | none => rfl
    | some t => simp only [ih]

theorem instanceFieldCount_forget (r : Registry) :
    r.forget.instanceFieldCount = r.instanceFieldCount := by
  funext h
  rw [instanceFieldCount, instanceFieldCount, baseChain, baseChain, chainFrom_forget]
  rfl

theorem forget_registerType (r : Registry) (t : TypeDecl) :
    (r.forget.registerType t).2.forget = (r.registerType t).2.forget := by
  unfold registerType
  rw [show r.forget.typeRefusal? t = r.typeRefusal? t from rfl, instanceFieldCount_forget]
  cases r.typeRefusal? t <;> rfl

theorem forget_registerArray (r : Registry) (element : TypeHash) :
    (r.forget.registerArray element).2.forget = (r.registerArray element).2.forget := by
  unfold registerArray
  dsimp only
  rw [show r.forget.containsType (.arrayOf element) = r.containsType (.arrayOf element) from rfl,
    show r.forget.type? element = r.type? element from rfl]
  split
  · rfl
  · cases r.type? element with
    | none => rfl
    | some t => exact forget_registerType r _

theorem forget_registerFunction (r : Registry) (f : FunctionDecl) :
    (r.forget.registerFunction f).2.forget = (r.registerFunction f).2.forget := by
  unfold registerFunction
  rw [show r.forget.functions = r.functions from rfl]
  split
  · rfl
  · dsimp only
    cases f.owner with
    | none => rfl
    | some owner =>
      dsimp only
      rw [show r.forget.type? owner = r.type? owner from rfl]
      cases r.type? owner <;> rfl

theorem forget_registerPrimitives (r : Registry) :
    r.forget.registerPrimitives.forget = r.registerPrimitives.forget := by
  unfold registerPrimitives
  generalize builtins = ts
  induction ts generalizing r with
  | nil => rfl
  | cons t ts ih =>
    have hstep : r.forget.addBuiltin t = (r.addBuiltin t).forget := by
      unfold addBuiltin
      rw [show r.forget.containsType t.hash = r.containsType t.hash from rfl]
      split <;> rfl
    rw [foldl_cons, foldl_cons, hstep, ih]

/-- What a request leaves does not depend on the indexes that are kept. -/
theorem forget_after (r : Registry) (q : Request) :
    (r.forget.after q).forget = (r.after q).forget := by
  cases q with
  | primitives => exact r.forget_registerPrimitives
  | type t => exact r.forget_registerType t
  | array element => exact r.forget_registerArray element
  | function f => exact r.forget_registerFunction f
  | operators | constructor | conversion => rfl

/-- The registry after requests is that of the declarations among them, kept indexes apart. -/
theorem forget_registry (requests : List Request) : (Request.registry requests).forget =
      (Request.registry (requests.filter Request.declares)).forget := by
  have hfold : ∀ r r' : Registry, r.forget = r'.forget → (requests.foldl Registry.after r).forget =
        ((requests.filter Request.declares).foldl Registry.after r').forget := by
    induction requests with
    | nil => exact fun r r' h => h
    | cons q qs ih =>
      intro r r' h
      rw [foldl_cons]
      cases hq : q.declares with
      | true =>
        rw [filter_cons_of_pos hq, foldl_cons]
        exact ih _ _ (by rw [← r.forget_after, h, r'.forget_after])
      | false =>
        rw [filter_cons_of_neg (by simp [hq])]
        refine ih _ _ (Eq.trans ?_ h)
        cases q with
        | primitives | type | array | function => cases hq
        | operators | constructor | conversion => rfl
  exact hfold _ _ rfl

theorem Orderly.operatorIndex_forget (hr : r.Orderly) (owner : TypeHash) :
    r.operatorIndex owner = r.forget.operatorIndex owner := by
  rw [operatorIndex_eq (hr.kept owner)]
  simp [operatorIndex, forget, indexed]
  rfl

theorem Orderly.lookup_forget (hr : r.Orderly) :
    (∀ owner params, r.constructor? owner params = r.forget.constructor? owner params) ∧
      ∀ declaring op source target, r.conversion? declaring op source target =
        r.forget.conversion? declaring op source target := by
  unfold constructor? conversion?
  exact ⟨fun owner _ => by rw [hr.operatorIndex_forget owner]; rfl,
    fun declaring _ _ _ => by rw [hr.operatorIndex_forget declaring]; rfl⟩

/-- The function is a registered constructor of a type, with given parameter types. -/
def HasConstructor (r : Registry) (owner : TypeHash) (params : List TypeHash) (f : FunctionDecl) :
    Prop :=
  r.Holds f ∧ f.owner = some owner ∧ f.kind = .constructor ∧ f.paramHashes = params

/-- The function is a registered conversion operator of a type, with one parameter, from one type to
another. -/
def HasConversion (r : Registry) (declaring : TypeHash) (op : ConversionOperator)
    (source target : TypeHash) (f : FunctionDecl) : Prop :=
  r.Holds f ∧ f.owner = some declaring ∧ f.kind = .conversion op ∧ f.paramHashes = [source] ∧
    f.returns.hash = target

/-- Constructors and conversions are looked up exactly, after any declarations and lookups: what is
found is what is registered on the type with that signature, of which there is at most one. Requests
with the same declarations lead to the same answers, whatever was looked up between them. -/
theorem operator_lookups_are_exact {requests : List Request} (hmade : ∀ q ∈ requests, q.Made) :
    (∀ owner params f, (Request.registry requests).constructor? owner params = some f ↔
      (Request.registry requests).HasConstructor owner params f) ∧
    (∀ declaring op source target f,
      (Request.registry requests).conversion? declaring op source target = some f ↔
        (Request.registry requests).HasConversion declaring op source target f) ∧
    (∀ owner params f g, (Request.registry requests).HasConstructor owner params f →
      (Request.registry requests).HasConstructor owner params g → f = g) ∧
    (∀ declaring op source target f g,
      (Request.registry requests).HasConversion declaring op source target f →
      (Request.registry requests).HasConversion declaring op source target g → f = g) ∧
    ∀ requests', requests'.filter Request.declares = requests.filter Request.declares →
      (∀ owner params, (Request.registry requests').constructor? owner params =
        (Request.registry requests).constructor? owner params) ∧
      ∀ declaring op source target,
        (Request.registry requests').conversion? declaring op source target =
          (Request.registry requests).conversion? declaring op source target := by
  have hr := orderly_registry hmade
  have hconstructor := hr.constructor?_eq_some_iff
  have hconversion := hr.conversion?_eq_some_iff
  refine ⟨hconstructor, hconversion, fun owner params f g hf hg => ?_,
    fun declaring op source target f g hf hg => ?_, fun requests' hsame => ?_⟩
  · exact Option.some.inj (((hconstructor owner params f).mpr hf).symm.trans
      ((hconstructor owner params g).mpr hg))
  · exact Option.some.inj (((hconversion declaring op source target f).mpr hf).symm.trans
      ((hconversion declaring op source target g).mpr hg))
  · have hmade' : ∀ q ∈ requests', q.Made := fun q hq => Request.made_of_declares fun hdeclares =>
      hmade q (List.mem_of_mem_filter (hsame ▸ List.mem_filter.mpr ⟨hq, hdeclares⟩))
    obtain ⟨hconstructor, hconversion⟩ := hr.lookup_forget
    obtain ⟨hconstructor', hconversion'⟩ := (orderly_registry hmade').lookup_forget
    have hforget : (Request.registry requests').forget = (Request.registry requests).forget := by
      rw [forget_registry, hsame, ← forget_registry]
    refine ⟨fun owner params => ?_, fun declaring op source target => ?_⟩
    · rw [hconstructor, hconstructor', hforget]
    · rw [hconversion, hconversion', hforget]

end Registry

/-! ### A temperature -/

namespace Celsius

def hash : TypeHash := .ofName "Celsius"

/-- A temperature from a number. -/
def ofNumber : FunctionDecl := .constructor hash [⟨"degrees", .plain (.ofName "float64"), .byValue⟩]

/-- The number of a temperature. -/
def toNumber : FunctionDecl :=
  .conversion hash .explicit ⟨"value", .plain hash, .byValue⟩ (.plain (.ofName "float64"))

/-- Look up what is not declared yet, declare it, and look again, with lookups between
declarations. -/
def requests : List Request :=
  [.constructor hash [.ofName "float64"], .primitives, .type (.named "Celsius" (.value 8 8)),
    .conversion hash .explicit hash (.ofName "float64"), .function ofNumber, .operators hash,
    .function toNumber, .function ofNumber]

theorem requests_made : ∀ q ∈ requests, q.Made := by
  simp only [requests, forall_mem_cons]
  exact ⟨trivial, trivial, .named _ _, trivial, .constructor _ _, trivial, .conversion _ _ _ _,
    .constructor _ _, by simp⟩

/-- Both are found although both were missed before. -/
theorem found_after_being_missed :
    (∀ q ∈ requests, q.Made) ∧
      (Request.registry requests).constructor? hash [.ofName "float64"] = some ofNumber ∧
      (Request.registry requests).conversion? hash .explicit hash (.ofName "float64") =
        some toNumber := by
  have hexact := Registry.operator_lookups_are_exact requests_made
  refine ⟨requests_made, (hexact.1 _ _ _).mpr ⟨⟨ofNumber.hash, ?_⟩, rfl, rfl, rfl⟩,
    (hexact.2.1 _ _ _ _ _).mpr ⟨⟨toNumber.hash, ?_⟩, rfl, rfl, rfl, rfl⟩⟩ <;> decide +kernel

end Celsius

end StackCode
