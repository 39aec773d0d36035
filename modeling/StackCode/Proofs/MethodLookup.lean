import StackCode.Proofs.Declarations

/-!
# Lookup of methods

A method is found by the hash of its signature alone, along the bases of a type. So what is found is
declared with the signature that was looked up, unless two signatures collide. Signatures that
differ in one place only, be it the owner, the name or one parameter, never collide if names do not.
But the hashes of owner and name enter a signature in the same way: a method `B` of a type `A` has
the hash of a method `A` of a type `B`.
-/

namespace StackCode

open TypeHash List

variable {f : FunctionDecl} {owner : TypeHash} {name : String} {params : List TypeHash}

/-! ### Signatures -/

/-- What the hash of a function is computed from. -/
inductive Signature
  | free (name : String) (params : List TypeHash)
  | method (owner : TypeHash) (name : String) (params : List TypeHash)
  | constructor (owner : TypeHash) (params : List TypeHash)
  | conversion (owner : TypeHash) (op : ConversionOperator) (params : List TypeHash)
    (target : TypeHash)
  deriving DecidableEq

/-- The hash of a signature. -/
def Signature.hash : Signature → TypeHash
  | .free name params => .ofFunction name params
  | .method owner name params => .ofMethod owner name params
  | .constructor owner params => .ofConstructor owner params
  | .conversion owner op params target => .ofOperator owner op.name params target

/-- The signature with which a function is declared. -/
def FunctionDecl.signature (f : FunctionDecl) : Signature := match f.kind, f.owner with
  | .method, none => .free f.name f.paramHashes
  | .method, some owner => .method owner f.name f.paramHashes
  | .constructor, owner => .constructor (owner.getD .empty) f.paramHashes
  | .conversion op, owner => .conversion (owner.getD .empty) op f.paramHashes f.returns.hash

theorem FunctionDecl.Made.hash_eq (h : f.Made) : f.hash = f.signature.hash := by
  cases h <;> rfl

/-- A function with the signature of a method is a method, declared with owner, name and parameter
types of the signature. -/
theorem FunctionDecl.signature_eq_method : f.signature = .method owner name params ↔
      f.kind = .method ∧ f.owner = some owner ∧ f.name = name ∧ f.paramHashes = params := by
  unfold FunctionDecl.signature
  cases hkind : f.kind <;> cases howner : f.owner <;> simp

/-! ### Mixing -/

namespace TypeHash

theorem mul_separator_inj {a b : UInt64} (h : a * separator = b * separator) : a = b := by
  have hinverse : separator * 0xd3f20f0a40208825 = 1 := by decide
  have hmul := congrArg (· * 0xd3f20f0a40208825) h
  simpa only [UInt64.mul_assoc, hinverse, UInt64.mul_one] using hmul

theorem mixFrom_inj {i : Nat} {h h' : UInt64} (heq : mixFrom i h params = mixFrom i h' params) :
    h = h' := by
  induction params generalizing i h h' with
  | nil => exact heq
  | cons p ps ih => exact mul_separator_inj ((UInt64.add_left_inj _).mp (ih heq))

theorem mixFrom_append (i : Nat) (h : UInt64) (ps qs : List TypeHash) :
    mixFrom i h (ps ++ qs) = mixFrom (i + ps.length) (mixFrom i h ps) qs := by
  induction ps generalizing i h with
  | nil => rfl
  | cons p ps ih =>
    rw [cons_append, mixFrom, ih, mixFrom, length_cons, Nat.add_right_comm, Nat.add_assoc]

theorem bits_injective : Function.Injective bits := fun ⟨_⟩ ⟨_⟩ h => congrArg mk h

theorem mixFrom_param_inj {i : Nat} {h : UInt64} {before after : List TypeHash} {p p' : TypeHash}
    (heq : mixFrom i h (before ++ p :: after) = mixFrom i h (before ++ p' :: after)) : p = p' := by
  rw [mixFrom_append, mixFrom_append, mixFrom, mixFrom] at heq
  exact bits_injective ((UInt64.xor_right_inj _).mp ((UInt64.add_right_inj _).mp (mixFrom_inj heq)))

theorem ofMethod_owner_inj {owner' : TypeHash}
    (h : ofMethod owner name params = ofMethod owner' name params) : owner = owner' := by
  have hbits :=
    (UInt64.xor_right_inj _).mp ((UInt64.xor_left_inj _).mp (mixFrom_inj (congrArg bits h)))
  exact bits_injective hbits

theorem ofMethod_name_inj {name' : String} (h : ofMethod owner name params =
    ofMethod owner name' params) :
    xxh64Text name = xxh64Text name' :=
  (UInt64.xor_right_inj _).mp (mixFrom_inj (congrArg bits h))

/-- The name of the owner and the name of a method can be exchanged. -/
theorem ofMethod_swap (a b : String) (params : List TypeHash) :
    ofMethod (.ofName a) b params = ofMethod (.ofName b) a params := by
  have hseed : methodDomain ^^^ (ofName a).bits ^^^ xxh64Text b =
      methodDomain ^^^ (ofName b).bits ^^^ xxh64Text a := by
    simp only [ofName, UInt64.xor_assoc, UInt64.xor_comm (xxh64Text a)]
  rw [ofMethod, ofMethod, hseed]

end TypeHash

/-! ### Signatures that differ in one place -/

/-- Two signatures of methods that differ at most in the owner, in the name, or in one parameter. -/
inductive Signature.Near : Signature → Signature → Prop
  | owner (owner owner' : TypeHash) (name : String) (params : List TypeHash) :
      Near (.method owner name params) (.method owner' name params)
  | name (owner : TypeHash) (name name' : String) (params : List TypeHash) :
      Near (.method owner name params) (.method owner name' params)
  | param (owner : TypeHash) (name : String) (before after : List TypeHash) (p p' : TypeHash) :
      Near (.method owner name (before ++ p :: after)) (.method owner name (before ++ p' :: after))

/-- Two different signatures with one hash. They are not both methods that differ in one place
only. -/
structure Signature.Collide (s s' : Signature) : Prop where
  ne : s ≠ s'
  hash : s.hash = s'.hash
  far : ¬s.Near s'

/-- The hashes of different names are different. -/
def NamesApart (names : String → Prop) : Prop :=
  ∀ n n', names n → names n' → xxh64Text n = xxh64Text n' → n = n'

namespace Signature

variable {names : String → Prop} {s s' : Signature}

/-- The name in the signature of a method. -/
def methodName? : Signature → Option String
  | .method _ name _ => some name
  | _ => none

theorem Near.eq_of_hash (h : s.Near s') (hapart : NamesApart names)
    (hs : ∀ n ∈ s.methodName?, names n) (hs' : ∀ n ∈ s'.methodName?, names n)
    (hhash : s.hash = s'.hash) : s = s' := by
  cases h with
  | owner owner owner' name params =>
    have howner : owner = owner' := ofMethod_owner_inj hhash
    rw [howner]
  | name owner name name' params =>
    have hname : xxh64Text name = xxh64Text name' := ofMethod_name_inj hhash
    rw [hapart name name' (hs name rfl) (hs' name' rfl) hname]
  | param owner name before after p p' =>
    have hbits := congrArg bits (show ofMethod owner name (before ++ p :: after) =
      ofMethod owner name (before ++ p' :: after) from hhash)
    rw [mixFrom_param_inj hbits]

theorem eq_or_collide (hapart : NamesApart names) (hs : ∀ n ∈ s.methodName?, names n)
    (hs' : ∀ n ∈ s'.methodName?, names n) (hhash : s.hash = s'.hash) : s = s' ∨ s.Collide s' := by
  by_cases heq : s = s'
  · exact .inl heq
  · exact .inr ⟨heq, hhash, fun hnear => heq (hnear.eq_of_hash hapart hs hs' hhash)⟩

end Signature

theorem FunctionDecl.methodName?_signature {n : String} (hn : n ∈ f.signature.methodName?) :
    f.name = n := by
  unfold FunctionDecl.signature at hn
  split at hn <;> cases hn
  rfl

/-! ### What is found and what is refused -/

namespace Registry

variable {r : Registry} {names : String → Prop}

/-- What is found stands under the hash of the signature on a type of the chain. -/
theorem Orderly.method?_hash (hr : r.Orderly) (hf : r.method? owner name params = some f) :
    r.Holds f ∧ ∃ t ∈ r.baseChain owner, f.signature.hash =
      (Signature.method t.hash name params).hash := by
  obtain ⟨t, ht, hfun⟩ := exists_of_findSome?_eq_some hf
  obtain ⟨hhash, hmade⟩ := hr.made _ f hfun
  exact ⟨⟨_, hfun⟩, t, ht, hmade.hash_eq.symm.trans hhash⟩

/-- A function that is refused as a duplicate has the hash of a registered one. -/
theorem Orderly.exists_of_duplicate (hr : r.Orderly) (hf : f.Made)
    (hrefused : (r.registerFunction f).1 = .error (.duplicateFunction name)) :
    ∃ g, r.Holds g ∧ g.signature.hash = f.signature.hash := by
  have hknown : r.functions.contains f.hash := by
    unfold Registry.registerFunction at hrefused
    split at hrefused
    · assumption
    · dsimp only at hrefused
      split at hrefused
      · cases hrefused
      · split at hrefused <;> cases hrefused
  obtain ⟨g, hg⟩ := Option.isSome_iff_exists.mp
    (Std.TreeMap.isSome_getElem?_iff_mem.mpr (Std.TreeMap.contains_iff_mem.mp hknown))
  obtain ⟨hhash, hmade⟩ := hr.made _ g hg
  exact ⟨g, ⟨_, hg⟩, by rw [← hmade.hash_eq, ← hf.hash_eq, hhash]⟩

/-- A method that is found is declared with the name and the parameter types that were looked up, on
a type of the chain of bases, and a method is refused as a duplicate only if its signature is taken,
unless two signatures collide. If the hashes of names do not collide, colliding signatures of
methods differ in more than one place. -/
theorem method_lookups_err_by_collision {requests : List Request} (hmade : ∀ q ∈ requests, q.Made)
    (hapart : NamesApart names) (hplay : ∀ f, .function f ∈ requests → names f.name) :
    (∀ owner name params f, names name →
      (Request.registry requests).method? owner name params = some f →
      ∃ t ∈ (Request.registry requests).baseChain owner,
        (f.kind = .method ∧ f.owner = some t.hash ∧ f.name = name ∧ f.paramHashes = params) ∨
          f.signature.Collide (.method t.hash name params)) ∧
    ∀ f owner, f.Made → f.kind = .method → f.owner = some owner → names f.name →
      ∀ name, ((Request.registry requests).registerFunction f).1 =
        .error (.duplicateFunction name) →
        ∃ g, (Request.registry requests).Holds g ∧
          ((g.kind = .method ∧ g.owner = some owner ∧ g.name = f.name ∧
              g.paramHashes = f.paramHashes) ∨
            g.signature.Collide (.method owner f.name f.paramHashes)) := by
  have hr := orderly_registry hmade
  have hused : ∀ g, (Request.registry requests).Holds g → ∀ n ∈ g.signature.methodName?, names n :=
    fun g hg n hn => FunctionDecl.methodName?_signature hn ▸ hplay g (mem_of_holds_registry hg)
  have hmethod : ∀ (owner : TypeHash) name (params : List TypeHash), names name →
      ∀ n ∈ (Signature.method owner name params).methodName?, names n := by
    rintro owner name params hname n ⟨⟩
    exact hname
  refine ⟨fun owner name params f hname hf => ?_,
    fun f owner hf hkind howner hname name hrefused => ?_⟩
  · obtain ⟨hholds, t, ht, hhash⟩ := hr.method?_hash hf
    refine ⟨t, ht, ?_⟩
    rw [← FunctionDecl.signature_eq_method]
    exact Signature.eq_or_collide hapart (hused f hholds) (hmethod _ _ _ hname) hhash
  · obtain ⟨g, hg, hhash⟩ := hr.exists_of_duplicate hf hrefused
    refine ⟨g, hg, ?_⟩
    rw [FunctionDecl.signature_eq_method.mpr ⟨hkind, howner, rfl, rfl⟩] at hhash
    rw [← FunctionDecl.signature_eq_method]
    exact Signature.eq_or_collide hapart (hused g hg) (hmethod _ _ _ hname) hhash

end Registry

/-! ### A collision -/

namespace Swapped

/-- The method `B` of the type `A`. -/
def first : FunctionDecl := .method (.ofName "A") "B" [] .void

/-- The method `A` of the type `B`. -/
def second : FunctionDecl := .method (.ofName "B") "A" [] .void

/-- Both types, and the first of the methods. -/
def requests : List Request :=
  [.type (.named "A" .reference), .type (.named "B" .reference), .function first]

def names (n : String) : Prop := n = "A" ∨ n = "B"

theorem requests_made : ∀ q ∈ requests, q.Made := by
  simp only [requests, forall_mem_cons]
  exact ⟨.named _ _, .named _ _, .method _ _ _ _, by simp⟩

theorem namesApart_names : NamesApart names := by
  rintro n n' (rfl | rfl) (rfl | rfl) h
  · rfl
  · exact absurd h (by decide +kernel)
  · exact absurd h (by decide +kernel)
  · rfl

theorem names_of_requested (f : FunctionDecl) (hf : .function f ∈ requests) : names f.name := by
  simp only [requests, mem_cons, not_mem_nil, or_false, reduceCtorEq, false_or,
    Request.function.injEq] at hf
  rw [hf]
  exact .inr rfl

/-- The names do not collide, but the first method is found where the second is looked up, on a type
that is not derived from its owner, and the second one is refused. -/
theorem names_are_confused :
    (∀ q ∈ requests, q.Made) ∧ NamesApart names ∧
      (Request.registry requests).method? (.ofName "B") "A" [] = some first ∧ first.name ≠ "A" ∧
      (∀ t ∈ (Request.registry requests).baseChain (.ofName "B"), first.owner ≠ some t.hash) ∧
      second.signature ≠ first.signature ∧
      ((Request.registry requests).registerFunction second).1 =
        .error (.duplicateFunction "A") := by
  refine ⟨requests_made, namesApart_names, by decide +kernel, by decide, by decide +kernel,
    by decide +kernel, ?_⟩
  have hhash : second.hash = first.hash := TypeHash.ofMethod_swap "B" "A" []
  have hknown : (Request.registry requests).functions.contains first.hash := by decide +kernel
  unfold Registry.registerFunction
  rw [hhash, if_pos hknown]
  rfl

/-- The first method is found where it was declared. -/
theorem first_is_found :
    (Request.registry requests).method? (.ofName "A") "B" [] = some first ∧
      ∃ t ∈ (Request.registry requests).baseChain (.ofName "A"),
        (first.kind = .method ∧ first.owner = some t.hash ∧ first.name = "B" ∧
            first.paramHashes = []) ∨
          first.signature.Collide (.method t.hash "B" []) := by
  have hfound : (Request.registry requests).method? (.ofName "A") "B" [] = some first := by
    decide +kernel
  exact ⟨hfound, (Registry.method_lookups_err_by_collision requests_made namesApart_names
    names_of_requested).1 (.ofName "A") "B" [] first (.inr rfl) hfound⟩

end Swapped

end StackCode
