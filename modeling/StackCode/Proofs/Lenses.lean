import StackCode.Proofs.Storage

/-!
# Addresses are lenses

What is written at an address is read there, and below it, afterwards; what is read elsewhere stays.
A write succeeds where a read does. A read gives a static field its default and a write that fails
does no more, and neither can be told from what is read and written later.
-/

namespace StackCode

variable {v w new : Value} {path : List UInt16} {p : Program} {s s' : State}

namespace Value

theorem follow_append (v : Value) (path path' : List UInt16) :
    v.follow (path ++ path') = v.follow path >>= fun w => w.follow path' := by
  induction path generalizing v with
  | nil => rfl
  | cons index path ih =>
    rw [List.cons_append, follow, follow]
    cases v.member index with
    | error e => rfl
    | ok item => exact ih item

theorem map_replace (new v : Value) (path : List UInt16) :
    (replace new v path).map (fun _ => ()) = (v.follow path).map fun _ => () := by
  induction path generalizing v with
  | nil => rfl
  | cons index path ih =>
    rw [replace, follow]
    cases v.member index with
    | error e => rfl
    | ok item =>
      dsimp only
      rw [← ih item]
      cases replace new item path <;> rfl

end Value

/-! ### Reads and writes one after the other -/

/-- A read or a write. -/
inductive Visit
  | read (a : Address)
  | write (a : Address) (v : Value)

namespace Visit

open Exec

/-- What a visit gives, a write nothing but that it succeeds, and the state that it leaves. -/
def exec (p : Program) (s : State) : Visit → Except Fault (Option Value) × State
  | .read a => (((fetch a).result p s).map some, ((fetch a).exec p s).2)
  | .write a v => (((store a v).result p s).map fun _ => none, ((store a v).exec p s).2)

/-- What visits give, one after the other. -/
def results (p : Program) : State → List Visit → List (Except Fault (Option Value))
  | _, [] => []
  | s, x :: xs => (x.exec p s).1 :: results p (x.exec p s).2 xs

/-- Whether static fields have got their defaults makes no difference to what visits give. -/
theorem results_settles (hs : s.Settles p.registry s') (xs : List Visit) :
    results p s' xs = results p s xs := by
  induction xs generalizing s s' with
  | nil => rfl
  | cons x xs ih =>
    have hvisit : (x.exec p s').1 = (x.exec p s).1 ∧
      (x.exec p s).2.Settles p.registry (x.exec p s').2 := by
      cases x with
      | read a =>
        have hfetch : Steady p (fetch a) := steady_fetch a
        exact ⟨congrArg (Except.map some) (hfetch.same s s' hs), hfetch.after hs⟩
      | write a v =>
        obtain ⟨hsame, hafter⟩ := store_settles hs a v
        exact ⟨congrArg (Except.map fun _ => none) hsame, hafter⟩
    rw [results, results, hvisit.1, ih hvisit.2]

end Visit

namespace Exec

/-- A write succeeds, or fails, as a read does. -/
theorem store_result (a : Address) (v : Value) :
    (store a v).result p s = ((fetch a).result p s).map fun _ => () := by
  rw [result, result, exec_fetch, store, exec_bind, exec_readRoot]
  cases (s.materialize p.registry a.root).root p.registry a.root with
  | error e => rfl
  | ok old =>
    dsimp only
    rw [exec_bind, exec_ofExcept]
    refine Eq.trans ?_ (Value.map_replace v old a.path)
    cases Value.replace v old a.path <;> rfl

theorem fetch_store_below {a : Address} (h : (store a v).exec p s = (.ok (), s'))
    (path : List UInt16) :
    (fetch ⟨a.root, a.path ++ path⟩).result p s' = v.follow path := by
  have hfound := fetch_store h
  rw [result, exec_fetch] at hfound ⊢
  dsimp only at hfound ⊢
  cases hroot : (s'.materialize p.registry a.root).root p.registry a.root with
  | error e =>
    rw [hroot] at hfound
    cases hfound
  | ok old =>
    rw [hroot] at hfound
    have hfound : old.follow a.path = .ok v := hfound
    show old.follow (a.path ++ path) = _
    rw [Value.follow_append, hfound]
    rfl

/-- A write succeeds where a read does. If it succeeds, its value is read at the address and what is
below the value is read below the address, while everything apart is read as before. If it fails,
and after any read, whatever is read and written later goes as it would have gone. -/
theorem addresses_are_lenses (p : Program) (s : State) (a : Address) (v : Value) :
    (store a v).result p s = ((fetch a).result p s).map (fun _ => ()) ∧
    (∀ s', (store a v).exec p s = (.ok (), s') → (fetch a).result p s' = .ok v ∧
      (∀ b, a.Apart b → (fetch b).result p s' = (fetch b).result p s) ∧
      ∀ path, (fetch ⟨a.root, a.path ++ path⟩).result p s' = v.follow path) ∧
    (∀ e s', (store a v).exec p s = (.error e, s') → ∀ xs,
      Visit.results p s' xs = Visit.results p s xs) ∧
    ∀ xs, Visit.results p ((fetch a).exec p s).2 xs = Visit.results p s xs := by
  refine ⟨store_result a v, fun s' h => ⟨fetch_store h, fun b => fetch_store_apart h,
    fetch_store_below h⟩,
    fun e s' h => Visit.results_settles (settles_of_store_error h), Visit.results_settles ?_⟩
  rw [exec_fetch]
  exact State.settles_materialize a.root

end Exec

end StackCode
