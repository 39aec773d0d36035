import StackCode.Proofs.Steady

/-!
# Storing at a place

A value that is stored at an address is found there afterwards, and everything that is stored
elsewhere is found as it was. A store that fails changes nothing but that a static field may get its
default.
-/

namespace StackCode

open State Value List

variable {s' : State} {v new : Value} {path T : List UInt16} {root : Root} {rest : List Frame}
  {L : Array Value}

/-- Places of which neither is a part of the other. -/
def Address.Apart (a b : Address) : Prop :=
  a.root = b.root → ¬a.path <+: b.path ∧ ¬b.path <+: a.path

/-! ### Values -/

namespace Value

theorem follow_replace {w : Value} (h : replace new v path = .ok w) : w.follow path = .ok new := by
  induction path generalizing v w with
  | nil =>
    cases h
    rfl
  | cons index path ih =>
    obtain ⟨item, item', hitem, hreplace, rfl⟩ := replace_cons h
    rw [follow, member_setMember hitem]
    exact ih hreplace

theorem follow_replace_apart {w : Value} {path' : List UInt16} (h : replace new v path = .ok w)
    (hne : ¬path <+: path') (hne' : ¬path' <+: path) :
    w.follow path' = v.follow path' := by
  induction path generalizing v w path' with
  | nil => exact absurd nil_prefix hne
  | cons index path ih =>
    cases path' with
    | nil => exact absurd nil_prefix hne'
    | cons index' path' =>
      obtain ⟨item, item', hitem, hreplace, rfl⟩ := replace_cons h
      rw [follow, follow]
      by_cases heq : index' = index
      · subst heq
        rw [member_setMember hitem, hitem]
        exact ih hreplace (fun hp => hne (cons_prefix_cons.mpr ⟨rfl, hp⟩))
          fun hp => hne' (cons_prefix_cons.mpr ⟨rfl, hp⟩)
      · rw [member_setMember_ne v item' heq]

end Value

namespace State

variable {r : Registry} {s : State} {n : Nat}

theorem materialize_of_root (h : s.root r root = .ok v) : s.materialize r root = s := by
  have hcell := cell?_of_root h
  cases root with
  | static field =>
    have hcell : s.statics[field]? = some v := hcell
    simp only [materialize, hcell]
  | localSlot | argument | heap | captured => rfl

theorem root_materialize_setRoot {root' : Root} (hne : root' ≠ root) (v : Value) :
    ((s.setRoot v root).materialize r root').root r root' =
      (s.materialize r root').root r root' := by
  rw [root_eq, root_eq, cell?_materialize_self, cell?_materialize_self,
    cell?_setRoot_ne s v (Root.cell_injective.ne hne)]

theorem Settles.setRoot (h : s.Settles r s') (v : Value) (root : Root) :
    (s.setRoot v root).Settles r (s'.setRoot v root) := by
  have hstatics : ∀ k : TypeHash, (s'.setRoot v root).statics[k]? = (s.setRoot v root).statics[k]? ∨
      (s.setRoot v root).statics[k]? = none ∧ ∃ f, r.fieldByHash? k = some f ∧
        (s'.setRoot v root).statics[k]? = some (r.defaultValue f.type.hash) := by
    intro k
    rw [statics_setRoot, statics_setRoot]
    by_cases heq : root = .static k
    · rw [if_pos heq, if_pos heq]
      exact .inl rfl
    · rw [if_neg heq, if_neg heq]
      exact h.statics k
  have hdepth : s'.depth = s.depth := by rw [depth, depth, h.frames]
  cases root with
  | localSlot n slot | argument n slot =>
    simp only [State.setRoot, modifyFrame, hdepth] at hstatics ⊢
    split
    · rename_i hn
      simp only [if_pos hn] at hstatics
      exact ⟨⟨by rw [h.frames], h.captured, h.heap, hstatics⟩, h.objects⟩
    · exact h
  | static field => exact ⟨⟨h.frames, h.captured, h.heap, hstatics⟩, h.objects⟩
  | heap id =>
    have hheap : s'.heap.setValue id v = s.heap.setValue id v := by rw [h.objects]
    have hobjects : (s'.setRoot v (.heap id)).heap = (s.setRoot v (.heap id)).heap := hheap
    exact ⟨⟨h.frames, h.captured, hobjects ▸ prefix_refl _, hstatics⟩, hobjects⟩
  | captured owner index =>
    refine ⟨⟨h.frames, ?_, h.heap, hstatics⟩, h.objects⟩
    simp only [State.setRoot, h.captured]

/-! ### The innermost frame -/

/-- The locals of the innermost frame after a value is put at a root. -/
def localsWith (n : Nat) (v : Value) (root : Root) (L : Array Value) : Array Value :=
  match root with
  | .localSlot m slot => if m = n then L.setIfInBounds slot.toNat v else L
  | _ => L

theorem modifyFrame_top {f : Frame} (hf : s.frames = f :: rest) (g : Frame → Frame) :
    s.modifyFrame rest.length g = { s with frames := g f :: rest } := by
  simp [modifyFrame, depth, hf]

theorem modifyFrame_below (hn : n ≠ rest.length) (g : Frame → Frame) :
    ∃ rest', rest'.length = rest.length ∧
      ∀ f' : Frame, State.modifyFrame { s with frames := f' :: rest } n g =
        { s with frames := f' :: rest' } := by
  refine ⟨if n < rest.length then rest.modify (rest.length - 1 - n) g else rest, ?_, fun f' => ?_⟩
  · split
    · exact length_modify ..
    · rfl
  · by_cases hlt : n < rest.length
    · have hidx : rest.length - n = rest.length - 1 - n + 1 := by omega
      have hlt' : n < rest.length + 1 := by omega
      simp [modifyFrame, depth, hlt, hlt', hidx]
    · have hlt' : ¬n < rest.length + 1 := by omega
      simp [modifyFrame, depth, hlt, hlt']

/-- A value is put at a root, whatever the operands and locals of the innermost frame are. -/
theorem setRoot_top (f : Frame) (rest : List Frame) (v : Value) (root : Root) :
    ∃ args rest', ∀ f' : Frame, f'.args = f.args →
    State.setRoot { s with frames := f' :: rest } v root =
      { s.setRoot v root with frames :=
        { f' with locals := localsWith rest.length v root f'.locals, args := args } :: rest' } := by
  have hsame : ∀ n g fs, { s.modifyFrame n g with frames := fs } = { s with frames := fs } := by
    intro n g fs
    unfold modifyFrame
    split <;> rfl
  cases root with
  | localSlot n slot =>
    by_cases hn : n = rest.length
    · subst hn
      refine ⟨f.args, rest, fun f' hf' => ?_⟩
      rw [setRoot, modifyFrame_top rfl, setRoot, hsame, ← hf', localsWith, if_pos rfl]
    · obtain ⟨rest', -, hmodify⟩ := modifyFrame_below (s := s) hn
        fun f => { f with locals := f.locals.setIfInBounds slot.toNat v }
      refine ⟨f.args, rest', fun f' hf' => ?_⟩
      rw [setRoot, hmodify, setRoot, hsame, ← hf', localsWith, if_neg hn]
  | argument n slot =>
    by_cases hn : n = rest.length
    · subst hn
      refine ⟨f.args.setIfInBounds slot.toNat v, rest, fun f' hf' => ?_⟩
      rw [setRoot, modifyFrame_top rfl, setRoot, hsame, ← hf']
      rfl
    · obtain ⟨rest', -, hmodify⟩ := modifyFrame_below (s := s) hn
        fun f => { f with args := f.args.setIfInBounds slot.toNat v }
      refine ⟨f.args, rest', fun f' hf' => ?_⟩
      rw [setRoot, hmodify, setRoot, hsame, ← hf']
      rfl
  | static | heap | captured => exact ⟨f.args, rest, fun f' hf' => by rw [← hf']; rfl⟩

/-- The locals differ in the same slots as before. -/
theorem Like.setRoot (hL : s.Like T L) (hn : s.depth = n + 1) (v : Value) (root : Root) :
    (s.setRoot v root).Like T (localsWith n v root L) ∧
      ∀ σ k, (s.standing L σ k).setRoot v root = (s.setRoot v root).standing (localsWith n v root L)
        σ k := by
  obtain ⟨f, rest, hf, hsize, hL⟩ := hL
  have hn : rest.length = n := by
    rw [depth, hf, length_cons] at hn
    omega
  obtain ⟨args, rest', htop⟩ := setRoot_top (s := s) f rest v root
  rw [hn] at htop
  have hframes : (s.setRoot v root).frames =
      { f with locals := localsWith n v root f.locals, args := args } :: rest' := by
    conv_lhs => rw [show s = { s with frames := f :: rest } by rw [← hf], htop f rfl]
  refine ⟨⟨_, rest', hframes, ?_⟩, fun σ k => ?_⟩
  · cases root with
    | localSlot m slot =>
      simp only [localsWith]
      split
      · refine ⟨by simp [hsize], fun k hk => ?_⟩
        simp only [Array.getElem?_setIfInBounds, hL k hk, hsize]
      · exact ⟨hsize, hL⟩
    | argument | static | heap | captured => exact ⟨hsize, hL⟩
  · rw [standing_eq hf, htop { f with locals := L, stack := σ, offset := k } rfl,
      standing_eq hframes]

end State

/-! ### Storing -/

namespace Exec

variable {p : Program} {s : State} {a b : Address}

/-- A computation's result in a state. -/
abbrev result {α : Type} (x : Exec α) (p : Program) (s : State) : Except Fault α := (x.exec p s).1

theorem exec_fetch (a : Address) (s : State) : (fetch a).exec p s =
    ((s.materialize p.registry a.root).root p.registry a.root >>= fun v => v.follow a.path,
      s.materialize p.registry a.root) := by
  rw [fetch, exec_bind, exec_readRoot]
  cases (s.materialize p.registry a.root).root p.registry a.root with
  | error e => rfl
  | ok v => exact exec_ofExcept _

theorem store_cases (a : Address) (v : Value) (s : State) :
    (∃ e, (store a v).exec p s = (.error e, s.materialize p.registry a.root)) ∨
    ∃ old new, (s.materialize p.registry a.root).root p.registry a.root = .ok old ∧
      replace v old a.path = .ok new ∧
      (store a v).exec p s = (.ok (), (s.materialize p.registry a.root).setRoot new a.root) := by
  rw [store, exec_bind, exec_readRoot]
  cases hold : (s.materialize p.registry a.root).root p.registry a.root with
  | error e => exact .inl ⟨e, rfl⟩
  | ok old =>
    dsimp only
    rw [exec_bind, exec_ofExcept]
    cases hnew : replace v old a.path with
    | error e => exact .inl ⟨e, rfl⟩
    | ok new => exact .inr ⟨old, new, rfl, hnew, rfl⟩

theorem fetch_store (h : (store a v).exec p s = (.ok (), s')) : (fetch a).result p s' = .ok v := by
  rcases store_cases (p := p) a v s with ⟨e, hout⟩ | ⟨old, new, hold, hnew, hout⟩ <;>
    rw [hout] at h <;> cases h
  have hroot := root_setRoot hold new
  rw [result, exec_fetch, materialize_of_root hroot, hroot]
  exact follow_replace hnew

theorem fetch_store_apart (h : (store a v).exec p s = (.ok (), s')) (hb : a.Apart b) :
    (fetch b).result p s' = (fetch b).result p s := by
  rcases store_cases (p := p) a v s with ⟨e, hout⟩ | ⟨old, new, hold, hnew, hout⟩ <;>
    rw [hout] at h <;> cases h
  have hsettle := settles_materialize (r := p.registry) (s := s) a.root
  rw [result, result, exec_fetch, exec_fetch]
  by_cases heq : b.root = a.root
  · obtain ⟨hne, hne'⟩ := hb heq.symm
    have hroot := root_setRoot hold new
    rw [heq, materialize_of_root hroot, hroot, hold]
    exact follow_replace_apart hnew hne hne'
  · rw [root_materialize_setRoot heq, hsettle.root_materialize]

theorem settles_of_store_error {e : Fault} (h : (store a v).exec p s = (.error e, s')) :
    s.Settles p.registry s' := by
  rcases store_cases (p := p) a v s with ⟨e', hout⟩ | ⟨old, new, -, -, hout⟩ <;> rw [hout] at h <;>
    cases h
  exact settles_materialize a.root

/-- A store in a state whose static fields have got their defaults. -/
theorem store_settles (hs : s.Settles p.registry s') (a : Address) (v : Value) :
    (store a v).result p s' = (store a v).result p s ∧
      ((store a v).exec p s).2.Settles p.registry ((store a v).exec p s').2 := by
  have hread := steady_readRoot (p := p) a.root
  have hsame := hread.same s s' hs
  have hafter := hread.after hs
  simp only [exec_readRoot] at hsame hafter
  rw [store, result, result, exec_bind, exec_bind, exec_readRoot, exec_readRoot, hsame]
  cases hold : (s.materialize p.registry a.root).root p.registry a.root with
  | error e => exact ⟨rfl, hafter⟩
  | ok old =>
    dsimp only
    rw [exec_bind, exec_bind, exec_ofExcept, exec_ofExcept]
    cases hnew : replace v old a.path with
    | error e => exact ⟨rfl, hafter⟩
    | ok new => exact ⟨rfl, hafter.setRoot new a.root⟩

/-- A store while the operand stack and temporaries are in use. -/
theorem store_standing {n : Nat} (hn : s.depth = n + 1) (hL : s.Like T L) (ha : a.root.Outside n T)
    (v : Value) :
    ∃ L', ((store a v).exec p s).2.Like T L' ∧ ∀ σ k, (store a v).exec p (s.standing L σ k) =
      ((store a v).result p s, ((store a v).exec p s).2.standing L' σ k) := by
  have hframes := materialize_frames (r := p.registry) (s := s) a.root
  have hn' : (s.materialize p.registry a.root).depth = n + 1 :=
    by rw [State.depth, hframes]; exact hn
  have hL' := hL.congr hframes
  have hread : ∀ σ k, (readRoot a.root).exec p (s.standing L σ k) =
      ((s.materialize p.registry a.root).root p.registry a.root,
        (s.materialize p.registry a.root).standing L σ k) := fun σ k => by
    rw [exec_readRoot, materialize_standing, root_standing hn' hL' ha]
  simp only [store, result, exec_bind, hread, exec_readRoot]
  cases (s.materialize p.registry a.root).root p.registry a.root with
  | error e => exact ⟨L, hL', fun _ _ => rfl⟩
  | ok old =>
    simp only [exec_ofExcept]
    cases replace v old a.path with
    | error e => exact ⟨L, hL', fun _ _ => rfl⟩
    | ok new =>
      obtain ⟨hset, hstand⟩ := hL'.setRoot hn' new a.root
      exact ⟨State.localsWith n new a.root L, hset, fun σ k => Prod.ext rfl (hstand σ k)⟩

end Exec

end StackCode
