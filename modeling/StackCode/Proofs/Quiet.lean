import StackCode.Proofs.Evaluation
import StackCode.Proofs.Execution
import StackCode.Proofs.Temporaries

/-!
# Evaluation leaves almost everything alone

Evaluating a symbol reads storage and may put values in boxes; static fields that are read for the
first time get their defaults. Nothing else changes. Nor does it matter what is on the operand
stack, where in its code the innermost frame stands, or what is in slots that no symbol uses and no
address leads to.
-/

namespace StackCode

open State Value List

variable {v w new : Value} {P : Root → Prop} {r : Registry} {s : State} {T path : List UInt16}
  {L : Array Value} {n : Nat} {p : Program} {a : Address} {items : List Value} {index : UInt16}

/-! ### Where addresses lead -/

/-- Values whose addresses are of a certain sort. -/
inductive Value.Holds (P : Address → Prop) : Value → Prop
  | void : Holds P .void
  | lit (l : Literal) : Holds P (.lit l)
  | ref (id : ObjectId) : Holds P (.ref id)
  | address {a : Address} (h : P a) : Holds P (.address a)
  | aggregate {items : List Value} (h : ∀ v ∈ items, Holds P v) : Holds P (.aggregate items)

/-- Values whose addresses have roots of a certain sort. -/
inductive Value.Within (P : Root → Prop) : Value → Prop
  | void : Within P .void
  | lit (l : Literal) : Within P (.lit l)
  | ref (id : ObjectId) : Within P (.ref id)
  | address {a : Address} (h : P a.root) : Within P (.address a)
  | aggregate {items : List Value} (h : ∀ v ∈ items, Within P v) : Within P (.aggregate items)

namespace Value

section Holds

variable {P Q : Address → Prop}

theorem Holds.mono (hPQ : ∀ a, P a → Q a) (h : v.Holds P) : v.Holds Q := by
  induction h with
  | void => exact .void
  | lit l => exact .lit l
  | ref id => exact .ref id
  | address ha => exact .address (hPQ _ ha)
  | aggregate _ ih => exact .aggregate ih

theorem Holds.allowed (h : Holds P (.address a)) : P a := by
  cases h
  assumption

theorem Holds.item (h : Holds P (.aggregate items)) : ∀ v ∈ items, Holds P v := by
  cases h
  assumption

theorem Holds.member {item : Value} (hv : v.Holds P) (h : v.member index = .ok item) :
    item.Holds P := by
  obtain ⟨items, rfl, hitem⟩ := member_eq_ok h
  exact hv.item _ (mem_of_getElem? hitem)

theorem Holds.follow (hv : v.Holds P) (h : v.follow path = .ok w) : w.Holds P := by
  induction path generalizing v with
  | nil =>
    cases h
    exact hv
  | cons index path ih =>
    obtain ⟨item, hitem, h⟩ := follow_cons h
    exact ih (hv.member hitem) h

theorem Holds.setMember {item : Value} (hv : v.Holds P) (hitem : item.Holds P) :
    (v.setMember index item).Holds P := by
  cases v with
  | aggregate items =>
    refine .aggregate fun w hw => ?_
    rcases mem_or_eq_of_mem_set hw with hw | rfl
    · exact hv.item w hw
    · exact hitem
  | _ => exact hv

theorem Holds.replace (hnew : new.Holds P) (hv : v.Holds P) (h : replace new v path = .ok w) :
    w.Holds P := by
  induction path generalizing v w with
  | nil =>
    cases h
    exact hnew
  | cons index path ih =>
    obtain ⟨item, item', hitem, hreplace, rfl⟩ := replace_cons h
    exact hv.setMember (ih (hv.member hitem) hreplace)

end Holds

theorem within_iff : v.Within P ↔ v.Holds fun a => P a.root := by
  constructor <;> intro h
  all_goals induction h with
    | void => exact .void
    | lit l => exact .lit l
    | ref id => exact .ref id
    | address ha => exact .address ha
    | aggregate _ ih => exact .aggregate ih

theorem Within.follow (hv : v.Within P) (h : v.follow path = .ok w) : w.Within P :=
  within_iff.mpr ((within_iff.mp hv).follow h)

theorem Within.root (h : Within P (.address a)) : P a.root := (within_iff.mp h).allowed

theorem Within.item (h : Within P (.aggregate items)) : ∀ v ∈ items, Within P v :=
  fun v hv => within_iff.mpr ((within_iff.mp h).item v hv)

attribute [simp] Within.lit Within.ref

@[simp] theorem within_address : Within P (.address a) ↔ P a.root := ⟨Within.root, .address⟩

@[simp] theorem within_aggregate : Within P (.aggregate items) ↔ ∀ v ∈ items, Within P v :=
  ⟨Within.item, .aggregate⟩

theorem Within.replace (hnew : new.Within P) (hv : v.Within P) (h : replace new v path = .ok w) :
    w.Within P :=
  within_iff.mpr (Holds.replace (within_iff.mp hnew) (within_iff.mp hv) h)

end Value

/-! ### Operators make literals -/

theorem Value.exists_of_arith {op : ArithOp} {a b : Value} (h : arith op a b = .ok v) :
    ∃ l, v = .lit l := by
  unfold arith at h
  split at h
  · split at h
    · rename_i k a k' b heq
      cases hval : k.apply op a (heq ▸ b) with
      | error e =>
        rw [hval] at h
        cases h
      | ok w =>
        rw [hval] at h
        cases h
        exact ⟨_, rfl⟩
    · cases h
  · split at h
    · split at h <;> cases h
      exact ⟨_, rfl⟩
    · cases h
  · split at h <;> cases h
    exact ⟨_, rfl⟩
  · split at h <;> cases h
    exact ⟨_, rfl⟩
  · cases h

theorem BinaryOp.apply_ok {op : BinaryOp} {a b : Value} (h : op.apply a b = .ok v) :
    ∃ l, v = .lit l := by
  cases op with
  | arith op => exact exists_of_arith h
  | compare op =>
    have h : (Value.compare op a b).map Value.bool = .ok v := h
    cases hval : Value.compare op a b with
    | error e =>
      rw [hval] at h
      cases h
    | ok c =>
      rw [hval] at h
      cases h
      exact ⟨_, rfl⟩

theorem UnaryOp.apply_ok {op : UnaryOp} {a : Value} (h : op.apply a = .ok v) : ∃ l, v = .lit l := by
  cases op with
  | neg =>
    have h : a.negate = .ok v := h
    unfold negate at h
    split at h
    · split at h <;> cases h
      exact ⟨_, rfl⟩
    · cases h
      exact ⟨_, rfl⟩
    · cases h
  | not =>
    have h : a.complement = .ok v := h
    unfold complement at h
    split at h <;> cases h
    · exact ⟨_, rfl⟩
    · exact ⟨_, rfl⟩

theorem Registry.holds_defaultWithin (r : Registry) (P : Address → Prop) (depth : Nat)
    (h : TypeHash) :
    (r.defaultWithin depth h).Holds P := by
  induction depth generalizing h with
  | zero => exact .lit _
  | succ depth ih =>
    unfold defaultWithin
    cases r.type? h with
    | none => exact .lit _
    | some t =>
      dsimp only
      cases t.kind with
      | primitive p => cases p <;> constructor
      | value size align =>
        refine .aggregate fun v hv => ?_
        obtain ⟨f, -, rfl⟩ := mem_map.mp hv
        exact ih _
      | reference | object | array _ => exact .lit _

@[simp] theorem Registry.within_defaultWithin (r : Registry) (P : Root → Prop) (depth : Nat)
    (h : TypeHash) :
    (r.defaultWithin depth h).Within P :=
  within_iff.mpr (r.holds_defaultWithin _ depth h)

namespace State

variable {s' s'' : State}

/-- What is stored at roots of a certain sort has addresses with such roots only. -/
def Closed (r : Registry) (P : Root → Prop) (s : State) : Prop :=
  ∀ root v, P root → s.root r root = .ok v → v.Within P

/-- A value at a root after materialization was there before, or is a default. -/
theorem root_materialize {root root' : Root} (h : (s.materialize r root').root r root = .ok v) :
    s.root r root = .ok v ∨ ∃ type, v = r.defaultValue type := by
  have hcell := cell?_of_root h
  rcases cell?_materialize hcell with hold | ⟨field, f, -, -, rfl⟩
  · rw [root_eq, hcell] at h
    exact .inl (by rw [root_eq, hold, h])
  · exact .inr ⟨_, rfl⟩

theorem Closed.materialize (hs : s.Closed r P) (root : Root) :
    (s.materialize r root).Closed r P := by
  intro root' v hroot hv
  rcases root_materialize hv with hv | ⟨type, rfl⟩
  · exact hs root' v hroot hv
  · exact r.within_defaultWithin P _ _

theorem Closed.alloc (hs : s.Closed r P) (type : TypeHash) (hv : v.Within P) :
    Closed r P { s with heap := (s.heap.alloc type v).2 } := by
  intro root w hroot hw
  have hcell := cell?_of_root hw
  rcases cell?_alloc hcell with ⟨-, rfl⟩ | hold
  · exact hv
  · rw [root_eq, hcell] at hw
    exact hs root w hroot (by rw [root_eq, hold, hw])

/-! ### What evaluation may change -/

/-- The state has more objects, and static fields have got their defaults; nothing else. -/
structure Extends (r : Registry) (s s' : State) : Prop where
  frames : s'.frames = s.frames
  captured : s'.captured = s.captured
  heap : s.heap.objects.toList <+: s'.heap.objects.toList
  statics : ∀ h : TypeHash, s'.statics[h]? = s.statics[h]? ∨
    s.statics[h]? = none ∧ ∃ f, r.fieldByHash? h = some f ∧
      s'.statics[h]? = some (r.defaultValue f.type.hash)

theorem Extends.refl (r : Registry) (s : State) : s.Extends r s :=
  ⟨rfl, rfl, prefix_refl _, fun _ => .inl rfl⟩

theorem Extends.trans (h : s.Extends r s') (h' : s'.Extends r s'') : s.Extends r s'' := by
  refine ⟨h'.frames.trans h.frames, h'.captured.trans h.captured, h.heap.trans h'.heap, fun k => ?_⟩
  rcases h'.statics k with hsame | ⟨hnone, f, hf, hdef⟩
  · rcases h.statics k with hsame' | ⟨hnone, f, hf, hdef⟩
    · exact .inl (hsame.trans hsame')
    · exact .inr ⟨hnone, f, hf, hsame.trans hdef⟩
  · rcases h.statics k with hsame' | ⟨_, _, _, hsome⟩
    · exact .inr ⟨hsame'.symm.trans hnone, f, hf, hdef⟩
    · rw [hnone] at hsome
      cases hsome

theorem extends_materialize (root : Root) : s.Extends r (s.materialize r root) := by
  cases root with
  | static field =>
    unfold State.materialize
    dsimp only
    split
    · rename_i f hnone hf
      refine ⟨rfl, rfl, prefix_refl _, fun k => ?_⟩
      simp only [Std.TreeMap.getElem?_insert]
      by_cases heq : compare field k = .eq
      · cases Std.LawfulEqCmp.eq_of_compare heq
        rw [if_pos heq]
        exact .inr ⟨hnone, f, hf, rfl⟩
      · rw [if_neg heq]
        exact .inl rfl
    · exact .refl r s
  | _ => exact .refl r s

theorem extends_alloc (type : TypeHash) (v : Value) :
    s.Extends r { s with heap := (s.heap.alloc type v).2 } :=
  ⟨rfl, rfl, by simp [Heap.alloc], fun _ => .inl rfl⟩

/-! ### The innermost frame -/

/-- The state with other locals, another operand stack and another offset in the innermost frame. -/
def standing (s : State) (locals : Array Value) (stack : List Value) (offset : Nat) : State :=
  s.modifyTop fun f => { f with locals, stack, offset }

/-- Locals that differ from those of the innermost frame in certain slots only. -/
def Like (T : List UInt16) (s : State) (locals : Array Value) : Prop :=
  ∃ f rest, s.frames = f :: rest ∧ locals.size = f.locals.size ∧
    ∀ n, (∀ t ∈ T, t.toNat ≠ n) → locals[n]? = f.locals[n]?

theorem Like.congr (h : s.Like T L) (hframes : s'.frames = s.frames) : s'.Like T L := by
  obtain ⟨f, rest, hf, hL⟩ := h
  exact ⟨f, rest, hframes.trans hf, hL⟩

end State

/-- Roots other than certain local slots of a frame. -/
def Root.Outside (n : Nat) (T : List UInt16) (root : Root) : Prop :=
  ∀ slot ∈ T, root ≠ .localSlot n slot

@[simp] theorem Root.outside_heap (n : Nat) (T : List UInt16) (id : ObjectId) :
    (Root.heap id).Outside n T :=
  fun _ _ h => by cases h

namespace State

variable {σ : List Value} {k : Nat}

theorem standing_eq {f : Frame} {rest : List Frame} (hf : s.frames = f :: rest) :
    s.standing L σ k =
      { s with frames := { f with locals := L, stack := σ, offset := k } :: rest } := by
  unfold standing modifyTop
  rw [hf]

theorem materialize_standing (root : Root) :
    (s.standing L σ k).materialize r root = (s.materialize r root).standing L σ k := by
  obtain ⟨frames, heap, statics, captured⟩ := s
  cases root with
  | static field =>
    cases frames <;>
    · simp only [standing, modifyTop, materialize]
      split <;> rfl
  | _ => rfl

theorem root_standing (hdepth : s.depth = n + 1) (hL : s.Like T L) {root : Root}
    (hroot : root.Outside n T) : (s.standing L σ k).root r root = s.root r root := by
  obtain ⟨f, rest, hf, -, hL⟩ := hL
  have hn : rest.length = n := by
    rw [depth, hf, length_cons] at hdepth
    omega
  have htop := frame?_top hf
  rw [hn] at htop
  rw [root_eq, root_eq, standing, modifyTop_eq, hdepth, Nat.add_sub_cancel]
  congr 1
  cases root with
  | localSlot m slot =>
    simp only [Root.cell, cell?, frame?_modifyFrame]
    split
    · rename_i hm
      have hslot : L[slot.toNat]? = f.locals[slot.toNat]? := by
        refine hL _ fun t ht heq => hroot t ht ?_
        rw [hm, UInt16.toNat_inj.mp heq]
      simp [hm, htop, hslot]
    · rfl
  | argument m slot =>
    simp only [Root.cell, cell?, frame?_modifyFrame]
    split
    · rw [Option.bind_map]
      rfl
    · rfl
  | static | heap | captured => simp only [Root.cell, cell?, storage_modifyFrame]

theorem depth_standing : (s.standing L σ k).depth = s.depth := by
  obtain ⟨_ | ⟨f, rest⟩, heap, statics, captured⟩ := s <;> rfl

/-- The number of frames is known, and no address leads to certain slots of the innermost one. -/
structure Calm (r : Registry) (n : Nat) (T : List UInt16) (s : State) : Prop where
  depth : s.depth = n + 1
  closed : s.Closed r (Root.Outside n T)

end State

/-! ### Quiet computations -/

namespace Exec

section Outcome

variable {α : Type}

@[simp] theorem exec_pure (a : α) : (pure a : Exec α).exec p s = (.ok a, s) := rfl

@[simp] theorem exec_throw (e : Fault) : (throw e : Exec α).exec p s = (.error e, s) := rfl

@[simp] theorem exec_read : (read : Exec Program).exec p s = (.ok p, s) := rfl

@[simp] theorem exec_get : (get : Exec State).exec p s = (.ok s, s) := rfl

@[simp] theorem exec_modify (f : State → State) : (modify f : Exec Unit).exec p s = (.ok (), f s) :=
  rfl

@[simp] theorem exec_ofExcept (x : Except Fault α) :
    (MonadExcept.ofExcept x : Exec α).exec p s = (x, s) := by
  cases x <;> rfl

@[simp] theorem exec_object (id : ObjectId) : (object id).exec p s = (s.heap.get id, s) := by
  simp [object, exec_bind]

@[simp] theorem exec_alloc (type : TypeHash) (v : Value) : (alloc type v).exec p s =
      (.ok (s.heap.alloc type v).1, { s with heap := (s.heap.alloc type v).2 }) := rfl

@[simp] theorem exec_level : level.exec p s = (.ok (s.depth - 1), s) := rfl

@[simp] theorem exec_readRoot (root : Root) : (readRoot root).exec p s =
      ((s.materialize p.registry root).root p.registry root, s.materialize p.registry root) := by
  simp [readRoot, exec_bind]

end Outcome

variable {α β : Type}

/-- What a quiet computation does in a state. -/
structure QuietAt (p : Program) (n : Nat) (T : List UInt16) (x : Exec α) (Q : α → Prop)
    (s : State) : Prop where
  grows : s.Extends p.registry (x.exec p s).2
  closed : (x.exec p s).2.Closed p.registry (Root.Outside n T)
  answer : ∀ a, (x.exec p s).1 = .ok a → Q a
  standing : ∀ L σ k, s.Like T L → x.exec p (s.standing L σ k) =
    ((x.exec p s).1, (x.exec p s).2.standing L σ k)

/-- A computation only extends the state, and it does not depend on the operand stack, the offset or
the given slots of the innermost frame. -/
def Quiet (p : Program) (n : Nat) (T : List UInt16) (x : Exec α) (Q : α → Prop) : Prop :=
  ∀ s : State, s.Calm p.registry n T → QuietAt p n T x Q s

variable {Q R : α → Prop} {S : β → Prop}

theorem QuietAt.calm {x : Exec α} (h : QuietAt p n T x Q s) (hs : s.Calm p.registry n T) :
    (x.exec p s).2.Calm p.registry n T :=
  ⟨by rw [State.depth, h.grows.frames]; exact hs.depth, h.closed⟩

theorem quiet_pure {a : α} (h : Q a) : Quiet p n T (pure a) Q :=
  fun s hs => ⟨.refl _ s, hs.closed, fun _ ha => Except.ok.inj ha ▸ h, fun _ _ _ _ => rfl⟩

theorem quiet_throw (e : Fault) : Quiet p n T (throw e : Exec α) Q :=
  fun s hs => ⟨.refl _ s, hs.closed, fun _ ha => (nomatch ha), fun _ _ _ _ => rfl⟩

theorem quiet_ofExcept {x : Except Fault α} (h : ∀ a, x = .ok a → Q a) :
    Quiet p n T (MonadExcept.ofExcept x : Exec α) Q := by
  cases x with
  | ok a => exact quiet_pure (h a rfl)
  | error e => exact quiet_throw e

theorem Quiet.bind {x : Exec α} {f : α → Exec β} (hx : Quiet p n T x Q)
    (hf : ∀ a, Q a → Quiet p n T (f a) S) : Quiet p n T (x >>= f) S := by
  intro s hs
  have hx := hx s hs
  have hcalm := hx.calm hs
  rcases hout : x.exec p s with ⟨e | a, s'⟩
  · have hbind : (x >>= f).exec p s = (.error e, s') := by rw [exec_bind, hout]
    obtain ⟨hgrows, hclosed, -, hstand⟩ := hx
    rw [hout] at hgrows hclosed hstand
    refine ⟨by rw [hbind]; exact hgrows, by rw [hbind]; exact hclosed, fun b hb => ?_,
      fun L σ k hL => ?_⟩
    · rw [hbind] at hb
      cases hb
    · rw [exec_bind, hstand L σ k hL, hbind]
  · have hbind : (x >>= f).exec p s = (f a).exec p s' := by rw [exec_bind, hout]
    obtain ⟨hgrows, -, hans, hstand⟩ := hx
    rw [hout] at hgrows hans hstand hcalm
    obtain ⟨hgrows', hclosed', hans', hstand'⟩ := hf a (hans a rfl) s' hcalm
    refine ⟨by rw [hbind]; exact hgrows.trans hgrows', by rw [hbind]; exact hclosed',
      fun b hb => ?_, fun L σ k hL => ?_⟩
    · rw [hbind] at hb
      exact hans' b hb
    · rw [exec_bind, hstand L σ k hL, hbind]
      exact hstand' L σ k (hL.congr hgrows.frames)

theorem quiet_read : Quiet p n T (read : Exec Program) fun q => q = p :=
  fun s hs => ⟨.refl _ s, hs.closed, fun _ ha => (Except.ok.inj ha).symm, fun _ _ _ _ => rfl⟩

theorem quiet_level : Quiet p n T level fun k => k = n := by
  intro s hs
  refine ⟨.refl _ s, hs.closed, fun k hk => ?_, fun L σ k _ => ?_⟩
  · rw [exec_level, hs.depth] at hk
    exact (Except.ok.inj hk).symm
  · rw [exec_level, exec_level, depth_standing]

theorem quiet_alloc (type : TypeHash) (hv : v.Within (Root.Outside n T)) :
    Quiet p n T (alloc type v) fun _ => True := by
  intro s hs
  refine ⟨extends_alloc type v, hs.closed.alloc type hv, fun _ _ => trivial, fun L σ k hL => ?_⟩
  obtain ⟨f, rest, hf, -⟩ := hL
  have hf' : State.frames { s with heap := (s.heap.alloc type v).2 } = f :: rest := hf
  rw [exec_alloc, exec_alloc, standing_eq hf, standing_eq hf']

theorem quiet_object (id : ObjectId) :
    Quiet p n T (object id) fun o => o.value.Within (Root.Outside n T) := by
  intro s hs
  refine ⟨by rw [exec_object]; exact .refl _ s, by rw [exec_object]; exact hs.closed,
    fun o ho => ?_, fun L σ k hL => ?_⟩
  · rw [exec_object] at ho
    have ho : s.heap.get id = .ok o := ho
    refine hs.closed (.heap id) o.value (fun _ _ heq => by cases heq) ?_
    rw [State.root, ho]
    rfl
  · obtain ⟨f, rest, hf, -⟩ := hL
    rw [exec_object, exec_object, standing_eq hf]

theorem quiet_readRoot {root : Root} (hroot : root.Outside n T) :
    Quiet p n T (readRoot root) fun v => v.Within (Root.Outside n T) := by
  intro s hs
  have hdepth : (s.materialize p.registry root).depth = n + 1 := by
    rw [State.depth, materialize_frames]
    exact hs.depth
  have hclosed := hs.closed.materialize root
  refine ⟨by rw [exec_readRoot]; exact extends_materialize root,
    by rw [exec_readRoot]; exact hclosed, fun v hv => ?_, fun L σ k hL => ?_⟩
  · rw [exec_readRoot] at hv
    exact hclosed root v hroot hv
  · have hL := hL.congr (materialize_frames (r := p.registry) root)
    rw [exec_readRoot, exec_readRoot, materialize_standing, root_standing hdepth hL hroot]

theorem quiet_fetch (ha : a.root.Outside n T) :
    Quiet p n T (fetch a) fun v => v.Within (Root.Outside n T) :=
  (quiet_readRoot ha).bind fun _ hv => quiet_ofExcept fun _ hw => hv.follow hw

theorem quiet_deref (hv : v.Within (Root.Outside n T)) :
    Quiet p n T (deref v) fun w => w.Within (Root.Outside n T) := by
  cases hv with
  | address ha => exact quiet_fetch ha
  | _ => exact quiet_throw _

theorem quiet_memberAddress (hv : v.Within (Root.Outside n T)) (index : UInt16) :
    Quiet p n T (memberAddress v index) fun a => a.root.Outside n T := by
  cases hv with
  | ref id => exact quiet_pure fun _ _ heq => by cases heq
  | address ha => exact quiet_pure ha
  | lit l => cases l <;> exact quiet_throw _
  | _ => exact quiet_throw _

theorem quiet_expectRef (v : Value) : Quiet p n T (expectRef v) fun _ => True := by
  unfold expectRef
  split
  · exact quiet_pure trivial
  · exact quiet_throw _
  · exact quiet_throw _

theorem quiet_arrayLength (id : ObjectId) : Quiet p n T (arrayLength id) fun _ => True := by
  refine (quiet_object id).bind fun o _ => ?_
  split
  · exact quiet_pure trivial
  · exact quiet_throw _

theorem quiet_elementAddress (array index : Value) :
    Quiet p n T (elementAddress array index) fun a => a.root.Outside n T := by
  refine (quiet_expectRef array).bind fun id _ => ?_
  split
  · exact quiet_throw _
  · refine (quiet_arrayLength id).bind fun length _ => ?_
    split
    · exact quiet_pure fun _ _ heq => by cases heq
    · exact quiet_throw _

theorem quiet_dynamicType (v : Value) : Quiet p n T (dynamicType v) fun _ => True := by
  unfold dynamicType
  split
  · exact (quiet_object _).bind fun _ _ => quiet_pure trivial
  · exact quiet_pure trivial
  · exact quiet_throw _

theorem quiet_unboxed (target : TypeHash) (v : Value) :
    Quiet p n T (unboxed target v) fun w => w.Within (Root.Outside n T) := by
  refine (quiet_expectRef v).bind fun id _ => (quiet_object id).bind fun o ho =>
    quiet_read.bind fun _ _ => ?_
  split
  · exact (quiet_throw (Q := fun _ => True) _).bind fun _ _ => quiet_pure ho
  · exact quiet_pure ho

theorem quiet_castTo (target : TypeHash) (hv : v.Within (Root.Outside n T)) :
    Quiet p n T (castTo target v) fun w => w.Within (Root.Outside n T) := by
  unfold castTo
  dsimp only
  split
  · refine (quiet_dynamicType v).bind fun actual _ => quiet_read.bind fun _ _ => ?_
    split
    · exact (quiet_throw (Q := fun _ => True) _).bind fun _ _ => quiet_pure hv
    · exact quiet_pure hv
  · exact quiet_pure hv

theorem quiet_conversion (rule : ConversionRule) (hv : v.Within (Root.Outside n T)) :
    Quiet p n T (rule.apply v) fun w => w.Within (Root.Outside n T) := by
  cases rule with
  | identity => exact quiet_pure hv
  | box h => exact (quiet_alloc h hv).bind fun id _ => quiet_pure (.ref id)
  | unbox h => exact quiet_unboxed h v
  | cast h => exact quiet_castTo h hv
  | operator | constructor => exact quiet_throw _

end Exec

/-! ### Symbols -/

/-- Where the addresses lead that a spot is known by. -/
def Spot.Within (P : Root → Prop) : Spot → Prop
  | .place a => P a.root
  | .inHand v _ => v.Within P

namespace Symbol

open Exec

variable {κ : Literal → Literal}

theorem quiet_spotFetch {spot : Spot} (h : spot.Within (Root.Outside n T)) :
    Quiet p n T spot.fetch fun v => v.Within (Root.Outside n T) := by
  cases spot with
  | place a => exact quiet_fetch h
  | inHand v path => exact quiet_ofExcept fun w hw => Value.Within.follow h hw

theorem quiet_valueAt (s : Symbol) {x : Exec Spot}
    (hx : Quiet p n T x fun spot => spot.Within (Root.Outside n T)) :
    Quiet p n T (s.valueAt x) fun v => v.Within (Root.Outside n T) := by
  refine hx.bind fun spot hspot => (quiet_spotFetch hspot).bind fun w hw => ?_
  split
  · exact quiet_deref hw
  · exact quiet_pure hw

/-- Finding where a symbol is. Its variables are not among the slots in question. -/
theorem quiet_spot (s : Symbol) (hs : ∀ slot, s.Uses slot → slot ∉ T) :
    Quiet p n T (s.spot κ) fun spot => spot.Within (Root.Outside n T) := by
  have hpart : ∀ x ∈ s.parts, ∀ slot, x.Uses slot → slot ∉ T :=
    fun x hx slot huses => hs slot (.part hx huses)
  cases s with
  | localSlot c slot t =>
    refine quiet_level.bind fun k hk => quiet_pure ?_
    intro slot' hslot' heq
    cases heq
    exact hs slot .slot hslot'
  | argument c slot t => exact quiet_level.bind fun k _ => quiet_pure fun _ _ heq => by cases heq
  | field c holder f =>
    have hhold := quiet_spot holder (hpart holder (by simp [parts]))
    refine quiet_read.bind fun _ _ => ?_
    split
    · split
      · refine hhold.bind fun spot hspot => (quiet_spotFetch hspot).bind fun w hw => ?_
        exact (quiet_memberAddress hw f.index).bind fun a ha => quiet_pure ha
      · refine hhold.bind fun spot hspot => quiet_pure ?_
        cases spot with
        | place a => exact hspot
        | inHand v path => exact hspot
    · refine (quiet_valueAt holder hhold).bind fun w hw => ?_
      exact (quiet_memberAddress hw f.index).bind fun a ha => quiet_pure ha
  | staticField c f => exact quiet_pure fun _ _ heq => by cases heq
  | element c array index t =>
    have harray := quiet_spot array (hpart array (by simp [parts]))
    have hidx := quiet_spot index (hpart index (by simp [parts]))
    refine (quiet_valueAt array harray).bind fun a _ =>
      (quiet_valueAt index hidx).bind fun i _ => ?_
    exact (quiet_elementAddress a i).bind fun a ha => quiet_pure ha
  | captured c id => exact quiet_pure fun _ _ heq => by cases heq
  | literal c l => exact quiet_pure (.lit _)
  | binary c op lhs rhs t =>
    have hlhs := quiet_spot lhs (hpart lhs (by simp [parts]))
    have hrhs := quiet_spot rhs (hpart rhs (by simp [parts]))
    refine (quiet_valueAt lhs hlhs).bind fun a _ => (quiet_valueAt rhs hrhs).bind fun b _ => ?_
    refine (quiet_ofExcept fun v hv => hv).bind fun v hv => quiet_pure ?_
    obtain ⟨l, rfl⟩ := BinaryOp.apply_ok hv
    exact .lit l
  | unary c op operand t =>
    have hop := quiet_spot operand (hpart operand (by simp [parts]))
    refine (quiet_valueAt operand hop).bind fun a _ => ?_
    refine (quiet_ofExcept fun v hv => hv).bind fun v hv => quiet_pure ?_
    obtain ⟨l, rfl⟩ := UnaryOp.apply_ok hv
    exact .lit l
  | arrayLength c array =>
    have harray := quiet_spot array (hpart array (by simp [parts]))
    refine (quiet_valueAt array harray).bind fun a _ => (quiet_expectRef a).bind fun id _ => ?_
    exact (quiet_arrayLength id).bind fun k _ => quiet_pure (.lit _)
  | converted c source k =>
    have hsrc := quiet_spot source (hpart source (by simp [parts]))
    refine (quiet_valueAt source hsrc).bind fun v hv => ?_
    exact (quiet_conversion k.rule hv).bind fun w hw => quiet_pure hw
  | call | callOn | construct | newArray => exact quiet_throw _
termination_by sizeOf s

theorem quiet_held (s : Symbol) (hs : ∀ slot, s.Uses slot → slot ∉ T) :
    Quiet p n T (s.held κ) fun v => v.Within (Root.Outside n T) :=
  (quiet_spot s hs).bind fun _ hspot => quiet_spotFetch hspot

theorem quiet_value (s : Symbol) (hs : ∀ slot, s.Uses slot → slot ∉ T) :
    Quiet p n T (s.value κ) fun v => v.Within (Root.Outside n T) :=
  quiet_valueAt s (quiet_spot s hs)

end Symbol

end StackCode
