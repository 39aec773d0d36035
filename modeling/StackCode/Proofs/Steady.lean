import StackCode.Proofs.Simulation

/-!
# Evaluation does not depend on defaults

A symbol without boxes is evaluated without changing anything, except that static fields which are
read for the first time get their defaults. Whether they have got them before makes no difference:
symbols can be evaluated in any order, with the same results.
-/

namespace StackCode

namespace State

variable {r : Registry} {s s' s'' : State}

/-- Static fields have got their defaults; nothing else has changed. -/
structure Settles (r : Registry) (s s' : State) : Prop extends s.Extends r s' where
  objects : s'.heap = s.heap

theorem Settles.refl (r : Registry) (s : State) : s.Settles r s := ⟨.refl r s, rfl⟩

theorem Settles.trans (h : s.Settles r s') (h' : s'.Settles r s'') : s.Settles r s'' :=
  ⟨h.toExtends.trans h'.toExtends, h'.objects.trans h.objects⟩

/-- What a static field has after it is looked up. -/
theorem statics_materialize (field h : TypeHash) :
    (s.materialize r (.static field)).statics[h]? = if h = field then
      s.statics[h]?.or ((r.fieldByHash? h).map fun f => r.defaultValue f.type.hash) else
      s.statics[h]? := by
  split
  · rename_i heq
    subst heq
    exact cell?_materialize_self s (.static h)
  · rename_i hne
    have hcell : Cell.static h ≠ (Root.static field).cell := fun heq => hne (Cell.static.inj heq)
    exact cell?_materialize_ne s hcell

theorem settles_materialize (root : Root) : s.Settles r (s.materialize r root) :=
  ⟨extends_materialize root, s.heap_materialize r root⟩

/-- A static field has the same value, whether it has got its default before or not. -/
theorem Settles.root_materialize (h : s.Settles r s') (root : Root) :
    (s'.materialize r root).root r root = (s.materialize r root).root r root := by
  have hframes : ∀ n, s'.frame? n = s.frame? n := fun n => by
    rw [frame?, frame?, depth, depth, h.frames]
  rw [root_eq, root_eq, cell?_materialize_self, cell?_materialize_self]
  congr 1
  cases root with
  | localSlot n slot | argument n slot => simp only [Root.cell, cell?, hframes]
  | heap id => simp only [Root.cell, cell?, h.objects]
  | captured owner index => simp only [Root.cell, cell?, h.captured]
  | static field =>
    rcases h.statics field with hsame | ⟨hnone, f, hf, hdef⟩
    · simp only [Root.cell, cell?, hsame]
    · simp [Root.cell, cell?, Root.default?, hnone, hdef, hf]

end State

/-! ### Steady computations -/

namespace Exec

variable {α β : Type} {p : Program} {s s' : State}

/-- A computation only settles the state. From a state that is settled already it has the same
result, and what is settled in the end was so before, or comes to be so without that. -/
structure Steady (p : Program) (x : Exec α) : Prop where
  settles : ∀ s : State, s.Settles p.registry (x.exec p s).2
  same : ∀ s s' : State, s.Settles p.registry s' → (x.exec p s').1 = (x.exec p s).1
  statics : ∀ s s' : State, s.Settles p.registry s' → ∀ h : TypeHash,
    (x.exec p s').2.statics[h]? = s'.statics[h]?.or ((x.exec p s).2.statics[h]?)

/-- A state stays settled with respect to another one. -/
theorem Steady.after {x : Exec α} (hx : Steady p x) (h : s.Settles p.registry s') :
    (x.exec p s).2.Settles p.registry (x.exec p s').2 := by
  have hs := hx.settles s
  have hs' := hx.settles s'
  refine ⟨⟨?_, ?_, ?_, fun k => ?_⟩, ?_⟩
  · rw [hs'.frames, hs.frames, h.frames]
  · rw [hs'.captured, hs.captured, h.captured]
  · rw [hs'.objects, hs.objects, h.objects]
  · rw [hx.statics s s' h k]
    rcases h.statics k with hsame | ⟨hnone, f, hf, hdef⟩ <;>
      rcases hs.statics k with hsame' | ⟨hnone', f', hf', hdef'⟩
    · simp [hsame, hsame']
    · simp [hsame, hnone']
    · exact .inr ⟨hsame'.trans hnone, f, hf, by simp [hdef]⟩
    · cases hf.symm.trans hf'
      simp [hdef, hdef']
  · rw [hs'.objects, hs.objects, h.objects]

theorem steady_of_eq {x : Exec α} {a : State → Except Fault α}
    (hx : ∀ s, x.exec p s = (a s, s)) (ha : ∀ s s', s.Settles p.registry s' → a s' = a s) :
    Steady p x where
  settles s := by
    rw [hx]
    exact .refl _ s
  same s s' h := by rw [hx, hx, ha s s' h]
  statics s s' h k := by
    rw [hx, hx]
    rcases h.statics k with hsame | ⟨hnone, -⟩
    · simp [hsame]
    · simp [hnone]

@[simp] theorem steady_pure (a : α) : Steady p (pure a) :=
  steady_of_eq (fun _ => exec_pure a) fun _ _ _ => rfl

@[simp] theorem steady_throw (e : Fault) : Steady p (throw e : Exec α) :=
  steady_of_eq (fun _ => exec_throw e) fun _ _ _ => rfl

@[simp] theorem steady_ofExcept (x : Except Fault α) : Steady p (MonadExcept.ofExcept x : Exec α) :=
  steady_of_eq (fun _ => exec_ofExcept x) fun _ _ _ => rfl

@[simp] theorem steady_read : Steady p (read : Exec Program) :=
  steady_of_eq (fun _ => exec_read) fun _ _ _ => rfl

@[simp] theorem steady_level : Steady p level :=
  steady_of_eq (fun _ => exec_level) fun _ _ h => by rw [State.depth, State.depth, h.frames]

@[simp] theorem steady_object (id : ObjectId) : Steady p (object id) :=
  steady_of_eq (fun _ => exec_object id) fun _ _ h => by rw [h.objects]

@[simp] theorem steady_readRoot (root : Root) : Steady p (readRoot root) where
  settles s := by
    rw [exec_readRoot]
    exact State.settles_materialize root
  same s s' h := by
    rw [exec_readRoot, exec_readRoot]
    exact h.root_materialize root
  statics s s' h k := by
    rw [exec_readRoot, exec_readRoot]
    have hold : s'.statics[k]? = s'.statics[k]?.or s.statics[k]? := by
      rcases h.statics k with hsame | ⟨hnone, -⟩
      · simp [hsame]
      · simp [hnone]
    cases root with
    | static field =>
      simp only [State.statics_materialize]
      by_cases heq : k = field
      · rw [if_pos heq, if_pos heq, ← Option.or_assoc, ← hold]
      · rw [if_neg heq, if_neg heq, ← hold]
    | _ => exact hold

@[simp] theorem Steady.bind {x : Exec α} {f : α → Exec β} (hx : Steady p x)
    (hf : ∀ a, Steady p (f a)) :
    Steady p (x >>= f) where
  settles s := by
    rw [exec_bind]
    have hs := hx.settles s
    rcases hout : x.exec p s with ⟨e | a, t⟩ <;> rw [hout] at hs
    · exact hs
    · exact hs.trans ((hf a).settles t)
  same s s' h := by
    have hsame := hx.same s s' h
    have hafter := hx.after h
    rw [exec_bind, exec_bind]
    rcases hout : x.exec p s with ⟨e | a, t⟩ <;> rcases hout' : x.exec p s' with ⟨e' | a', t'⟩ <;>
      rw [hout, hout'] at hsame hafter <;> cases hsame
    · rfl
    · exact (hf a).same t t' hafter
  statics s s' h k := by
    have hsame := hx.same s s' h
    have hafter := hx.after h
    have hstatics := hx.statics s s' h k
    rw [exec_bind, exec_bind]
    rcases hout : x.exec p s with ⟨e | a, t⟩ <;> rcases hout' : x.exec p s' with ⟨e' | a', t'⟩ <;>
      rw [hout, hout'] at hsame hafter hstatics <;> cases hsame
    · exact hstatics
    · have hsecond := (hf a).statics t t' hafter k
      rw [hsecond, hstatics, Option.or_assoc]
      -- what the first part has settled the second one keeps
      rcases ((hf a).settles t).statics k with hkept | ⟨hnone, -⟩
      · rw [hkept, Option.or_self]
      · rw [hnone, Option.none_or]

@[simp] theorem Steady.map {x : Exec α} (hx : Steady p x) (g : α → β) : Steady p (g <$> x) := by
  rw [map_eq_pure_bind]
  exact hx.bind fun a => steady_pure (g a)

@[simp] theorem steady_fetch (a : Address) : Steady p (fetch a) :=
  (steady_readRoot a.root).bind fun _ => steady_ofExcept _

@[simp] theorem steady_deref (v : Value) : Steady p (deref v) := by
  unfold deref
  split <;> simp

@[simp] theorem steady_memberAddress (v : Value) (index : UInt16) :
    Steady p (memberAddress v index) := by
  unfold memberAddress
  split <;> simp

@[simp] theorem steady_expectRef (v : Value) : Steady p (expectRef v) := by
  unfold expectRef
  split <;> simp

@[simp] theorem steady_arrayLength (id : ObjectId) : Steady p (arrayLength id) := by
  refine (steady_object id).bind fun o => ?_
  split <;> simp

@[simp] theorem steady_elementAddress (array index : Value) :
    Steady p (elementAddress array index) := by
  refine (steady_expectRef array).bind fun id => ?_
  split
  · simp
  · refine (steady_arrayLength id).bind fun length => ?_
    split <;> simp

theorem steady_dynamicType (v : Value) : Steady p (dynamicType v) := by
  unfold dynamicType
  split <;> simp

theorem steady_unboxed (target : TypeHash) (v : Value) : Steady p (unboxed target v) := by
  refine (steady_expectRef v).bind fun id => (steady_object id).bind fun o =>
    steady_read.bind fun _ => ?_
  split <;> simp

theorem steady_castTo (target : TypeHash) (v : Value) : Steady p (castTo target v) := by
  unfold castTo
  dsimp only
  split
  · refine (steady_dynamicType v).bind fun actual => steady_read.bind fun _ => ?_
    split <;> simp
  · simp

theorem steady_conversion {rule : ConversionRule} (hrule : ∀ h, rule ≠ .box h) (v : Value) :
    Steady p (rule.apply v) := by
  cases rule with
  | identity => exact steady_pure v
  | box h => exact absurd rfl (hrule h)
  | unbox h => exact steady_unboxed h v
  | cast h => exact steady_castTo h v
  | operator | constructor => exact steady_throw _

end Exec

/-! ### Symbols -/

namespace Symbol

open Exec

variable {p : Program} {κ : Literal → Literal} {literals : Literal → Prop}

@[simp] theorem steady_spotFetch (spot : Spot) : Steady p spot.fetch := by
  cases spot with
  | place a => exact steady_fetch a
  | inHand v path => exact steady_ofExcept _

theorem steady_valueAt (s : Symbol) {x : Exec Spot} (hx : Steady p x) : Steady p (s.valueAt x) := by
  refine hx.bind fun spot => (steady_spotFetch spot).bind fun w => ?_
  split <;> simp

/-- Finding where a symbol without boxes is. -/
theorem steady_spot (s : Symbol) (hs : s.Evaluable literals False) : Steady p (s.spot κ) := by
  cases s with
  | localSlot | argument => exact steady_level.bind fun _ => steady_pure _
  | field c holder f =>
    have hhold := steady_spot holder hs
    refine steady_read.bind fun _ => ?_
    split
    · split
      · refine hhold.bind fun spot => ?_
        simp
      · simp [hhold]
    · simp [steady_valueAt, hhold]
  | staticField | captured | literal => exact steady_pure _
  | element c array index t =>
    refine (steady_valueAt array (steady_spot array hs.1)).bind fun a => ?_
    refine (steady_valueAt index (steady_spot index hs.2)).bind fun i => ?_
    exact (steady_elementAddress a i).bind fun a => steady_pure _
  | binary c op lhs rhs t =>
    refine (steady_valueAt lhs (steady_spot lhs hs.1)).bind fun a => ?_
    refine (steady_valueAt rhs (steady_spot rhs hs.2)).bind fun b => ?_
    exact (steady_ofExcept _).bind fun v => steady_pure _
  | unary c op operand t =>
    refine (steady_valueAt operand (steady_spot operand hs)).bind fun a => ?_
    exact (steady_ofExcept _).bind fun v => steady_pure _
  | arrayLength c array =>
    refine (steady_valueAt array (steady_spot array hs)).bind fun a => ?_
    simp
  | converted c source k =>
    obtain ⟨hsrc, hrule⟩ := hs
    refine (steady_valueAt source (steady_spot source hsrc)).bind fun v => ?_
    refine (steady_conversion (fun h heq => ?_) v).bind fun w => steady_pure _
    rwa [heq] at hrule
  | call | callOn | construct | newArray => exact absurd hs id
termination_by sizeOf s

theorem steady_held (s : Symbol) (hs : s.Evaluable literals False) : Steady p (s.held κ) :=
  (steady_spot s hs).bind steady_spotFetch

theorem steady_value (s : Symbol) (hs : s.Evaluable literals False) : Steady p (s.value κ) :=
  steady_valueAt s (steady_spot s hs)

theorem steady_reference (s : Symbol) (hs : s.Evaluable literals False) :
    Steady p (s.reference κ) := by
  unfold reference
  split
  · exact (steady_held s hs).map _
  · exact (steady_spot s hs).map _

/-- What can be evaluated without boxes can be evaluated with them. -/
theorem Evaluable.boxing {s : Symbol} (hs : s.Evaluable literals False) :
    s.Evaluable literals True := by
  cases s with
  | localSlot | argument | staticField | captured => trivial
  | literal => exact hs
  | field c holder f => exact boxing (s := holder) hs
  | unary c op operand t => exact boxing (s := operand) hs
  | arrayLength c array => exact boxing (s := array) hs
  | element c array index t => exact ⟨boxing hs.1, boxing hs.2⟩
  | binary c op lhs rhs t => exact ⟨boxing hs.1, boxing hs.2⟩
  | converted c source k =>
    obtain ⟨hsrc, hrule⟩ := hs
    refine ⟨boxing hsrc, ?_⟩
    cases hk : k.rule <;> rw [hk] at hrule <;> trivial
  | call | callOn | construct | newArray => exact absurd hs id
termination_by sizeOf s

end Symbol

/-! ### Types -/

namespace Exec

variable {α : Type} {p : Program} {x : Exec α} {s s' : State} {Q R : α → State → Prop}

/-- What comes of a steady computation in a settled state. -/
theorem After.settles (h : x.After p s Q) (hx : Steady p x) (hs : s.Settles p.registry s')
    (hR : ∀ a t t', t.Settles p.registry t' → Q a t → R a t') : x.After p s' R := by
  intro a t' hout'
  have hsame := hx.same s s' hs
  have hafter := hx.after hs
  rw [hout'] at hsame hafter
  exact hR a _ t' hafter (h a _ (Prod.ext hsame.symm rfl))

end Exec

namespace Symbol

open Exec

variable {p : Program} {κ : Literal → Literal} {literals : Literal → Prop} {st st' : State}

theorem HasType.settles {s : Symbol} (h : s.HasType κ p st) (hs : s.Evaluable literals False)
    (hst : st.Settles p.registry st') : s.HasType κ p st' :=
  ⟨h.1.settles (steady_value s hs) hst fun _ _ _ _ hv => hv,
    fun href => (h.2 href).settles (steady_held s hs) hst fun _ _ _ _ hw => hw⟩

theorem Typed.settles {s : Symbol} {st st' : State} (h : s.Typed κ p st)
    (hs : s.Evaluable literals False) (hst : st.Settles p.registry st') : s.Typed κ p st' := by
  have htype := h.hasType.settles hs hst
  cases s with
  | field c holder f => exact ⟨settles h.1 hs hst, htype⟩
  | unary c op operand t => exact ⟨settles h.1 hs hst, htype⟩
  | arrayLength c array => exact ⟨settles h.1 hs hst, htype⟩
  | converted c source k => exact ⟨settles h.1 hs.1 hst, htype⟩
  | element c array index t =>
    refine ⟨settles h.1 hs.1 hst, ?_, htype⟩
    exact h.2.1.settles (steady_value array hs.1) hst fun a t t' ht hidx => settles hidx hs.2 ht
  | binary c op lhs rhs t =>
    refine ⟨settles h.1 hs.1 hst, ?_, htype⟩
    exact h.2.1.settles (steady_value lhs hs.1) hst fun a t t' ht hrhs => settles hrhs hs.2 ht
  | localSlot | argument | staticField | captured | literal => exact htype
  | call | callOn | construct | newArray => exact absurd hs id
termination_by sizeOf s

end Symbol

end StackCode
