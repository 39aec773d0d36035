import StackCode.Proofs.Assignment

/-!
# Ways of copying agree

An aggregate is assigned by copying a block between addresses, or through the operand stack. The two
find the place and the value in different orders. For symbols without calls and boxes the order does
not matter, and both ways lead to the same state. With calls it does matter: `next()` as an index on
both sides gives the two sides different elements.
-/

namespace StackCode

open Session StackCode.Symbol MonadExcept

variable {r : Registry} {s s' : State} {p : Program} {κ : Literal → Literal}

/-- States that differ by defaults of static fields in neither direction. -/
theorem State.Settles.statics_eq (h : s.Settles r s') (h' : s'.Settles r s) (k : TypeHash) :
    s'.statics[k]? = s.statics[k]? := by
  rcases h.statics k with hsame | ⟨hnone, -⟩
  · exact hsame
  · rcases h'.statics k with hsame' | ⟨hnone', -⟩
    · exact hsame'.symm
    · rw [hnone', hnone]

/-- What is settled by two computations does not depend on their order. -/
theorem State.Settles.or_comm {s₁ s₂ : State} (h₁ : s.Settles r s₁) (h₂ : s.Settles r s₂)
    (k : TypeHash) :
    s₁.statics[k]?.or s₂.statics[k]? = s₂.statics[k]?.or s₁.statics[k]? := by
  rcases h₁.statics k with hsame | ⟨hnone, f, hf, hdef⟩ <;>
    rcases h₂.statics k with hsame' | ⟨hnone', f', hf', hdef'⟩
  · rw [hsame, hsame']
  · rw [hsame, hnone', hdef']
    rfl
  · rw [hsame', hnone, hdef]
    rfl
  · cases hf.symm.trans hf'
    rw [hdef, hdef']

namespace Exec

variable {α β : Type}

/-- What one computation after the other settles. -/
theorem Steady.statics_bind {x : Exec α} {f : α → Exec β} (hx : Steady p x) {a : α}
    (hf : Steady p (f a)) (ha : x.result p s = .ok a) (k : TypeHash) :
    ((x >>= f).exec p s).2.statics[k]? = (x.exec p s).2.statics[k]?.or
      (((f a).exec p s).2.statics[k]?) := by
  have hsettle := hx.settles s
  rcases hout : x.exec p s with ⟨outcome, t⟩
  rw [result, hout] at ha
  cases ha
  rw [hout] at hsettle
  rw [exec_bind_of_ok hout]
  exact hf.statics s t hsettle k

theorem exec_ofExcept_bind {x : Except Fault α} {a : α} (hx : x = .ok a) (f : α → Exec β)
    (s : State) :
    ((ofExcept x : Exec α) >>= f).exec p s = (f a).exec p s := by
  rw [hx]
  rfl

theorem state_bind {x : Exec α} {f : α → Exec β} (hf : ∀ a s, ((f a).exec p s).2 = s) (s : State) :
    ((x >>= f).exec p s).2 = (x.exec p s).2 := by
  rw [exec_bind]
  rcases x.exec p s with ⟨e | a, s'⟩
  · rfl
  · exact hf a s'

theorem state_ofExcept (x : Except Fault α) (s : State) :
    ((ofExcept x : Exec α).exec p s).2 = s := by
  rw [exec_ofExcept]

end Exec

namespace CopyPath

open Exec

variable {literals : Literal → Prop} {dest source : Symbol} {path path' : CopyPath} {a : Address}
  {v : Value}

section

variable (hpath : path.Suits p.registry dest source)
include hpath

/-- Before the store the static fields are settled that one needs for the place or for the value. -/
theorem statics_operands (hdest : dest.Evaluable literals False)
    (hsrc : source.Evaluable literals False)
    (h : (path.operands κ dest source).result p s = .ok (a, v)) (k : TypeHash) :
    ((path.operands κ dest source).exec p s).2.statics[k]? =
      ((dest.place κ).exec p s).2.statics[k]?.or (((source.value κ).exec p s).2.statics[k]?) := by
  have hval := steady_value (κ := κ) (p := p) source hsrc
  have hplace := steady_place (κ := κ) (p := p) hdest
  cases path with
  | direct =>
    have hto := steady_reference (κ := κ) (p := p) dest hdest
    have hof := steady_reference (κ := κ) (p := p) source hsrc
    obtain ⟨i, hi, hrest⟩ := (hto.result_bind fun i => hof.bind (steady_blockOperands i)).mp h
    obtain ⟨j, hj, hblock⟩ := (hof.result_bind (steady_blockOperands i)).mp hrest
    obtain ⟨ha, b, hb, -⟩ := result_blockOperands.mp hblock
    have hdestState : ((dest.place κ).exec p s).2 = ((dest.reference κ).exec p s).2 :=
      state_bind (fun _ => state_ofExcept _) s
    have hsourceState : ((source.value κ).exec p s).2.statics[k]? =
        ((source.reference κ).exec p s).2.statics[k]?.or (((fetch b).exec p s).2.statics[k]?) := by
      rw [exec_value_of_inPlace hpath.2.1,
        hof.statics_bind ((steady_ofExcept _).bind steady_fetch) hj, exec_ofExcept_bind hb]
    have hblockState : ((blockOperands i j).exec p s).2 = ((fetch b).exec p s).2 := by
      rw [blockOperands, exec_ofExcept_bind hb, exec_ofExcept_bind ha]
      exact state_bind (fun _ _ => rfl) s
    rw [operands, hto.statics_bind (hof.bind (steady_blockOperands i)) hi,
      hof.statics_bind (steady_blockOperands i j) hj, hdestState, hsourceState, hblockState]
  | indirect =>
    have hheld := steady_held (κ := κ) (p := p) dest hdest
    have hlast : ∀ w : Value, ∀ v : Value, Steady p (do
        return (← ofExcept w.asAddress, v)) := fun w v =>
      (steady_ofExcept _).bind fun a => steady_pure (a, v)
    obtain ⟨w, hw, -⟩ := (hheld.result_bind fun w => hval.bind (hlast w)).mp h
    have hdestState : ((dest.place κ).exec p s).2 = ((dest.held κ).exec p s).2 := by
      rw [place_of_byRef hpath]
      exact state_bind (fun _ => state_ofExcept _) s
    have hsourceState : ((source.value κ >>= fun v => do
        return (← ofExcept w.asAddress, v)).exec p s).2 =
        ((source.value κ).exec p s).2 :=
      state_bind (fun _ s => (state_bind (fun _ _ => rfl) s).trans (state_ofExcept _ s)) s
    rw [operands, hheld.statics_bind (hval.bind (hlast w)) hw, hdestState, hsourceState]
  | stack =>
    have hlast : ∀ v : Value, Steady p (do return (← dest.place κ, v)) := fun v =>
      hplace.bind fun a => steady_pure (a, v)
    obtain ⟨v', hv, -⟩ := (hval.result_bind hlast).mp h
    have hdestState : ((dest.place κ >>= fun a => pure (a, v')).exec p s).2 =
        ((dest.place κ).exec p s).2 := state_bind (fun _ _ => rfl) s
    rw [operands, hval.statics_bind (hlast v') hv, hdestState]
    exact (hval.settles s).or_comm (hplace.settles s) k

/-- Two ways of copying have settled the same before the store. -/
theorem settles_operands (hpath' : path'.Suits p.registry dest source)
    (hdest : dest.Evaluable literals False) (hsrc : source.Evaluable literals False)
    (h : (path.operands κ dest source).result p s = .ok (a, v))
    (h' : (path'.operands κ dest source).result p s = .ok (a, v)) :
    ((path.operands κ dest source).exec p s).2.Settles p.registry
      ((path'.operands κ dest source).exec p s).2 := by
  have hs := (steady_operands (κ := κ) (p := p) hdest hsrc path).settles s
  have hs' := (steady_operands (κ := κ) (p := p) hdest hsrc path').settles s
  refine ⟨⟨?_, ?_, ?_, fun k => .inl ?_⟩, ?_⟩
  · rw [hs'.frames, hs.frames]
  · rw [hs'.captured, hs.captured]
  · rw [hs'.objects, hs.objects]
  · rw [statics_operands hpath' hdest hsrc h', statics_operands hpath hdest hsrc h]
  · rw [hs'.objects, hs.objects]

/-- If the assignment can be done, two ways of copying lead to the same state. -/
theorem exec_agrees (hpath' : path'.Suits p.registry dest source)
    (hdest : dest.Evaluable literals False)
    (hsrc : source.Evaluable literals False) (h : Symbol.Assigns κ p dest source s s') :
    ∃ s₁ s₂, (path.operands κ dest source >>= storeAt).exec p s = (.ok (), s₁) ∧
      (path'.operands κ dest source >>= storeAt).exec p s = (.ok (), s₂) ∧
      s'.Settles p.registry s₁ ∧ s₁.Settles p.registry s₂ ∧ s₂.Settles p.registry s₁ := by
  obtain ⟨s₁, hexec, hdone⟩ := exec_of_assigns hpath hdest hsrc h
  obtain ⟨s₂, hexec', -⟩ := exec_of_assigns hpath' hdest hsrc h
  obtain ⟨a, v, ha, hv, -⟩ := h
  have hres := (result_operands hdest hsrc hpath a v).mpr ⟨ha, hv⟩
  have hres' := (result_operands hdest hsrc hpath' a v).mpr ⟨ha, hv⟩
  have hsettle := settles_operands hpath hpath' hdest hsrc hres hres'
  have hsettle' := settles_operands hpath' hpath hdest hsrc hres' hres
  rcases hout : (path.operands κ dest source).exec p s with ⟨outcome, t⟩
  rcases hout' : (path'.operands κ dest source).exec p s with ⟨outcome', t'⟩
  rw [result, hout] at hres
  rw [result, hout'] at hres'
  cases hres
  cases hres'
  rw [hout, hout'] at hsettle hsettle'
  have hstored := (store_settles hsettle a v).2
  have hstored' := (store_settles hsettle' a v).2
  rw [exec_bind_of_ok hout, storeAt] at hexec
  rw [exec_bind_of_ok hout', storeAt] at hexec'
  rw [hexec, hexec'] at hstored hstored'
  exact ⟨s₁, s₂, by rw [exec_bind_of_ok hout, storeAt, hexec],
    by rw [exec_bind_of_ok hout', storeAt, hexec'], hdone, hstored, hstored'⟩

end

end CopyPath

/-- Two states with the same frames, heap, static fields and captured values. -/
structure State.Agrees (s s' : State) : Prop where
  frames : s'.frames = s.frames
  heap : s'.heap = s.heap
  captured : s'.captured = s.captured
  statics : ∀ h : TypeHash, s'.statics[h]? = s.statics[h]?

theorem State.Settles.agrees (h : s.Settles r s') (h' : s'.Settles r s) : s.Agrees s' :=
  ⟨h.frames, h.objects, h.captured, h.statics_eq h'⟩

namespace Session

/-- An assignment and one through the operand stack agree, if both sides are without calls and
boxes. Let the machine be in one state before the code of either. If the assignment can be done,
both come to the end of their code, and the states there differ in temporaries only. If not, both
raise a fault. -/
theorem copies_agree {r : Registry} (hr : r.Registered) {m : Method} {s₁ s₂ s' : Session}
    {dest source : Symbol} (hassign : s₁.Performs r m (.assign dest source) s')
    (hmediated : s₂.Performs r m (.assignStackMediated dest source) s')
    (hdest : dest.Evaluable (fun _ => True) False)
    (hsource : source.Evaluable (fun _ => True) False)
    {p : Program} (hp : p.registry = r) {st : State} {f : Frame} {rest : List Frame}
    (hat : st.At m s₁.body.emitter.offset f rest)
    (hclosed : st.Closed r (Root.Outside rest.length s'.temporaries))
    (htyped : dest.Typed m.constants.kept p st) (htyped' : source.Typed m.constants.kept p st) :
    (∀ stu, Symbol.Assigns m.constants.kept p dest source st stu →
      ∃ (st₁ st₂ : State) (L₁ L₂ : Array Value), stu.Settles r st₁ ∧ st₁.Agrees st₂ ∧
        st₁.Like s'.temporaries L₁ ∧ st₂.Like s'.temporaries L₂ ∧
        Exec.Reaches p st
          (st₁.standing L₁ f.stack (s₁.after (.assign dest source)).body.emitter.offset) ∧
        Exec.Reaches p (st.standing f.locals f.stack s₂.body.emitter.offset)
          (st₂.standing L₂ f.stack
            (s₂.after (.assignStackMediated dest source)).body.emitter.offset)) ∧
    ((∀ stu, ¬Symbol.Assigns m.constants.kept p dest source st stu) →
      (∃ e t u, Exec.Reaches p st t ∧ Exec.step.exec p t = (.error e, u)) ∧
      ∃ e t u, Exec.Reaches p (st.standing f.locals f.stack s₂.body.emitter.offset) t ∧
        Exec.step.exec p t = (.error e, u)) := by
  have hassign : s₁.Performs r m (.assigning false dest source) s' := hassign
  have hmediated : s₂.Performs r m (.assigning true dest source) s' := hmediated
  obtain ⟨hpath, hends⟩ := hassign.ends hr hdest hsource hp hat.hosts ⟨hat.depth, hclosed⟩
    (hat.like s'.temporaries) htyped htyped'
  obtain ⟨hpath', hends'⟩ := hmediated.ends hr hdest hsource hp hat.hosts ⟨hat.depth, hclosed⟩
    (hat.like s'.temporaries) htyped htyped'
  subst hp
  have hstart := hat.standing
  refine ⟨fun stu hcan => ?_, fun hcannot => ?_⟩
  · obtain ⟨st₁, st₂, hexec, hexec', hdone, hsettles, hsettles'⟩ :=
      CopyPath.exec_agrees hpath hpath' hdest hsource hcan
    obtain ⟨L₁, hreaches, hlike⟩ := hends.ok st₁ hexec f.stack
    obtain ⟨L₂, hreaches', hlike'⟩ := hends'.ok st₂ hexec' f.stack
    rw [List.nil_append, hstart] at hreaches
    exact ⟨st₁, st₂, L₁, L₂, hdone, hsettles.agrees hsettles', hlike, hlike', hreaches, hreaches'⟩
  · obtain ⟨e, st₁, hexec, -⟩ := CopyPath.exec_of_not_assigns hpath hdest hsource hcannot
    obtain ⟨e', st₂, hexec', -⟩ := CopyPath.exec_of_not_assigns hpath' hdest hsource hcannot
    obtain ⟨t, L, σ, k, hreaches, hstep, -⟩ := hends.error e st₁ hexec f.stack
    obtain ⟨t', L', σ', k', hreaches', hstep', -⟩ := hends'.error e' st₂ hexec' f.stack
    rw [List.nil_append, hstart] at hreaches
    exact ⟨⟨e, t, _, hreaches, hstep⟩, e', t', _, hreaches', hstep'⟩

end Session

/-! ### A pair that is passed by reference -/

namespace Copied

open Boxed (registry pair registered_registry program)

/-- A function that is given one pair by reference and another one. -/
def function : FunctionDecl :=
  .free "copy" [⟨"target", .plain pair.hash, .inOut⟩, ⟨"source", .plain pair.hash, .byValue⟩] .void

/-- The argument that is passed by reference. -/
def target : Symbol := .argument ⟨0⟩ 0 (.byRef pair.hash)

def source : Symbol := .argument ⟨0⟩ 1 (.plain pair.hash)

/-- A context whose user holds some symbols. -/
def holding (symbols : List Symbol) : Session :=
  { Session.start ⟨0⟩ registry function .default with symbols }

/-- A context whose user holds both arguments. -/
def session : Session := holding [source, target]

/-- The context after the first of two assignments. -/
def between : Session := session.after (.assign target source)

def last : Session := between.after (.assignStackMediated target source)

theorem steps_session : Session.Steps (fun _ => True)
    (Session.start ⟨0⟩ registry function .default) session := by
  have htgt : Session.Step (fun _ => True) (holding []) (holding [target]) :=
    step_make (f := .argument 0) (by simp [Factory.parts]) rfl
  have hsrc : Session.Step (fun _ => True) (holding [target]) session :=
    step_make (f := .argument 1) (by simp [Factory.parts]) rfl
  exact .tail (.tail .refl htgt) hsrc

theorem permits_assigning {s : Session} (hs : session.symbols ⊆ s.symbols) (force : Bool) :
    s.Permits (.assigning force target source) := by
  have hboth : target ∈ s.symbols ∧ source ∈ s.symbols :=
    ⟨hs (by simp [session, holding]), hs (by simp [session, holding])⟩
  cases force <;> exact ⟨by simp [hboth, Operation.assigning, Operation.symbols],
    by simp [Operation.assigning, Operation.labels],
    by simp [Operation.assigning, Operation.scopes]⟩

/-- Both assignments are in the method, one after the other. -/
theorem performs_both (hok : (session.perform (.assign target source)).1.toBool = true)
    (hok' : (between.perform (.assignStackMediated target source)).1.toBool = true)
    (hfin : last.context.finish.toBool = true) :
    session.Performs registry last.method (.assign target source) last ∧
      between.Performs registry last.method (.assignStackMediated target source) last := by
  have hfin := finish_method hfin
  have hpermit := permits_assigning (s := session) (List.Subset.refl _) false
  have hfirst : Session.Step (fun _ => True) session between := ⟨_, hpermit, trivial, rfl⟩
  have hpermit' := permits_assigning hfirst.symbols_subset true
  have hstart : Session.Steps (fun _ => True)
      (Session.start ⟨0⟩ registry last.method.function .default) session := by
    rw [function_method hfin, last, setting_after, between, setting_after]
    exact steps_session
  have hsecond : Session.Step (fun _ => True) between last := ⟨_, hpermit', trivial, rfl⟩
  exact ⟨⟨⟨_, _, hstart⟩, hpermit, exists_of_toBool hok, .single hsecond, hfin⟩,
    ⟨_, _, hstart.tail hfirst⟩, hpermit', exists_of_toBool hok', .refl, hfin⟩

/-- The pair is passed by reference as the address of a cell. -/
def frame : Frame where
  method := last.method
  args := #[.address (.ofRoot (.heap ⟨0⟩)), .aggregate [.int32 3, .int32 5]]
  locals := last.method.locals.map fun type => registry.defaultValue type.hash
  stack := []
  offset := 0
  resume := .host

def state : State where
  frames := [frame]
  heap := ⟨#[⟨pair.hash, .aggregate [.int32 0, .int32 0]⟩]⟩
  statics := ∅
  captured := ∅

theorem at_state : state.At last.method session.body.emitter.offset frame [] :=
  ⟨rfl, rfl, Array.size_map, rfl⟩

theorem closed_state (T : List UInt16) : state.Closed registry (Root.Outside 0 T) :=
  State.closed_of_values rfl rfl rfl (by simp [frame, Value.int32, Address.ofRoot])
    (by simp [frame, Registry.defaultValue]) (by simp [state, Value.int32])

theorem admits_pair (a b : Int) : registry.Admits pair.hash (.aggregate [.int32 a, .int32 b]) := by
  obtain ⟨-, -, -, hkind, -⟩ := Boxed.evaluation_registry
  have hkind : registry.kind? pair.hash = some (.value 8 4) := hkind
  rw [Registry.Admits, hkind]
  exact ⟨_, rfl⟩

theorem typed_target (hval : (target.value κ).result program state =
    .ok (.aggregate [.int32 0, .int32 0]))
    (hheld : (target.held κ).result program state = .ok (.address (.ofRoot (.heap ⟨0⟩)))) :
    target.Typed κ program state := by
  refine ⟨fun v s' hv => ?_, fun _ w s' hw items => ?_⟩
  · rw [Exec.result, hv] at hval
    cases hval
    exact admits_pair 0 0
  · rw [Exec.result, hw] at hheld
    cases hheld
    simp

theorem evaluation : (session.perform (.assign target source)).1.toBool = true ∧
    (between.perform (.assignStackMediated target source)).1.toBool = true ∧
    last.context.finish.toBool = true ∧
    last.setting.copyPath target source false = .direct ∧
    last.setting.copyPath target source true = .indirect ∧
    (target.place last.method.constants.kept).result program state = .ok (.ofRoot (.heap ⟨0⟩)) ∧
    (target.value last.method.constants.kept).result program state =
      .ok (.aggregate [.int32 0, .int32 0]) ∧
    (target.held last.method.constants.kept).result program state =
      .ok (.address (.ofRoot (.heap ⟨0⟩))) ∧
    (source.value last.method.constants.kept).result program state =
      .ok (.aggregate [.int32 3, .int32 5]) ∧
    (Exec.store (.ofRoot (.heap ⟨0⟩)) (.aggregate [.int32 3, .int32 5])).result program state =
      .ok () := by
  decide +kernel

end Copied

namespace Session

open Copied

/-- A pair is copied to a cell, as a block and through temporaries. -/
theorem copying_a_pair_agrees :
    last.setting.copyPath target source false = .direct ∧
      last.setting.copyPath target source true = .indirect ∧
      ∃ (stu st₁ st₂ : State) (L₁ L₂ : Array Value),
        (Exec.fetch (.ofRoot (.heap ⟨0⟩))).result Boxed.program stu =
          .ok (.aggregate [.int32 3, .int32 5]) ∧
        stu.Settles Boxed.registry st₁ ∧ st₁.Agrees st₂ ∧
        Exec.Reaches Boxed.program state (st₁.standing L₁ [] between.body.emitter.offset) ∧
        Exec.Reaches Boxed.program (state.standing frame.locals [] between.body.emitter.offset)
          (st₂.standing L₂ [] last.body.emitter.offset) := by
  obtain ⟨hdone, hdone', hfinish, hdirect, hindirect, hplace, hzero, hheld, hvalue, hstore⟩ :=
    evaluation
  obtain ⟨hassign, hmediated⟩ := performs_both hdone hdone' hfinish
  have hassigns : Symbol.Assigns last.method.constants.kept Boxed.program target source state _ :=
    ⟨_, _, hplace, hvalue, Prod.ext hstore rfl⟩
  obtain ⟨hok, -⟩ := copies_agree Boxed.registered_registry hassign hmediated trivial trivial rfl
    (p := Boxed.program) at_state
    (closed_state _) (typed_target hzero hheld)
    (Symbol.hasType_of_value hvalue (admits_pair 3 5) rfl)
  obtain ⟨st₁, st₂, L₁, L₂, hsettles, hagrees, -, -, hreaches, hreaches'⟩ := hok _ hassigns
  exact ⟨hdirect, hindirect, _, st₁, st₂, L₁, L₂, Exec.fetch_store
    (Prod.ext hstore rfl), hsettles, hagrees, hreaches, hreaches'⟩

end Session

/-! ### Indices that count -/

namespace Counted

/-- A value type with a field, and a static field to count in. -/
def pair : TypeDecl :=
  ((TypeDecl.named "Pair" (.value 4 4)).withField "x" (.plain .int32) false).withField "n"
    (.plain .int32) true

/-- A function that counts its calls. It returns how many there were before. -/
def next : FunctionDecl := .free "next" [] (.plain .int32)

/-- A function that copies an element of an array to another one. -/
def copy : FunctionDecl := .free "copy" [] (.plain .int32)

def registry : Registry :=
  Request.registry [.primitives, .type pair, .array pair.hash, .function next, .function copy]

def constant (n : Int) : Symbol := .literal ⟨0⟩ (.int32 n)

def counter : Symbol :=
  .staticField ⟨0⟩ ⟨"n", .ofField pair.hash "n", pair.hash, .plain .int32, true, 0⟩

def array : Symbol := .localSlot ⟨0⟩ 0 (.plain (.arrayOf pair.hash))

def elementAt (index : Symbol) : Symbol := .element ⟨0⟩ array index (.plain pair.hash)

def fieldAt (index : Symbol) : Symbol :=
  .field ⟨0⟩ (elementAt index) ⟨"x", .ofField pair.hash "x", pair.hash, .plain .int32, false, 0⟩

/-- The body of the function that counts. -/
def counting : List Operation :=
  [.assign counter (.binary ⟨0⟩ (.arith .add) counter (constant 1) (.plain .int32)),
    .returnValue (some (.binary ⟨0⟩ (.arith .sub) counter (constant 1) (.plain .int32)))]

/-- The array has 1 and 2. One element is copied to another, each at the next index, and the first
element is returned. -/
def copying (force : Bool) : List Operation :=
  [.declare (.plain (.arrayOf pair.hash)), .assign array (.newArray ⟨0⟩ pair.hash (constant 2)),
    .assign (fieldAt (constant 0)) (constant 1), .assign (fieldAt (constant 1)) (constant 2),
    .assigning force (elementAt (.call ⟨0⟩ next [])) (elementAt (.call ⟨0⟩ next [])),
    .returnValue (some (fieldAt (constant 0)))]

/-- The method of a function with a body. -/
def method (f : FunctionDecl) (ops : List Operation) : Except EmitError Method :=
  ((Session.start ⟨0⟩ registry f .default).performAll ops).context.finish

/-- What the copying function returns on a new machine. -/
def outcome (force : Bool) : Option Value := do
  let counting ← (method next counting).toOption
  let copying ← (method copy (copying force)).toOption
  let machine :=
    ((Machine.start registry Machine.defaultMaxDepth).loadMethod counting).loadMethod copying
  let (result, _) ← machine.invoke 100 copy.hash []
  result.toOption

end Counted

namespace Session

/-- A block is copied to the first index and from the second one; through the operand stack it is
the other way round. -/
theorem copies_with_calls_differ :
    Counted.outcome false = some (.int32 2) ∧ Counted.outcome true = some (.int32 1) := by
  decide +kernel

end Session

end StackCode
