import StackCode.Proofs.Actions
import StackCode.Proofs.Storage

/-!
# What holds when a computation ends

A step fails, ends a call, or performs an action. What holds then is put together from what holds
when the computations in it end.
-/

namespace StackCode

open Progress State

variable {args : List Value} {owner : TypeHash}

/-- Faults of a call that cannot begin. -/
def Fault.RefusesCall : Fault → Prop
  | .unknownFunction _ | .arityMismatch _ _ _ | .stackOverflow _ => True
  | _ => False

theorem Fault.RefusesCall.ordinary {e : Fault} (h : e.RefusesCall) : e.Ordinary := by
  cases e with
  | unknownFunction | arityMismatch | stackOverflow => trivial
  | _ => cases h

/-- The frame of a call that begins. -/
def Program.frame (p : Program) (m : Method) (args : List Value) (resume : Resume) : Frame where
  method := m
  args := args.toArray
  locals := m.locals.map p.registry.defaultSlot
  stack := []
  offset := 0
  resume := resume

/-- What the operand stack of a caller gets when a call returns a value. -/
def Resume.given (heap : Heap) (v : Value) : Resume → Except Fault (List Value)
  | .host => .ok []
  | .caller => .ok (if v.isVoid then [] else [v])
  | .built w => .ok [w]
  | .cell id => (heap.get id).map fun o => [o.value]

theorem Registry.defaultWithin_ne_ref (r : Registry) (depth : Nat) (h : TypeHash) (id : ObjectId) :
    r.defaultWithin depth h ≠ .ref id := by
  cases depth with
  | zero => simp [defaultWithin]
  | succ depth =>
    unfold defaultWithin
    cases r.type? h with
    | none => simp
    | some t =>
      dsimp only
      cases t.kind with
      | primitive p => cases p <;> simp [Value.zero]
      | value | reference | object | array => simp

namespace Exec

variable {α β : Type} {p : Program} {s t : State}

/-- A computation ends with an answer, or in a fault, and then something holds. -/
structure Yields (p : Program) (s : State) (x : Exec α) (Q : α → State → Prop)
    (E : Fault → State → Prop) : Prop where
  ok : ∀ a t, x.exec p s = (.ok a, t) → Q a t
  error : ∀ e t, x.exec p s = (.error e, t) → E e t

variable {Q : α → State → Prop} {R : β → State → Prop} {E : Fault → State → Prop}

theorem yields_of_ok {x : Exec α} {a : α} (h : x.exec p s = (.ok a, t)) (hQ : Q a t) :
    Yields p s x Q E := by
  refine ⟨fun b u hb => ?_, fun e u he => ?_⟩
  · cases h.symm.trans hb
    exact hQ
  · cases h.symm.trans he

theorem yields_of_error {x : Exec α} {e : Fault} (h : x.exec p s = (.error e, t)) (hE : E e t) :
    Yields p s x Q E := by
  refine ⟨fun b u hb => ?_, fun e u he => ?_⟩
  · cases h.symm.trans hb
  · cases h.symm.trans he
    exact hE

theorem yields_pure {a : α} (h : Q a s) : Yields p s (pure a) Q E := yields_of_ok rfl h

theorem yields_throw {e : Fault} (h : E e s) : Yields p s (throw e : Exec α) Q E :=
  yields_of_error rfl h

/-- A computation that agrees with another. After a fault only storage counts. -/
theorem Yields.of_agrees {x y : Exec α} (h : Agrees (x.exec p s) (y.exec p t))
    (hstorage : ∀ e u u', State.SameStorage u u' → E e u' → E e u) (hy : Yields p t y Q E) :
    Yields p s x Q E := by
  rcases hx : x.exec p s with ⟨e | a, u⟩ <;> rcases hy' : y.exec p t with ⟨e' | a', u'⟩ <;>
    rw [hx, hy'] at h
  · obtain ⟨rfl, hsame⟩ := h
    exact yields_of_error hx (hstorage _ _ _ hsame (hy.error _ _ hy'))
  · cases h
  · cases h
  · obtain ⟨rfl, rfl⟩ := h
    exact yields_of_ok hx (hy.ok _ _ hy')

/-- What is done afterwards keeps computations in agreement. -/
theorem Agrees.bind {x y : Exec α} (h : Agrees (x.exec p s) (y.exec p t)) (f : α → Exec β) :
    Agrees ((x >>= f).exec p s) ((y >>= f).exec p t) := by
  rw [exec_bind, exec_bind]
  rcases hx : x.exec p s with ⟨e | a, u⟩ <;> rcases hy : y.exec p t with ⟨e' | a', u'⟩ <;>
    rw [hx, hy] at h
  · exact h
  · cases h
  · cases h
  · obtain ⟨rfl, rfl⟩ := h
    exact .refl _

theorem Yields.of_eq {x y : Exec α} (h : x.exec p s = y.exec p t) (hy : Yields p t y Q E) :
    Yields p s x Q E :=
  ⟨fun a u ha => hy.ok a u (h ▸ ha), fun e u he => hy.error e u (h ▸ he)⟩

theorem yields_bind_of_ok {x : Exec α} {f : α → Exec β} {a : α} (hx : x.exec p s = (.ok a, t))
    (h : Yields p t (f a) R E) : Yields p s (x >>= f) R E :=
  .of_eq (by rw [exec_bind, hx]) h

theorem yields_bind_of_error {x : Exec α} {f : α → Exec β} {e : Fault}
    (hx : x.exec p s = (.error e, t)) (h : E e t) : Yields p s (x >>= f) R E :=
  yields_of_error (by rw [exec_bind, hx]) h

theorem Yields.bind {x : Exec α} {f : α → Exec β} (hx : Yields p s x Q E)
    (hf : ∀ a t, Q a t → Yields p t (f a) R E) : Yields p s (x >>= f) R E := by
  rcases hout : x.exec p s with ⟨e | a, t⟩
  · exact yields_bind_of_error hout (hx.error e t hout)
  · exact yields_bind_of_ok hout (hf a t (hx.ok a t hout))

theorem yields_ofExcept_bind {x : Except Fault α} {f : α → Exec β}
    (hok : ∀ a, x = .ok a → Yields p s (f a) R E) (herror : ∀ e, x = .error e → E e s) :
    Yields p s (MonadExcept.ofExcept x >>= f) R E := by
  cases x with
  | error e => exact yields_bind_of_error (exec_ofExcept _) (herror e rfl)
  | ok a => exact yields_bind_of_ok (exec_ofExcept _) (hok a rfl)

/-! ### Values at addresses -/

section Places

variable {a : Address} {v : Value}

theorem yields_fetch_bind {f : Value → Exec β}
    (hok : ∀ v w, (s.materialize p.registry a.root).root p.registry a.root = .ok v →
      v.follow a.path = .ok w → Yields p (s.materialize p.registry a.root) (f w) R E)
    (hroot : ∀ e, (s.materialize p.registry a.root).root p.registry a.root = .error e →
      E e (s.materialize p.registry a.root))
    (hpath : ∀ (v : Value) e, v.follow a.path = .error e → E e (s.materialize p.registry a.root)) :
    Yields p s (fetch a >>= f) R E := by
  have hexec := exec_fetch (p := p) a s
  rcases hv : (s.materialize p.registry a.root).root p.registry a.root with e | v <;>
    rw [hv] at hexec
  · exact yields_bind_of_error hexec (hroot e hv)
  · have hexec : (fetch a).exec p s = (v.follow a.path, s.materialize p.registry a.root) := hexec
    rcases hw : v.follow a.path with e | w <;> rw [hw] at hexec
    · exact yields_bind_of_error hexec (hpath v e hw)
    · exact yields_bind_of_ok hexec (hok v w hv hw)

theorem yields_store {Q : Unit → State → Prop}
    (hok : ∀ old new, (s.materialize p.registry a.root).root p.registry a.root = .ok old →
      Value.replace v old a.path = .ok new →
      Q () ((s.materialize p.registry a.root).setRoot new a.root))
    (hroot : ∀ e, (s.materialize p.registry a.root).root p.registry a.root = .error e →
      E e (s.materialize p.registry a.root))
    (hpath : ∀ old e, Value.replace v old a.path = .error e →
      E e (s.materialize p.registry a.root)) :
    Yields p s (store a v) Q E := by
  rcases hold : (s.materialize p.registry a.root).root p.registry a.root with e | old
  · exact yields_bind_of_error ((exec_readRoot _).trans (by rw [hold])) (hroot e hold)
  · refine yields_bind_of_ok ((exec_readRoot _).trans (by rw [hold])) ?_
    exact yields_ofExcept_bind (fun new hnew => yields_of_ok rfl (hok old new hold hnew))
      (hpath old)

theorem yields_checkWidth_bind {accepted : String × Bool} {f : Unit → Exec β}
    (hok : accepted.2 = true → Yields p s (f ()) R E) (herror : E (.mismatch accepted.1 v) s) :
    Yields p s (checkWidth accepted v >>= f) R E := by
  unfold checkWidth
  split
  · rename_i h
    exact hok h
  · exact yields_of_error rfl herror

end Places

theorem yields_push {Q : Unit → State → Prop} {v : Value} (h : Q () (s.pushed [v])) :
    Yields p s (push v) Q E :=
  yields_of_ok rfl h

theorem yields_pushResult {Q : Unit → State → Prop} {v : Value}
    (h : Q () (s.pushed (if v.isVoid then [] else [v]))) : Yields p s (pushResult v) Q E := by
  unfold pushResult
  cases hvoid : v.isVoid with
  | true =>
    rw [if_pos hvoid, s.pushed_nil] at h
    exact yields_of_ok rfl h
  | false =>
    rw [if_neg (by simp [hvoid])] at h
    exact yields_of_ok rfl h

theorem yields_alloc_bind (type : TypeHash) {v : Value} {f : ObjectId → Exec β}
    (h : Yields p { s with heap := (s.heap.alloc type v).2 } (f (s.heap.alloc type v).1) R E) :
    Yields p s (alloc type v >>= f) R E :=
  yields_bind_of_ok (exec_alloc type v) h

theorem yields_callNative_bind {native : Native} {f : Value → Exec β}
    (hok : ∀ v, (native s.heap args).1 = .ok v →
      Yields p { s with heap := (native s.heap args).2 } (f v) R E)
    (herror : ∀ e, (native s.heap args).1 = .error e →
      E e { s with heap := (native s.heap args).2 }) :
    Yields p s (callNative native args >>= f) R E := by
  have hexec := exec_callNative (p := p) native args s
  rcases hout : (native s.heap args).1 with e | v <;> rw [hout] at hexec
  · exact yields_bind_of_error hexec (herror e hout)
  · exact yields_bind_of_ok hexec (hok v hout)

/-! ### Calls -/

section Calls

variable {function : TypeHash} {resume : Resume} {Q : Unit → State → Prop}

theorem exec_enter_none (hm : p.methods[function]? = none) :
    (enter function args resume).exec p s = (.error (.unknownFunction function), s) := by
  unfold enter
  rw [exec_read_bind, hm]
  rfl

theorem exec_enter_some {m : Method} (hm : p.methods[function]? = some m) :
    (enter function args resume).exec p s = if args.length ≠ m.function.stackArity then
        (.error (.arityMismatch m.function.name m.function.stackArity args.length), s)
      else if p.maxDepth ≤ s.depth then (.error (.stackOverflow p.maxDepth), s)
      else (.ok (), { s with frames := p.frame m args resume :: s.frames }) := by
  unfold enter
  rw [exec_read_bind, hm]
  dsimp only
  by_cases harity : args.length = m.function.stackArity
  · rw [if_neg (by simp [harity]), if_neg (by simp [harity])]
    by_cases hdepth : p.maxDepth ≤ s.depth
    · rw [if_pos hdepth]
      show (if p.maxDepth ≤ s.depth then _ else _ : Exec Unit).exec p s = _
      rw [if_pos hdepth]
      rfl
    · rw [if_neg hdepth]
      show (if p.maxDepth ≤ s.depth then _ else _ : Exec Unit).exec p s = _
      rw [if_neg hdepth]
      rfl
  · rw [if_pos harity, if_pos harity]
    rfl

theorem yields_enter (hok : ∀ m, p.methods[function]? = some m →
    args.length = m.function.stackArity →
      s.depth < p.maxDepth → Q () { s with frames := p.frame m args resume :: s.frames })
    (herror : ∀ e, e.RefusesCall → E e s) : Yields p s (enter function args resume) Q E := by
  cases hm : p.methods[function]? with
  | none => exact yields_of_error (exec_enter_none hm) (herror _ trivial)
  | some m =>
    have hexec : (enter function args resume).exec p s = _ := exec_enter_some hm
    split at hexec
    · exact yields_of_error hexec (herror _ trivial)
    · split at hexec
      · exact yields_of_error hexec (herror _ trivial)
      · exact yields_of_ok hexec (hok m hm (not_not.mp ‹_›) (Nat.lt_of_not_le ‹_›))

theorem exec_constructOn_ref (hkind : p.registry.kind? owner = some .reference) :
    (constructOn owner function args).exec p s =
      (enter function (.ref (s.heap.alloc owner (objectLayout p.registry owner)).1 :: args)
        (.built (.ref (s.heap.alloc owner (objectLayout p.registry owner)).1))).exec p
          { s with heap := (s.heap.alloc owner (objectLayout p.registry owner)).2 } := by
  have hinst : (instantiate owner).exec p s =
    (.ok (.ref (s.heap.alloc owner (objectLayout p.registry owner)).1),
        { s with heap := (s.heap.alloc owner (objectLayout p.registry owner)).2 }) := by
    unfold instantiate
    rw [exec_read_bind]
    dsimp only
    rw [hkind]
    rfl
  unfold constructOn
  rw [exec_bind, hinst]

/-- A constructor is called on a cell with the default of its type. -/
theorem exec_constructOn_cell (hkind : p.registry.kind? owner ≠ some .reference) :
    (constructOn owner function args).exec p s = (enter function
        (.address (.ofRoot (.heap (s.heap.alloc owner (p.registry.defaultValue owner)).1)) :: args)
        (.cell (s.heap.alloc owner (p.registry.defaultValue owner)).1)).exec p
          { s with heap := (s.heap.alloc owner (p.registry.defaultValue owner)).2 } := by
  have hinst : (instantiate owner).exec p s = (.ok (p.registry.defaultValue owner), s) := by
    unfold instantiate
    rw [exec_read_bind]
    dsimp only
    split
    · rename_i h
      exact absurd h hkind
    · rfl
  unfold constructOn
  rw [exec_bind, hinst]
  dsimp only
  split
  · rename_i id hid
    exact absurd hid (p.registry.defaultWithin_ne_ref _ _ id)
  · rw [exec_bind, exec_alloc]

/-- A constructor is called on a fresh object, or on a cell with the default of its type. -/
theorem yields_constructOn (href : p.registry.kind? owner = some .reference → ∀ id v,
      s.heap.alloc owner (objectLayout p.registry owner) = (id, v) →
      Yields p { s with heap := v } (enter function (.ref id :: args) (.built (.ref id))) Q E)
    (hcell : p.registry.kind? owner ≠ some .reference → ∀ id v,
      s.heap.alloc owner (p.registry.defaultValue owner) = (id, v) →
      Yields p { s with heap := v }
        (enter function (.address (.ofRoot (.heap id)) :: args) (.cell id)) Q E) :
    Yields p s (constructOn owner function args) Q E := by
  by_cases hkind : p.registry.kind? owner = some .reference
  · exact .of_eq (exec_constructOn_ref hkind) (href hkind _ _ rfl)
  · exact .of_eq (exec_constructOn_cell hkind) (hcell hkind _ _ rfl)

end Calls

/-! ### A step -/

section Step

variable {f : Frame} {rest : List Frame} {i : Instr} {us vs : List Value} {v : Value}
  {Q : Progress → State → Prop}

section

variable (hs : s.frames = f :: rest)
include hs

theorem exec_leave_of_host (hresume : f.resume = .host) :
    (leave v).exec p s = (.ok (.done v), { s with frames := rest }) := by
  obtain ⟨frames, heap, statics, captured⟩ := s
  subst hs
  obtain ⟨method, args, locals, stack, offset, resume⟩ := f
  subst hresume
  rfl

theorem exec_leave (hresume : f.resume ≠ .host) (hvs : f.resume.given s.heap v = .ok vs) :
    (leave v).exec p s = (.ok .running, pushed { s with frames := rest } vs) := by
  obtain ⟨frames, heap, statics, captured⟩ := s
  subst hs
  obtain ⟨method, args, locals, stack, offset, resume⟩ := f
  cases resume with
  | host => exact absurd rfl hresume
  | caller =>
    cases hvs
    show (pushResult v >>= fun _ => pure running).exec p ⟨rest, heap, statics, captured⟩ = _
    unfold pushResult
    cases v.isVoid with
    | true =>
      rw [if_pos rfl, if_pos rfl, pushed_nil]
      rfl
    | false => rfl
  | built w =>
    cases hvs
    rfl
  | cell id =>
    unfold Resume.given at hvs
    dsimp only at hvs
    show (object id >>= fun o => push o.value >>= fun _ => pure running).exec p
      ⟨rest, heap, statics, captured⟩ = _
    rw [exec_bind, exec_object]
    dsimp only
    cases hget : heap.get id with rw [hget] at hvs
    | error e => cases hvs
    | ok o =>
      cases hvs
      rfl

theorem exec_leave_error {e : Fault} (he : f.resume.given s.heap v = .error e) :
    (leave v).exec p s = (.error e, { s with frames := rest }) := by
  obtain ⟨frames, heap, statics, captured⟩ := s
  subst hs
  obtain ⟨method, args, locals, stack, offset, resume⟩ := f
  cases resume with
  | host | caller | built => cases he
  | cell id =>
    unfold Resume.given at he
    dsimp only at he
    show (object id >>= fun o => push o.value >>= fun _ => pure running).exec p
      ⟨rest, heap, statics, captured⟩ = _
    rw [exec_bind, exec_object]
    dsimp only
    cases hget : heap.get id with rw [hget] at he
    | ok o => cases he
    | error e =>
      cases he
      rfl

theorem yields_leave_of_host (hresume : f.resume = .host)
    (h : Q (.done v) { s with frames := rest }) :
    Yields p s (leave v) Q E :=
  yields_of_ok (exec_leave_of_host hs hresume) h

theorem yields_leave (hresume : f.resume ≠ .host) (hok : ∀ vs, f.resume.given s.heap v = .ok vs →
      Q .running (pushed { s with frames := rest } vs))
    (herror : ∀ e, f.resume.given s.heap v = .error e → E e { s with frames := rest }) :
    Yields p s (leave v) Q E := by
  cases hgiven : f.resume.given s.heap v with
  | ok vs => exact yields_of_ok (exec_leave hs hresume hgiven) (hok vs hgiven)
  | error e => exact yields_of_error (exec_leave_error hs hgiven) (herror e hgiven)

theorem exec_step_of_fetch (hfetch : f.method.fetch? f.offset = some i) :
    step.exec p s = (execute f.method i).exec p s := by
  obtain ⟨frames, heap, statics, captured⟩ := s
  subst hs
  have htop : top.exec p ⟨f :: rest, heap, statics, captured⟩ = (.ok f, _) := rfl
  rw [step, exec_bind, htop]
  dsimp only
  rw [hfetch]

theorem yields_step_of_none (hfetch : f.method.fetch? f.offset = none)
    (h : E (.invalidBytecode f.offset) s) : Yields p s step Q E := by
  obtain ⟨frames, heap, statics, captured⟩ := s
  subst hs
  refine yields_bind_of_ok (a := f) rfl ?_
  rw [hfetch]
  exact yields_throw h

end

variable (hs : s.frames = f :: rest) (hfetch : f.method.fetch? f.offset = some i)
  (hstorage : ∀ e u u', State.SameStorage u u' → E e u' → E e u)
include hs hfetch

theorem exec_step_of_effect (hret : i.op ≠ .ret) (hvoid : i.op ≠ .retVoid) :
    step.exec p s = (effect f.method i >>= fun _ => pure running).exec p
      (s.moved f.stack i.next) := by
  rw [exec_step_of_fetch hs hfetch, s.moved_eq hs]
  obtain ⟨frames, heap, statics, captured⟩ := s
  subst hs
  unfold execute
  split
  · rename_i hop
    exact absurd hop hret
  · rename_i hop
    exact absurd hop hvoid
  · rfl

/-- A step that is no return pops operands and performs an action. -/
theorem agrees_step (hret : i.op ≠ .ret) (hvoid : i.op ≠ .retVoid) (hstack : f.stack = us ++ vs)
    (hus : us.length = i.pops) :
    Agrees (step.exec p s) ((act (i.action p f.method s.heap rest.length us) >>= fun _ =>
      pure running).exec p (s.moved vs i.next)) := by
  rw [exec_step_of_effect hs hfetch hret hvoid]
  refine Agrees.bind ?_ _
  rw [s.moved_eq hs, s.moved_eq hs, hstack]
  have heff := agrees_effect (p := p) (m := f.method)
    (s := { s with frames := { f with offset := i.next } :: rest }) rfl vs hus
  rwa [withStack_eq rfl, withStack_eq rfl] at heff

include hstorage

/-- What holds after a step that is no return. -/
theorem yields_step (hret : i.op ≠ .ret) (hvoid : i.op ≠ .retVoid) (hstack : f.stack = us ++ vs)
    (hus : us.length = i.pops)
    (hok : ∀ a, i.action p f.method s.heap rest.length us = .ok a →
      Yields p (s.moved vs i.next) a.perform (fun _ t => Q .running t) E)
    (herror : ∀ e, i.action p f.method s.heap rest.length us = .error e → E e s) :
    Yields p s step Q E := by
  have hact : Yields p (s.moved vs i.next) (act (i.action p f.method s.heap rest.length us))
      (fun _ t => Q .running t) E := by
    refine yields_ofExcept_bind (fun a ha => hok a ha) fun e he => ?_
    exact hstorage e _ s (s.sameStorage_moved vs i.next) (herror e he)
  exact .of_agrees (agrees_step hs hfetch hret hvoid hstack hus) hstorage
    (hact.bind fun _ t (ht : Q .running t) => yields_pure (p := p) (E := E) ht)

/-- A step that does not find its operands changes no storage. -/
theorem yields_step_of_few (hret : i.op ≠ .ret) (hvoid : i.op ≠ .retVoid)
    (hfew : f.stack.length < i.pops) (h : ∀ e, E e s) : Yields p s step Q E := by
  obtain ⟨e, t, heff, hsame⟩ := fails_effect (p := p) (m := f.method) (i := i)
    (s := { s with frames := { f with offset := i.next } :: rest }) rfl hfew
  rw [withStack_eq rfl] at heff hsame
  refine .of_eq (exec_step_of_effect hs hfetch hret hvoid) ?_
  rw [← s.moved_eq hs] at heff hsame
  exact yields_bind_of_error heff (hstorage e t s (hsame.trans (s.sameStorage_moved ..)) (h e))

omit hstorage

theorem exec_step_of_ret (hop : i.op = .ret) (hstack : f.stack = v :: vs) :
    step.exec p s = (leave v).exec p (s.moved vs i.next) := by
  rw [exec_step_of_fetch hs hfetch, s.moved_eq hs]
  obtain ⟨frames, heap, statics, captured⟩ := s
  obtain ⟨method, args, locals, stack, offset, resume⟩ := f
  subst hs hstack
  unfold execute
  rw [hop]
  rfl

theorem yields_step_of_ret (hop : i.op = .ret) (hstack : f.stack = v :: vs)
    (h : Yields p (s.moved vs i.next) (leave v) Q E) : Yields p s step Q E :=
  .of_eq (exec_step_of_ret hs hfetch hop hstack) h

theorem yields_step_of_ret_nil (hop : i.op = .ret) (hstack : f.stack = [])
    (h : E (.stackUnderflow i.offset) (s.moved [] i.next)) : Yields p s step Q E := by
  refine yields_of_error ?_ h
  rw [exec_step_of_fetch hs hfetch, s.moved_eq hs]
  obtain ⟨frames, heap, statics, captured⟩ := s
  obtain ⟨method, args, locals, stack, offset, resume⟩ := f
  subst hs hstack
  unfold execute
  rw [hop]
  rfl

theorem exec_step_of_retVoid (hop : i.op = .retVoid) :
    step.exec p s = (leave .void).exec p (s.moved f.stack i.next) := by
  rw [exec_step_of_fetch hs hfetch, s.moved_eq hs]
  obtain ⟨frames, heap, statics, captured⟩ := s
  subst hs
  unfold execute
  rw [hop]
  rfl

theorem yields_step_of_retVoid (hop : i.op = .retVoid)
    (h : Yields p (s.moved f.stack i.next) (leave .void) Q E) : Yields p s step Q E :=
  .of_eq (exec_step_of_retVoid hs hfetch hop) h

omit hs hfetch

/-- What holds after a step, if nothing depends on the fault that it may end in. -/
theorem yields_step_of_parts (hstorage : ∀ e u u', State.SameStorage u u' → E e u' → E e u)
    (herror : ∀ e, E e s)
    (hleave : ∀ f rest v vs n, s.frames = f :: rest → v = .void ∨ v ∈ f.stack →
      Yields p (s.moved vs n) (leave v) Q E)
    (hact : ∀ f rest i us vs a, s.frames = f :: rest → f.method.fetch? f.offset = some i →
      f.stack = us ++ vs → i.op ≠ .ret → i.op ≠ .retVoid →
      i.action p f.method s.heap rest.length us = .ok a →
      Yields p (s.moved vs i.next) a.perform (fun _ t => Q .running t) E) :
    Yields p s step Q E := by
  cases hf : s.frames with
  | nil =>
    refine yields_bind_of_error (x := top) (e := .invalidBytecode 0) (t := s) ?_ (herror _)
    obtain ⟨frames, heap, statics, captured⟩ := s
    subst hf
    rfl
  | cons f rest =>
    cases hfetch : f.method.fetch? f.offset with
    | none => exact yields_step_of_none hf hfetch (herror _)
    | some i =>
      by_cases hret : i.op = .ret
      · cases hstack : f.stack with
        | nil =>
          refine yields_step_of_ret_nil hf hfetch hret hstack ?_
          exact hstorage _ _ s (s.sameStorage_moved ..) (herror _)
        | cons v vs =>
          exact yields_step_of_ret hf hfetch hret hstack
            (hleave f rest v vs _ hf (.inr (by simp [hstack])))
      by_cases hvoid : i.op = .retVoid
      · exact yields_step_of_retVoid hf hfetch hvoid (hleave f rest _ _ _ hf (.inl rfl))
      rcases Nat.lt_or_ge f.stack.length i.pops with hfew | henough
      · exact yields_step_of_few hf hfetch hstorage hret hvoid hfew herror
      · have hsplit := (List.take_append_drop i.pops f.stack).symm
        exact yields_step hf hfetch hstorage hret hvoid hsplit (List.length_take_of_le henough)
          (fun a ha => hact f rest i _ _ a hf hfetch hsplit hret hvoid ha) fun e _ => herror e

end Step

end Exec

end StackCode
