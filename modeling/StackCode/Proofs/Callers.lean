import StackCode.Proofs.Yields

/-!
# Callers

A call from the host runs above the frames of its callers. It may write to their slots through
addresses, but it neither adds nor removes a frame below its own, nor does it touch their operand
stacks. This holds for code of any form, whether the call returns or fails: an instruction reaches a
frame below the innermost one through an address only.
-/

namespace StackCode

/-- A frame without the contents of its slots, but with their numbers. -/
structure Frame.Form where
  outline : Outline
  args : Nat
  locals : Nat

/-- What a frame is apart from the values in its slots. -/
def Frame.form (f : Frame) : Frame.Form := ⟨f.outline, f.args.size, f.locals.size⟩

namespace State

/-- The forms of the frames, the innermost first. -/
def forms (s : State) : List Frame.Form := s.frames.map Frame.form

variable {callers : List Frame.Form} {limit : Nat} {s t : State}

theorem length_forms (s : State) : s.forms.length = s.depth := List.length_map ..

theorem forms_materialize (r : Registry) (s : State) (root : Root) :
    (s.materialize r root).forms = s.forms := by
  rw [forms, materialize_frames, forms]

theorem forms_setRoot (s : State) (v : Value) (root : Root) :
    (s.setRoot v root).forms = s.forms := by
  cases root with
  | localSlot frame slot | argument frame slot =>
    exact s.map_frames_modifyFrame frame fun f => by simp [Frame.form, Frame.outline]
  | static | heap | captured => rfl

/-! ### A call in progress -/

/-- A call of the host is in progress above its callers, in a limited number of frames. -/
structure Calls (callers : List Frame.Form) (limit : Nat) (s : State) : Prop where
  above : ∃ inner host, s.forms = inner ++ host :: callers ∧ host.outline.resume = .host
  few : s.depth ≤ limit

/-- The callers are below the innermost frame, whose call has come to a fault. -/
structure Spares (callers : List Frame.Form) (limit : Nat) (s : State) : Prop where
  below : callers <:+ s.forms.tail
  few : s.depth ≤ limit

theorem Spares.of_sameStorage (h : s.SameStorage t) (ht : t.Spares callers limit) :
    s.Spares callers limit := by
  refine ⟨?_, h.depth ▸ ht.few⟩
  have hbelow := ht.below
  rwa [forms, ← List.map_tail, ← h.callers, List.map_tail] at hbelow

namespace Calls

section

variable (h : s.Calls callers limit)
include h

theorem spares : s.Spares callers limit := by
  obtain ⟨⟨inner, host, hforms, -⟩, hfew⟩ := h
  refine ⟨?_, hfew⟩
  cases inner with
  | nil => exact ⟨[], by rw [hforms]; rfl⟩
  | cons top inner => exact ⟨inner ++ [host], by simp [hforms]⟩

theorem congr (hforms : t.forms = s.forms) : t.Calls callers limit :=
  ⟨hforms ▸ h.above, by rw [← length_forms, hforms, length_forms]; exact h.few⟩

theorem materialize (r : Registry) (root : Root) : (s.materialize r root).Calls callers limit :=
  h.congr (s.forms_materialize r root)

theorem modifyTop {g : Frame → Frame} (hresume : ∀ f, (g f).resume = f.resume) :
    (s.modifyTop g).Calls callers limit := by
  obtain ⟨⟨inner, host, hforms, hhost⟩, hfew⟩ := h
  obtain ⟨frames, heap, statics, captured⟩ := s
  cases frames with
  | nil => simp [forms] at hforms
  | cons f rest =>
    refine ⟨?_, hfew⟩
    cases inner with
    | nil =>
      obtain ⟨rfl, hrest⟩ := List.cons.inj hforms
      exact ⟨[], (g f).form, congrArg (_ :: ·) hrest, (hresume f).trans hhost⟩
    | cons top inner =>
      obtain ⟨-, hrest⟩ := List.cons.inj hforms
      exact ⟨(g f).form :: inner, host, congrArg (_ :: ·) hrest, hhost⟩

theorem cons (hdepth : s.depth < limit) (f : Frame) :
    ({ s with frames := f :: s.frames } : State).Calls callers limit := by
  obtain ⟨inner, host, hforms, hhost⟩ := h.above
  exact ⟨⟨f.form :: inner, host, congrArg (_ :: ·) hforms, hhost⟩, hdepth⟩

theorem tail {f : Frame} {rest : List Frame} (hs : s.frames = f :: rest) (hf : f.resume ≠ .host) :
    ({ s with frames := rest } : State).Calls callers limit := by
  obtain ⟨⟨inner, host, hforms, hhost⟩, hfew⟩ := h
  obtain ⟨frames, heap, statics, captured⟩ := s
  subst hs
  cases inner with
  | nil =>
    obtain ⟨rfl, -⟩ := List.cons.inj hforms
    exact absurd hhost hf
  | cons top inner =>
    obtain ⟨-, hrest⟩ := List.cons.inj hforms
    exact ⟨⟨inner, host, hrest, hhost⟩, Nat.le_of_succ_le hfew⟩

end

end Calls

end State

/-! ### A step of a call -/

namespace Exec

variable {p : Program} {callers : List Frame.Form} {limit : Nat} {s : State}

/-- Whatever an action does, the call goes on above its callers. -/
theorem yields_perform_calls (hlimit : p.maxDepth ≤ limit) (hs : s.Calls callers limit)
    (a : Action) :
    Yields p s a.perform (fun _ t => t.Calls callers limit) fun _ t => t.Calls callers limit := by
  have henter : ∀ {function args resume} {t : State}, t.Calls callers limit →
      Yields p t (enter function args resume) (fun _ t => t.Calls callers limit)
        fun _ t => t.Calls callers limit := by
    intro function args resume t ht
    refine yields_enter (fun m _ _ hdepth => ?_) fun _ _ => ht
    exact ht.cons (Nat.lt_of_lt_of_le hdepth hlimit) _
  have hpushed : ∀ {t : State} vs, t.Calls callers limit → (t.pushed vs).Calls callers limit :=
    fun vs ht => ht.modifyTop fun _ => rfl
  have hstore : ∀ {t : State} place v, t.Calls callers limit →
      Yields p t (store place v) (fun _ t => t.Calls callers limit) fun _ t =>
        t.Calls callers limit := by
    intro t place v ht
    have hm := ht.materialize p.registry place.root
    exact yields_store (fun old new _ _ => hm.congr (State.forms_setRoot ..))
      (fun _ _ => hm) fun _ _ _ => hm
  have hm := hs.materialize p.registry
  cases a with
  | push vs => exact yields_of_ok rfl (hpushed vs hs)
  | get root =>
    exact yields_fetch_bind (fun v w _ _ => yields_push (hpushed [w] (hm _)))
      (fun _ _ => hm _) fun _ _ _ => hm _
  | set root v => exact hstore _ v hs
  | load place accepts =>
    refine yields_fetch_bind (fun v w _ _ => ?_) (fun _ _ => hm _) fun _ _ _ => hm _
    exact yields_checkWidth_bind (fun _ => yields_push (hpushed [w] (hm _))) (hm _)
  | store place v => exact hstore place v hs
  | copy source target =>
    refine yields_fetch_bind (fun v w _ _ => ?_) (fun _ _ => hm _) fun _ _ _ => hm _
    exact yields_checkWidth_bind (fun _ => hstore target w (hm _)) (hm _)
  | alloc type v => exact yields_alloc_bind type (yields_push (hpushed _ (hs.congr rfl)))
  | native native args constructs =>
    refine yields_callNative_bind (fun v _ => ?_) fun _ _ => hs.congr rfl
    cases constructs with
    | true => exact yields_push (hpushed [v] (hs.congr rfl))
    | false => exact yields_pushResult (hpushed _ (hs.congr rfl))
  | enter function args => exact henter hs
  | construct owner function args =>
    exact yields_constructOn (fun _ _ _ _ => henter (hs.congr rfl)) fun _ _ _ _ =>
      henter (hs.congr rfl)
  | goto n => exact yields_of_ok rfl (hs.modifyTop fun _ => rfl)

/-- What is left of a call after a step: it goes on, or only its callers are there. -/
def CallsOn (callers : List Frame.Form) (limit : Nat) : Progress → State → Prop
  | .running, t => t.Calls callers limit
  | .done _, t => callers <:+ t.forms ∧ t.depth ≤ limit

/-- The end of a call keeps the frames below. -/
theorem yields_leave_calls (hs : s.Calls callers limit) (v : Value) :
    Yields p s (leave v) (CallsOn callers limit) fun _ t => t.Spares callers limit := by
  obtain ⟨inner, host, hforms, -⟩ := hs.above
  cases hf : s.frames with
  | nil => simp [State.forms, hf] at hforms
  | cons f rest =>
    by_cases hhost : f.resume = .host
    · have hbelow := hs.spares.below
      have hfew := hs.few
      rw [State.forms, hf] at hbelow
      rw [State.depth, hf] at hfew
      exact yields_leave_of_host hf hhost ⟨hbelow, Nat.le_of_succ_le hfew⟩
    · have htail := hs.tail hf hhost
      exact yields_leave hf hhost (fun vs _ => htail.modifyTop fun _ => rfl) fun _ _ => htail.spares

/-- A step keeps a call above its callers or ends it. -/
theorem yields_step_calls (hlimit : p.maxDepth ≤ limit) (hs : s.Calls callers limit) :
    Yields p s step (CallsOn callers limit) fun _ t => t.Spares callers limit := by
  have hstor : ∀ (e : Fault) u u', State.SameStorage u u' → u'.Spares callers limit →
      u.Spares callers limit := fun _ _ _ => .of_sameStorage
  have hmoved : ∀ vs n, (s.moved vs n).Calls callers limit := fun vs n => hs.modifyTop fun _ => rfl
  refine yields_step_of_parts hstor (fun _ => hs.spares)
    (fun f rest v vs n _ _ => yields_leave_calls (hmoved vs n) v)
      fun f rest i us vs a _ _ _ _ _ _ => ?_
  have hperf := yields_perform_calls hlimit (hmoved vs i.next) a
  exact ⟨hperf.ok, fun e t he => (hperf.error e t he).spares⟩

end Exec

/-! ### A whole call -/

namespace Exec

variable {p : Program} {callers : List Frame.Form} {limit : Nat} {s t : State}

section

variable (hlimit : p.maxDepth ≤ limit)
include hlimit

theorem Reaches.calls (hs : s.Calls callers limit) (h : Reaches p s t) : t.Calls callers limit := by
  induction h with
  | refl => exact hs
  | tail _ hstep ih => exact (yields_step_calls hlimit ih).ok _ _ hstep

theorem depth_step_le (hs : s.Calls callers limit) : (step.exec p s).2.depth ≤ limit := by
  have hstep := yields_step_calls hlimit hs
  rcases hout : step.exec p s with ⟨e | _ | v, t⟩
  · exact (hstep.error e t hout).few
  · exact (hstep.ok .running t hout).few
  · exact (hstep.ok (.done v) t hout).2

theorem callers_of_run (hs : s.Calls callers limit) {fuel : Nat} {result : Except Fault Value}
    (h : run p fuel s = some (result, t)) : callers <:+ t.forms := by
  induction fuel generalizing s with
  | zero => cases h
  | succ fuel ih =>
    have hstep := yields_step_calls hlimit hs
    unfold run at h
    rcases hout : step.exec p s with ⟨e | _ | v, u⟩ <;> rw [hout] at h
    · cases h
      exact (hstep.error e t hout).below.trans (List.tail_suffix _)
    · exact ih (hstep.ok .running u hout) h
    · cases h
      exact (hstep.ok (.done v) t hout).1

end

theorem calls_of_enter {function : TypeHash} {args : List Value}
    (h : (enter function args .host).exec p s = (.ok (), t)) :
    t.Calls s.forms (max s.depth p.maxDepth) := by
  refine (yields_enter (Q := fun _ t => t.Calls s.forms (max s.depth p.maxDepth))
    (E := fun _ _ => True) (fun m _ _ hdepth => ?_) fun _ _ => trivial).ok () t h
  exact ⟨⟨[], _, rfl, rfl⟩, Nat.le_trans hdepth (Nat.le_max_right ..)⟩

end Exec

namespace Machine

theorem forms_unwind {s t : State} (h : s.forms <:+ t.forms) :
    (unwind s.depth t).forms = s.forms := by
  have hdrop := List.suffix_iff_eq_drop.mp h
  rw [State.length_forms, State.length_forms] at hdrop
  rw [hdrop, State.forms, State.forms, unwind, List.map_drop]
  rfl

/-- Whatever a call from the host runs and however it ends, the frames that were there are there
again, and only their slots may hold something else. Meanwhile there are never more frames than the
limit on the depth allows, or than there were. -/
theorem calls_preserve_callers (m : Machine) (function : TypeHash) (args : List Value) :
    (∀ fuel result m', m.invoke fuel function args = some (result, m') →
      m'.state.depth = m.state.depth ∧ m'.state.forms = m.state.forms) ∧
    ∀ s t, (Exec.enter function args .host).exec m.program m.state = (.ok (), s) →
      Exec.Reaches m.program s t →
        t.depth ≤ max m.state.depth m.program.maxDepth ∧
          (Exec.step.exec m.program t).2.depth ≤ max m.state.depth m.program.maxDepth := by
  have hlimit := Nat.le_max_right m.state.depth m.program.maxDepth
  refine ⟨fun fuel result m' hinvoke => ?_, fun s t henter hreaches => ?_⟩
  · suffices hforms : m'.state.forms = m.state.forms by
      exact ⟨by rw [← State.length_forms, hforms, State.length_forms], hforms⟩
    cases hnative : m.program.natives[function]? with
    | some native =>
      rw [invoke_of_native hnative] at hinvoke
      cases hinvoke
      rfl
    | none =>
      rcases invoke_of_none hnative hinvoke with ⟨rfl, -⟩ | ⟨s, t, henter, hrun, rfl⟩
      · rfl
      · exact forms_unwind (Exec.callers_of_run hlimit (Exec.calls_of_enter henter) hrun)
  · have hcalls := hreaches.calls hlimit (Exec.calls_of_enter henter)
    exact ⟨hcalls.few, Exec.depth_step_le hlimit hcalls⟩

end Machine

namespace Descent

/-- A function that clears what its argument points to and calls itself. -/
def function : FunctionDecl :=
  .free "clear" [⟨"place", (DataType.plain .object).makeByRef, .input⟩] .void

def method : Method where
  function := function
  chunk := ⟨#[(Opcode.argument .get).byte, 0, 0, Opcode.pushNull.byte,
    (Opcode.storeIndirect .reference).byte, (Opcode.argument .get).byte, 0, 0, Opcode.call.byte, 0,
      0, 1],
    #[]⟩
  constants := ⟨#[.hash function.hash], ∅⟩
  locals := #[]

/-- A call is in progress whose only slot holds a number. -/
def machine : Machine := ⟨⟨default, .ofList [(function.hash, method)], ∅, 3⟩,
    ⟨[⟨method, #[], #[.int32 7], [.bool true], 5, .host⟩], .empty, ∅, ∅⟩⟩

def place : Value := .address (.ofRoot (.localSlot 0 0))

theorem evaluation : (machine.invoke 20 function.hash [place]).map
    (fun o => (o.1, o.2.state.frames.map Frame.locals)) =
      some (.error (.stackOverflow 3), [#[.null]]) := by
  decide +kernel

end Descent

namespace Machine

open Descent

/-- The call fails when there are three frames, and has cleared the slot of its caller. -/
theorem descent_preserves_caller : ∃ m', machine.invoke 20 function.hash [place] =
      some (.error (.stackOverflow 3), m') ∧ m'.state.frames.map Frame.locals = [#[.null]] ∧
    m'.state.depth = 1 ∧ m'.state.forms = machine.state.forms := by
  obtain ⟨⟨result, m'⟩, hinvoke, heq⟩ := Option.map_eq_some_iff.mp evaluation
  obtain ⟨rfl, hlocals⟩ := Prod.mk.inj heq
  obtain ⟨hdepth, hforms⟩ :=
    (calls_preserve_callers machine function.hash [place]).1 20 _ m' hinvoke
  exact ⟨m', hinvoke, hlocals, hdepth, hforms⟩

end Machine

end StackCode
