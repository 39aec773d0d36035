import Mathlib.Logic.Relation
import StackCode.Proofs.Cells
import StackCode.Proofs.Shape

/-!
# Computations of the machine
-/

namespace StackCode

open Exec

variable {e : Fault} {a b v : Value} {function : TypeHash} {args : List Value} {s : State}
  {op : ArithOp}
  {path : List UInt16}

/-- The environment of the code of a method. -/
def Method.env (m : Method) (r : Registry) : Env := ⟨r, m.function, m.locals⟩

/-- A frame without the contents of its slots. -/
structure Outline where
  method : Method
  stack : List Value
  offset : Nat
  resume : Resume

/-- A frame without its slots. -/
def Frame.outline (f : Frame) : Outline := ⟨f.method, f.stack, f.offset, f.resume⟩

/-- The outlines of the frames, the innermost first. -/
def State.outlines (s : State) : List Outline := s.frames.map Frame.outline

namespace Exec

variable {α β : Type} {p : Program}

theorem exec_bind (x : Exec α) (f : α → Exec β) (s : State) :
    (x >>= f).exec p s = match x.exec p s with
      | (.ok a, s') => (f a).exec p s'
      | (.error e, s') => (.error e, s') := by
  rw [exec, ReaderT.run_bind, ExceptT.run_bind, StateT.run_bind]
  unfold exec
  generalize (ReaderT.run x p).run.run s = o
  obtain ⟨_ | _, _⟩ := o <;> rfl

theorem exec_callNative (native : Native) (args : List Value) (s : State) :
    (callNative native args).exec p s =
      ((native s.heap args).1, { s with heap := (native s.heap args).2 }) := by
  show (MonadExcept.ofExcept (native s.heap args).1 : Exec Value).exec p
    { s with heap := (native s.heap args).2 } = _
  cases (native s.heap args).1 <;> rfl

theorem hashOperand_bind {m : Method} {i : Instr} {h : TypeHash}
    (hh : m.constants.typeHash? i.operand = some h) (f : TypeHash → Exec Unit) :
    (hashOperand m i >>= f) = f h := by
  unfold hashOperand
  rw [hh]
  rfl

theorem exec_enter_error {resume : Resume} {s' : State}
    (h : (enter function args resume).exec p s = (.error e, s')) : s' = s := by
  unfold enter at h
  rw [exec_bind] at h
  have hread : (read : Exec Program).exec p s = (.ok p, s) := rfl
  rw [hread] at h
  dsimp only at h
  split at h
  · cases h
    rfl
  · split at h
    · cases h
      rfl
    · rw [exec_bind] at h
      have hget : (get : Exec State).exec p s = (.ok s, s) := rfl
      rw [hget] at h
      dsimp only at h
      split at h <;> cases h
      rfl

end Exec

namespace Machine

variable {m m' : Machine} {fuel : Nat} {result : Except Fault Value}

theorem invoke_of_native {native : Native} (hnative : m.program.natives[function]? = some native) :
    m.invoke fuel function args = some ((native m.state.heap args).1,
      { m with state := { m.state with heap := (native m.state.heap args).2 } }) := by
  unfold invoke
  rw [hnative]
  dsimp only
  rw [exec, exec_callNative]

/-- A call of a method cannot begin, or there is a run. -/
theorem invoke_of_none (hnative : m.program.natives[function]? = none)
    (h : m.invoke fuel function args = some (result, m')) :
    (m' = m ∧ ∃ e, result = .error e ∧ (enter function args .host).exec m.program m.state =
      (.error e, m.state)) ∨
    ∃ s t, (enter function args .host).exec m.program m.state = (.ok (), s) ∧
      run m.program fuel s = some (result, t) ∧
      m' = { m with state := unwind m.state.depth t } := by
  unfold invoke at h
  rw [hnative] at h
  rcases henter : (enter function args .host).exec m.program m.state with ⟨e | ⟨⟩, s⟩ <;>
    rw [henter] at h
  · cases h
    cases exec_enter_error henter
    exact .inl ⟨rfl, e, rfl, rfl⟩
  · obtain ⟨⟨r, t⟩, hrun, heq⟩ := Option.map_eq_some_iff.mp h
    cases heq
    exact .inr ⟨s, t, rfl, hrun, rfl⟩

end Machine

/-- The state without its frames. -/
def State.idle (s : State) : State := { s with frames := [] }

theorem Machine.unwind_eq_idle (hs : s.frames = []) (t : State) : unwind s.depth t = t.idle := by
  simp [unwind, State.idle, State.depth, hs]

namespace Exec

/-- States that a run passes through. -/
abbrev Reaches (p : Program) : State → State → Prop :=
  Relation.ReflTransGen fun s s' => step.exec p s = (.ok .running, s')

/-! ### Faults -/

theorem ordinary_of_get {h : Heap} {id : ObjectId} (he : h.get id = .error e) : e.Ordinary := by
  unfold Heap.get at he
  split at he <;> cases he
  trivial

end Exec

namespace State

variable {r : Registry}

theorem materialize_frames (root : Root) : (s.materialize r root).frames = s.frames := by
  cases root with
  | static field =>
    unfold State.materialize
    dsimp only
    split <;> rfl
  | _ => rfl

theorem heap_materialize (r : Registry) (s : State) (root : Root) :
    (s.materialize r root).heap = s.heap := by
  unfold materialize
  split
  · split <;> rfl
  · rfl

theorem benign_of_root {root : Root} (h : s.root r root = .error e) : e.Benign := by
  rw [root_eq] at h
  unfold Root.read at h
  split at h
  · split at h <;> cases h
    trivial
  · cases h
  · cases h
    trivial
  · cases h
    trivial

/-- A change of one frame, as seen by a view that it leaves alone. -/
theorem map_frames_modifyFrame {β : Type} {view : Frame → β} (s : State) (n : Nat)
    {g : Frame → Frame}
    (hview : ∀ f, view (g f) = view f) :
    (s.modifyFrame n g).frames.map view = s.frames.map view := by
  unfold State.modifyFrame
  split
  · refine List.ext_getElem? fun k => ?_
    simp only [List.getElem?_map, List.getElem?_modify]
    cases s.frames[k]? with
    | none => rfl
    | some f =>
      simp only [Option.map_some]
      split
      · exact congrArg some (hview f)
      · rfl
  · rfl

theorem outlines_setRoot (s : State) (v : Value) (root : Root) :
    (s.setRoot v root).outlines = s.outlines := by
  cases root with
  | localSlot frame slot | argument frame slot => exact s.map_frames_modifyFrame frame fun _ => rfl
  | static | heap | captured => rfl

end State

theorem IntKind.ordinary_of_apply {k : IntKind} {a b : BitVec k.width}
    (h : k.apply op a b = .error e) :
    e.Ordinary := by
  cases op with
  | div | rem =>
    unfold IntKind.apply at h
    dsimp only at h
    split at h <;> cases h
    trivial
  | _ => cases h

namespace Value

theorem ordinary_of_member {index : UInt16} (h : v.member index = .error e) : e.Ordinary := by
  unfold member at h
  split at h
  · split at h <;> cases h
    trivial
  · cases h
    trivial
  · cases h
    trivial

theorem ordinary_of_follow (h : v.follow path = .error e) : e.Ordinary := by
  induction path generalizing v with
  | nil => cases h
  | cons index path ih =>
    unfold follow at h
    cases hitem : v.member index with
    | error e' =>
      rw [hitem] at h
      cases h
      exact ordinary_of_member hitem
    | ok item =>
      rw [hitem] at h
      exact ih h

theorem ordinary_of_replace {new : Value} (h : replace new v path = .error e) : e.Ordinary := by
  induction path generalizing v with
  | nil => cases h
  | cons index path ih =>
    unfold replace at h
    cases hitem : v.member index with
    | error e' =>
      rw [hitem] at h
      cases h
      exact ordinary_of_member hitem
    | ok item =>
      rw [hitem] at h
      dsimp only at h
      cases hrepl : replace new item path with
      | error e' =>
        rw [hrepl] at h
        cases h
        exact ih hrepl
      | ok item' =>
        rw [hrepl] at h
        cases h

theorem ordinary_of_arith (h : arith op a b = .error e) : e.Ordinary := by
  unfold arith at h
  split at h
  · split at h
    · rename_i k a k' b heq
      cases hval : k.apply op a (heq ▸ b) with
      | error e' =>
        rw [hval] at h
        cases h
        exact IntKind.ordinary_of_apply hval
      | ok w =>
        rw [hval] at h
        cases h
    · cases h
      trivial
  · split at h
    · split at h <;> cases h
      trivial
    · cases h
      trivial
  · split at h <;> cases h
    trivial
  · split at h <;> cases h
    trivial
  · cases h
    trivial

theorem ordinary_of_negate (h : a.negate = .error e) : e.Ordinary := by
  unfold negate at h
  split at h
  · split at h <;> cases h
    trivial
  · cases h
  · cases h
    trivial

theorem ordinary_of_complement (h : a.complement = .error e) : e.Ordinary := by
  unfold complement at h
  split at h <;> cases h
  trivial

theorem ordinary_of_order (h : a.order b = .error e) : e.Ordinary := by
  unfold order at h
  split at h
  · split at h <;> cases h
    trivial
  · split at h <;> cases h
    trivial
  · cases h
    trivial

theorem ordinary_of_compare {op : CompareOp} (h : compare op a b = .error e) : e.Ordinary := by
  have hmap : ∀ f : Option Ordering → Bool, (a.order b).map f = .error e → e.Ordinary := by
    intro f hf
    cases horder : a.order b with
    | error e' =>
      rw [horder] at hf
      cases hf
      exact ordinary_of_order horder
    | ok o =>
      rw [horder] at hf
      cases hf
  cases op with
  | eq | ne => cases h
  | lt | le | gt | ge => exact hmap _ h

end Value

end StackCode
