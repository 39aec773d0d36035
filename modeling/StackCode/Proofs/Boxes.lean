import StackCode.Proofs.Assignability
import StackCode.Proofs.Crossing

/-!
# Boxes and casts

A value is put in a box, which is an object with the type of the value, and taken out of it again; a
cast leaves a reference as it is. Both look at the type that a value has at run time and fail if it
is none of the right ones. They differ in what they say of strings: a cast knows the type of a
string, while an unboxing asks for a reference to an object first.
-/

namespace StackCode

open Emission Registry Progress

variable {type : TypeHash} {p : Program} {rest : List Frame} {vs : List Value} {s : Session}
  {r : Registry}

namespace Exec

variable {p : Program} {s : State} {f : Frame} {rest : List Frame} {i : Instr} {vs : List Value}
  {v : Value}
  {type : TypeHash}

/-! ### Instructions -/

section Steps

variable (hs : s.frames = f :: rest) (hfetch : f.method.fetch? f.offset = some i)
  (htype : f.method.constants.typeHash? i.operand = some type) (hstack : f.stack = v :: vs)
include hs hfetch

/-- A step does an action, if its effect pops an operand and does it. -/
theorem exec_step_of_act (hret : i.op ≠ .ret) (hvoid : i.op ≠ .retVoid) (hstack : f.stack = v :: vs)
    {x : Exec Unit} (hx : effect f.method i = x) {a : Heap → Except Fault Action}
    (h : ∀ (t : State) g, t.frames = g :: rest →
      x.exec p (t.withStack (v :: vs)) = (act (a t.heap)).exec p (t.withStack vs)) :
    step.exec p s = (act (a s.heap) >>= fun _ => pure running).exec p (s.moved vs i.next) := by
  have heff := h { s with frames := { f with offset := i.next } :: rest } _ rfl
  rw [State.withStack_eq rfl, State.withStack_eq rfl] at heff
  rw [exec_step_of_effect hs hfetch hret hvoid, hx, s.moved_eq hs, s.moved_eq hs, hstack, exec_bind,
    heff, exec_bind]

include htype hstack

theorem exec_step_of_unbox (hop : i.op = .unbox) : step.exec p s =
    (act (do return .push [← p.registry.unboxed type (← s.heap.get (← v.object?))]) >>= fun _ =>
      pure running).exec p (s.moved vs i.next) := by
  have heff : effect f.method i = unbox i type := by
    unfold effect
    rw [hop]
    exact hashOperand_bind htype _
  exact exec_step_of_act hs hfetch (by simp [hop]) (by simp [hop]) hstack heff
    (a := fun heap => do return .push [← p.registry.unboxed type (← heap.get (← v.object?))])
    fun t g hg => exec_unbox_withStack hg type v

theorem exec_step_of_cast (hop : i.op = .cast) : step.exec p s =
    (act (p.registry.castAction s.heap type v) >>= fun _ => pure running).exec p
      (s.moved vs i.next) := by
  have heff : effect f.method i = checkedCast i type := by
    unfold effect
    rw [hop]
    exact hashOperand_bind htype _
  exact exec_step_of_act hs hfetch (by simp [hop]) (by simp [hop]) hstack heff
    (a := fun heap => p.registry.castAction heap type v) fun t g hg =>
      exec_checkedCast_withStack hg type v

theorem exec_step_of_box (hop : i.op = .box) : step.exec p s = (.ok .running,
    { s with heap := (s.heap.alloc type v).2 }.moved (.ref ⟨s.heap.size⟩ :: vs) i.next) := by
  refine (step_iff_perform hs hfetch (by simp [hop]) (by simp [hop])
    (show _ = [v] ++ vs from hstack)
    (by simp [Instr.pops, hop])).mpr ⟨.alloc type v, ?_, ?_⟩
  · simp only [Instr.action, hop, Method.hashAt, htype]
    rfl
  · have hs' : { s with heap := (s.heap.alloc type v).2 }.frames = f :: rest := hs
    rw [s.moved_eq hs, State.moved_eq hs']
    rfl

omit hfetch htype hstack in
theorem exec_act_push (w : Value) :
    (act (.ok (.push [w])) >>= fun _ => pure running).exec p (s.moved vs i.next) =
      (.ok .running, s.moved (w :: vs) i.next) := by
  rw [s.moved_eq hs, s.moved_eq hs]
  rfl

omit hfetch htype hstack in
theorem exec_unboxed {id : ObjectId} {o : HeapObject} (ho : s.heap.get id = .ok o) :
    (act (do
      return .push [← p.registry.unboxed type (← s.heap.get (← (Value.ref id).object?))]) >>=
        fun _ =>
      pure running).exec p (s.moved vs i.next) =
        if o.type = type then (.ok .running, s.moved (o.value :: vs) i.next)
        else (.error (.invalidCast (p.registry.typeName o.type) (p.registry.typeName type)),
          s.moved vs i.next) := by
  show (act (s.heap.get id >>= fun o => p.registry.unboxed type o >>= _) >>= _).exec p _ = _
  rw [ho]
  show (act (p.registry.unboxed type o >>= fun w => pure (.push [w])) >>= _).exec p _ = _
  rw [Registry.unboxed]
  by_cases heq : o.type = type
  · rw [if_neg (by simp [heq]), if_pos heq]
    exact exec_act_push hs _
  · rw [if_pos heq, if_neg heq]
    rfl

/-- An unboxing takes the value out of a box of its type, and a cast leaves a reference as it is.
Both fail for any other type and name the two types, except that an unboxing does not look at the
type of a string. -/
theorem conversions_are_checked :
    (i.op = .unbox →
      (v = .null → step.exec p s = (.error .nullReference, s.moved vs i.next)) ∧
      (∀ text, v = .lit (.str text) →
        step.exec p s = (.error (.mismatch "reference" v), s.moved vs i.next)) ∧
      ∀ id o, v = .ref id → s.heap.get id = .ok o → step.exec p s = if o.type = type then
          (.ok .running, s.moved (o.value :: vs) i.next)
        else (.error (.invalidCast (p.registry.typeName o.type) (p.registry.typeName type)),
          s.moved vs i.next)) ∧
    (i.op = .cast →
      (v = .null → step.exec p s = (.ok .running, s.moved (v :: vs) i.next)) ∧
      ∀ actual, s.heap.dynamicType v = .ok actual → step.exec p s =
        if p.registry.assignable actual type then (.ok .running, s.moved (v :: vs) i.next)
        else (.error (.invalidCast (p.registry.typeName actual) (p.registry.typeName type)),
          s.moved vs i.next)) := by
  refine ⟨fun hop => ?_, fun hop => ?_⟩
  · rw [exec_step_of_unbox hs hfetch htype hstack hop]
    refine ⟨?_, ?_, ?_⟩
    · rintro rfl
      rfl
    · rintro text rfl
      rfl
    · rintro id o rfl ho
      exact exec_unboxed hs ho
  · rw [exec_step_of_cast hs hfetch htype hstack hop, Registry.castAction]
    refine ⟨?_, fun actual hactual => ?_⟩
    · rintro rfl
      exact exec_act_push hs _
    · have hnull : v.isNull = false := by
        cases v with
        | lit l => cases l <;> first | rfl | cases hactual
        | _ => rfl
      rw [hnull, hactual]
      show (act (if p.registry.assignable actual type then _ else _) >>= _).exec p _ = _
      split
      · exact exec_act_push hs _
      · rfl

end Steps

end Exec

namespace Checked

open Exec

/-- A body of one instruction, which names the type `int32`. -/
def method (op : Opcode) : Method := ⟨default, ⟨#[op.byte, 0, 0], #[]⟩, ⟨#[.hash .int32], ∅⟩, #[]⟩

def frame (op : Opcode) (v : Value) : Frame := ⟨method op, #[], #[], [v], 0, .host⟩

/-- The body is about to look at a value; there is a boxed number. -/
def state (op : Opcode) (v : Value) : State := ⟨[frame op v], ⟨#[⟨.int32, .int32 7⟩]⟩, ∅, ∅⟩

def program : Program := ⟨.withPrimitives, ∅, ∅, 1⟩

/-- A number is taken out of its box, and null passes every cast. -/
theorem number_is_unboxed :
    step.exec program (state .unbox (.ref ⟨0⟩)) =
        (.ok .running, (state .unbox (.ref ⟨0⟩)).moved [.int32 7] 3) ∧
      step.exec program (state .cast .null) =
        (.ok .running, (state .cast .null).moved [.null] 3) := by
  have hunbox : (method .unbox).fetch? 0 = some ⟨0, .unbox, 0, 0⟩ := by decide
  have hcast : (method .cast).fetch? 0 = some ⟨0, .cast, 0, 0⟩ := by decide
  constructor
  · refine (((conversions_are_checked (s := state .unbox (.ref ⟨0⟩)) rfl hunbox rfl rfl).1 rfl).2.2
      ⟨0⟩ _
      rfl rfl).trans ?_
    exact if_pos rfl
  · exact ((conversions_are_checked (s := state .cast .null) rfl hcast rfl rfl).2 rfl).1 rfl

/-- An unboxing does not name the type of a string, as a cast does. -/
theorem string_is_not_unboxed :
    (step.exec program (state .unbox (.lit (.str "x")))).1 =
      .error (.typeMismatch "reference" "string") ∧
      (step.exec program (state .cast (.lit (.str "x")))).1 =
        .error (.invalidCast "string" "int32") := by
  decide +kernel

end Checked

/-! ### There and back -/

/-- Between a value type and `object` nothing else is chosen, whatever operators are registered. -/
theorem Request.resolve_object {qs : List Request} (hval : (extended qs).isValueType type)
    (hvoid : type ≠ .void) :
    (extended qs).resolve type .object = .ok ⟨type, .object, .box type⟩ ∧
      (extended qs).resolve .object type = .ok ⟨.object, type, .unbox type⟩ := by
  obtain ⟨t, ht, hkind, -⟩ := exists_object qs
  have hobj : (extended qs).isValueType .object = false := by
    rw [isValueType, kind?, ht, Option.map_some, hkind]
    rfl
  have hne : type ≠ .object := by
    rintro rfl
    rw [hobj] at hval
    cases hval
  have hbox : ¬(extended qs).assignable type .object := fun h => hne (eq_of_assignable hval h)
  have hunbox : ¬(extended qs).assignable .object type := by
    rw [assignable, isReferenceType_of_valueType hval]
    simpa using hne.symm
  have hvoid' : (TypeHash.object == .void) = false := by decide
  constructor
  · rw [resolve, conversionRule?, if_neg (by simp [hvoid, hvoid']), if_neg hbox,
      if_pos (by simp [hval])]
  · rw [resolve, conversionRule?, if_neg (by simp [hvoid, hvoid']), if_neg hunbox,
      if_neg (by simp [hobj]), if_pos (by simp [hval])]

/-- A symbol that is converted to `object` and back to its type. -/
abbrev Symbol.boxed (id : ContextId) (y : Symbol) (type : TypeHash) : Symbol :=
  .converted id (.converted id y ⟨type, .object, .box type⟩) ⟨.object, type, .unbox type⟩

namespace Emission

variable {c : Setting}

/-- A converted symbol is loaded by loading its source, unless the conversion takes its source as
a parameter. -/
theorem outcome_load_converted {source : Symbol} {k : Conversion}
    (hintent : sourceIntent c.registry k.rule = .value) (b : Body) :
    (emitLoad (.converted c.id source k) .value).outcome c b =
      (emitLoad source .value >>= fun _ => emitConversion k.rule).outcome c b := by
  have hcheck : c.check c.id = .ok () := if_pos rfl
  have hsym : c.checkSymbol (.converted c.id source k) = .ok () := hcheck
  rw [emitLoad, loadBy, outcome_checking_bind, hsym]
  dsimp only [loadValue]
  rw [if_neg (show ¬(Symbol.converted c.id source k).dataType.isByRef =
    true from Bool.false_ne_true), emitAccess, outcome_checking_bind, hcheck]
  show (read >>= fun s : Setting => loadBy source (emitAccess source)
    (sourceIntent s.registry k.rule) >>=
    fun _ => emitConversion k.rule).outcome c b = _
  rw [outcome_bind, outcome_read]
  show (loadBy source (emitAccess source) (sourceIntent c.registry k.rule) >>=
    fun _ => emitConversion k.rule).outcome c b = _
  rw [hintent]
  rfl

theorem outcome_load_boxed (y : Symbol) (type : TypeHash) (b : Body) :
    (emitLoad (.boxed c.id y type) .value).outcome c b = (do
        emitLoad y .value
        onEmitter (Emitter.emitHash .box type)
        onEmitter (Emitter.emitHash .unbox type) : Emission Unit).outcome c b := by
  rw [outcome_load_converted rfl, outcome_bind, outcome_load_converted rfl, ← outcome_bind]
  simp only [bind_assoc]
  rfl

theorem offset_emitHash {op : Opcode} (hsort : op.sort = .hash) {b b' : Body}
    (hvalid : b.emitter.constants.Valid)
    (h : (onEmitter (Emitter.emitHash op type)).outcome c b = (.ok (), b')) :
    b'.emitter.offset = b.emitter.offset + 3 ∧ b'.emitter.constants.Valid := by
  obtain ⟨hgrows, hok⟩ := emits_onEmitter (c := c) (Emitting.emits_emitHash hsort type) b hvalid
  rw [h] at hgrows hok
  obtain ⟨ts, xs, ⟨-, rfl⟩, hemit⟩ := hok () rfl
  refine ⟨?_, hgrows.emitter.valid hvalid⟩
  rw [hemit.appends.offset, codeSize, codeSize, Command.size, Opcode.operandSize_of_sort_hash hsort]

end Emission

namespace Session

variable {x : Symbol} {intent : LoadIntent}

theorem body_after_load {b : Body} (hx : x.context = s.setting.id)
    (h : (Emission.emitLoad x intent).outcome s.setting s.body = (.ok (), b)) :
    (s.after (.load x intent)).body = b := by
  have hcheck : s.setting.checkSymbol x = .ok () := if_pos hx
  rw [after, perform_eq, outcome_load, Emission.load, outcome_checking_bind, hcheck]
  rw [outcome_atomically, h]
  rfl

theorem outcome_of_load (h : ∃ a, (s.perform (.load x intent)).1 = .ok a) :
    ∃ b, (Emission.emitLoad x intent).outcome s.setting s.body = (.ok (), b) := by
  obtain ⟨a, ha⟩ := h
  rw [perform_eq, outcome_load, Emission.load, outcome_checking_bind] at ha
  cases hcheck : s.setting.checkSymbol x with
  | error e =>
    rw [hcheck] at ha
    cases ha
  | ok =>
    rw [hcheck] at ha
    rw [outcome_atomically] at ha
    rcases hout : (Emission.emitLoad x intent).outcome s.setting s.body with ⟨_ | _, b⟩
    · rw [hout] at ha
      cases ha
    · exact ⟨b, rfl⟩

theorem Performs.offset_boxed {m : Method} {s' : Session} {y : Symbol}
    (h : s.Performs r m (.load (.boxed s.setting.id y type) .value) s')
    (hy : y.context = s.setting.id) :
    (s.after (.load (.boxed s.setting.id y type) .value)).body.emitter.offset =
        (s.after (.load y .value)).body.emitter.offset + 6 := by
  obtain ⟨segs, hinv, -⟩ := h.inv
  obtain ⟨b, hb⟩ := outcome_of_load h.succeeds
  rw [body_after_load rfl hb]
  rw [outcome_load_boxed] at hb
  obtain ⟨_, b₁, hy', hb⟩ := bind_ok hb
  obtain ⟨_, b₂, hbox, hunbox⟩ := bind_ok hb
  rw [body_after_load hy hy']
  have hvalid : b₁.emitter.constants.Valid := by
    have hgrows := (emits_load (c := s.setting) y .value s.body hinv.body.sound.pool).1
    rw [hy'] at hgrows
    exact hgrows.emitter.valid hinv.body.sound.pool
  obtain ⟨hsize, hvalid⟩ := offset_emitHash rfl hvalid hbox
  obtain ⟨hsize', -⟩ := offset_emitHash rfl hvalid hunbox
  omega

end Session

/-- The code of a symbol that has been put in a box and taken out of it. -/
theorem Code.boxed {id : ContextId} {y : Symbol} {ts : List Temporary} {xs : List Command}
    (h : Code r (.load (.boxed id y type) .value) ts xs) :
    ∃ ys, xs = ys ++ [⟨.box, .hash type⟩, ⟨.unbox, .hash type⟩] := by
  cases h with
  | referred href => cases href
  | value _ hget =>
  cases hget with
  | converted hsrc =>
  cases hsrc with
  | referred href => cases href
  | value _ hget =>
  cases hget with
  | @converted _ _ _ _ ys _ => exact ⟨ys, List.append_assoc ..⟩

theorem Heap.get_alloc (h : Heap) (type : TypeHash) (v : Value) :
    (h.alloc type v).2.get ⟨h.size⟩ = .ok ⟨type, v⟩ := by
  simp [get, alloc, size]

/-- A value is put in a box and taken out of it. -/
theorem Exec.reaches_boxed {t : State} {f : Frame} {v : Value} {o' : Nat}
    (hs : t.frames = f :: rest)
    (hstack : f.stack = v :: vs)
    (hcarry : f.method.Carries f.offset [⟨.box, .hash type⟩, ⟨.unbox, .hash type⟩] o') :
    Reaches p t ({ t with heap := (t.heap.alloc type v).2 }.moved (v :: vs) o') := by
  cases hcarry with
  | @cons _ _ i _ _ hfetch hbox hrest =>
  cases hrest with
  | @cons _ _ j _ _ hfetch' hunbox hrest =>
  cases hrest
  have hstep := exec_step_of_box (p := p) hs hfetch hbox.2.2 hstack hbox.1
  have hs' : { t with heap := (t.heap.alloc type v).2 }.frames = f :: rest := hs
  rw [State.moved_eq hs'] at hstep
  refine .tail (.single hstep) ?_
  rw [State.moved_eq hs', exec_step_of_unbox (f :=
    { f with stack := _ :: vs, offset := i.next }) rfl hfetch'
    hunbox.2.2 rfl hunbox.1]
  exact (exec_unboxed rfl (t.heap.get_alloc type v)).trans (if_pos rfl)

namespace Setting

/-- A symbol of a value type, which is converted to `object` and back, is boxed and unboxed, and is
loaded by its own code and these two instructions. If the machine has loaded the symbol, it comes to
the end of the code with the same value, and all that it has changed is that there is one more
object, which has the type and the value. -/
theorem boxing_is_undone {qs : List Request} {type : TypeHash}
    (hvalue : (Request.extended qs).isValueType type) (hvoid : type ≠ .void) {c : Setting}
    (hregistry : c.registry = Request.extended qs) {y : Symbol} (hcontext : y.context = c.id)
    (htype : y.valueType.hash = type) :
    ∃ boxed back, c.convert y (.plain .object) = .ok boxed ∧
    c.convert boxed (.plain type) = .ok back ∧
      boxed = .converted c.id y ⟨type, .object, .box type⟩ ∧
      back = .converted c.id boxed ⟨.object, type, .unbox type⟩ ∧
      (∀ b, (Emission.emitLoad back .value).outcome c b = (do
        Emission.emitLoad y .value
        Emission.onEmitter (Emitter.emitHash .box type)
        Emission.onEmitter (Emitter.emitHash .unbox type) : Emission Unit).outcome c b) ∧
      ∀ (m : Method) (s s' : Session), s.setting = c →
      s.Performs c.registry m (.load back .value) s' →
        ∀ (p : Program) (st t : State) (f : Frame) (rest : List Frame) (v : Value)
          (vs : List Value),
          Exec.Reaches p st t → t.frames = f :: rest → f.method = m →
          f.offset = (s.after (.load y .value)).body.emitter.offset → f.stack = v :: vs →
          Exec.Reaches p st ({ t with heap := (t.heap.alloc type v).2 }.moved (v :: vs)
            (s.after (.load back .value)).body.emitter.offset) := by
  obtain ⟨hbox, hunbox⟩ := Request.resolve_object hvalue hvoid
  rw [← hregistry] at hbox hunbox
  have hboxed : c.convert y (.plain .object) = .ok (.converted c.id y ⟨type, .object, .box type⟩) :=
    convert_eq hcontext (htype ▸ hbox)
  have hback : c.convert (.converted c.id y ⟨type, .object, .box type⟩) (.plain type) =
      .ok (.boxed c.id y type) := convert_eq rfl hunbox
  refine ⟨_, _, hboxed, hback, rfl, rfl, Emission.outcome_load_boxed y type, ?_⟩
  rintro m s s' rfl hperforms p st t f rest v vs hreaches hframes rfl hoffset hstack
  obtain ⟨ts, xs, hcode, -, -, hleaves⟩ := hperforms.load
  obtain ⟨ys, rfl⟩ := hcode.boxed
  obtain ⟨o, -, hcarries⟩ := hleaves.carries.split
  have ho : o = f.offset := by
    have hsize := hperforms.offset_boxed hcontext
    have hend := hcarries.offset
    simp only [codeSize, Command.size, Opcode.operandSize] at hend
    omega
  subst ho
  exact hreaches.trans (Exec.reaches_boxed hframes hstack hcarries)

end Setting

namespace Repacked

open Boxed (registry pair part content box target program holding)

/-- The pair in a box of its own. -/
def boxed : Symbol := .converted ⟨0⟩ content ⟨pair.hash, .object, .box pair.hash⟩

/-- A context whose user has packed the pair of the box and unpacked it. -/
def session : Session := holding [.boxed ⟨0⟩ content pair.hash, boxed, part, content, box, target]

/-- The load of what was packed and unpacked. -/
def loading : Operation := .load (.boxed ⟨0⟩ content pair.hash) .value

def method : Method := (session.after loading).method

def contents : Value := .aggregate [.int32 3, .int32 5]

/-- The load begins; the second argument is a box. -/
def state : State :=
  ⟨[⟨method, #[.null, .ref ⟨0⟩], #[], [], 0, .host⟩], ⟨#[⟨pair.hash, contents⟩]⟩, ∅, ∅⟩

theorem registry_eq : registry = Request.extended [.type pair] := by
  unfold registry
  rfl

theorem evaluation_loading : registry.isValueType pair.hash = true ∧
    (session.perform loading).1.toBool = true ∧ (session.after loading).context.finish.toBool =
      true ∧
    (session.after (.load content .value)).body.emitter.offset = 6 ∧
    (session.after loading).body.emitter.offset = 12 ∧
    method.fetch? 0 = some ⟨0, .argument .get, 1, 0⟩ ∧ method.fetch? 3 = some ⟨3, .unbox, 0, 0⟩ ∧
    method.constants.typeHash? 0 = some pair.hash := by
  decide +kernel

theorem steps_session :
    Session.Steps (fun _ => True) (Session.start ⟨0⟩ registry Boxed.extract .default) session := by
  obtain ⟨hval, -⟩ := evaluation_loading
  rw [registry_eq] at hval
  obtain ⟨hbox, hunbox⟩ := Request.resolve_object hval (by decide +kernel)
  rw [← registry_eq] at hbox hunbox
  have hboxed : Session.Step (fun _ => True) Boxed.session
    (holding [boxed, part, content, box, target]) :=
    Session.step_make (f := .convert content (.plain .object))
      (by simp [Factory.parts, Boxed.session, holding]) (Setting.convert_eq rfl hbox)
  have hback : Session.Step (fun _ => True) (holding [boxed, part, content, box, target]) session :=
    Session.step_make (f := .convert boxed (.plain pair.hash)) (by simp [Factory.parts, holding])
      (Setting.convert_eq rfl hunbox)
  exact .tail (.tail Boxed.steps_session hboxed) hback

/-- The code of the pair itself takes it out of the first box. -/
theorem reaches_content : Exec.Reaches program state (state.moved [contents] 6) := by
  obtain ⟨-, -, -, -, -, hget, hunbox, htype⟩ := evaluation_loading
  have hfirst : Exec.step.exec program state = (.ok .running, state.moved [.ref ⟨0⟩] 3) := by
    refine (Exec.step_iff_perform (s := state) rfl hget (by simp) (by simp)
      (show _ = [] ++ [] from rfl)
      rfl).mpr ⟨_, rfl, rfl⟩
  refine .tail (.single hfirst) ?_
  rw [Exec.exec_step_of_unbox rfl hunbox htype rfl rfl]
  exact (Exec.exec_unboxed rfl rfl).trans (if_pos rfl)

/-- A pair that is taken out of a box, put in another one and taken out again is the same, and there
are two boxes. -/
theorem pair_is_repacked :
    registry = Request.extended [.type pair] ∧
    (Request.extended [.type pair]).isValueType pair.hash ∧
      pair.hash ≠ .void ∧ content.valueType.hash = pair.hash ∧
      (session.after (.load content .value)).body.emitter.offset = 6 ∧
      Exec.Reaches program state
        ({ state with heap := ⟨#[⟨pair.hash, contents⟩, ⟨pair.hash, contents⟩]⟩ }.moved [contents]
          12) := by
  obtain ⟨hvalue, hok, hfinish, hoffset, hend, -⟩ := evaluation_loading
  have hvoid : pair.hash ≠ .void := by decide +kernel
  rw [registry_eq] at hvalue
  obtain ⟨_, _, -, -, rfl, rfl, -, hruns⟩ :=
    Setting.boxing_is_undone hvalue hvoid (c := session.setting)
    registry_eq (y := content) rfl rfl
  have hperforms : session.Performs registry method loading (session.after loading) :=
    Session.performs_of_steps steps_session (by simp [loading, Operation.symbols, session, holding])
      rfl rfl
      hok hfinish
  have hreaches := hruns method session _ rfl hperforms program state _ _ [] contents []
    reaches_content rfl
    rfl hoffset.symm rfl
  refine ⟨registry_eq, hvalue, hvoid, rfl, hoffset, ?_⟩
  rw [← hend]
  exact hreaches

end Repacked

end StackCode
