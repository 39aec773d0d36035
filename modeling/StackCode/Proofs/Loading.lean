import StackCode.Proofs.Simulation
import Mathlib.Data.List.Nodup

/-!
# Loading a value

An operation that succeeds in a session leaves a stretch of code in the method that is finished
later. The stretch of a load computes the value of the symbol: the machine comes to its end with the
value on the operand stack, or raises the fault of the evaluation.
-/

namespace StackCode

open Emission List Session

variable {s s' : Session} {x : Symbol} {r : Registry} {op : Operation} {segs : List Listing}
  {f : Factory} {κ : Literal → Literal}

/-! ### Literals and constants -/

/-- A literal that is no floating-point number stands for itself. -/
theorem Pool.represents_id (k : Pool) : k.Represents (fun l => ¬l.IsFloat) id :=
  ⟨rfl, fun _ => rfl, fun _ _ _ hl _ hkey => (Constant.eq_of_key hl hkey).symm⟩

/-! ### The code of an operation -/

/-- An operation succeeds in a session, and in a later state of the session a method is finished. -/
structure Session.Performs (r : Registry) (m : Method) (s : Session) (op : Operation)
    (s' : Session) : Prop where
  started : ∃ id options, Steps (fun _ => True) (start id r m.function options) s
  permitted : s.Permits op
  succeeds : ∃ a, (s.perform op).1 = .ok a
  continued : Steps (fun _ => True) (s.perform op).2 s'
  finished : s'.context.finish = .ok m

namespace Session

variable {m : Method}

/-- The session after an operation. -/
def after (s : Session) (op : Operation) : Session := (s.perform op).2

theorem setting_after (s : Session) (op : Operation) : (s.after op).setting = s.setting := by
  rw [after, perform_eq]
  rcases op.emission.outcome s.setting s.body with ⟨e | a, b⟩
  · rfl
  · cases a <;> rfl

/-- The slots of the temporaries that an operation has acquired and not released. -/
def acquired (s : Session) (op : Operation) : List UInt16 :=
  ((s.after op).body.live.take ((s.after op).body.live.length - s.body.live.length)).map
    Temporary.slot

theorem steps_free (h : Steps (fun _ => True) s s') : Steps Discipline.free.Allows s s' :=
  h.lift (fun s => s) fun _ _ ⟨op, hpermit, _, hperf⟩ =>
    ⟨op, hpermit, Discipline.free_allows op, hperf⟩

/-- What is known of a session in which an operation is performed. -/
theorem Performs.inv (h : s.Performs r m op s') :
    ∃ segs, s.Inv .free segs ∧ s.Parted ∧ s.Knows ∧ s.setting.registry = r ∧
    s.setting.function = m.function := by
  obtain ⟨id, options, hsteps⟩ := h.started
  obtain ⟨segs, hinv, hsetting⟩ := inv_of_steps hsteps
  have hparted := (parted_start id r m.function options).steps hsteps
  have hknows := (knows_start id r m.function options).steps hsteps
  exact ⟨segs, hinv, hparted, hknows, by rw [hsetting], by rw [hsetting]⟩

theorem Performs.locals_eq (h : s.Performs r m op s') : m.locals = s'.body.locals := by
  obtain ⟨-, ⟨-, -, rfl⟩ | ⟨-, rfl⟩⟩ := Context.finish_ok h.finished <;> rfl

/-- The segment of an operation stands in the method where the code ended before and after it. -/
theorem Performs.carries (h : s.Performs r m op s') {seg : Listing} (hinv : s.Inv .free segs)
    (hafter : (s.after op).Inv .free (segs ++ [seg])) :
    m.Carries s.body.emitter.offset seg.commands (s.after op).body.emitter.offset := by
  obtain ⟨segs₁, hinv', hbefore, -⟩ := hafter.steps (steps_free h.continued)
  obtain ⟨segs₂, hbuilt, hbefore'⟩ := hinv'.built h.finished
  have hpre := hbefore.trans hbefore'
  have hlen : segs.length < segs₂.length := by
    have hle := hpre.length_le
    simp only [length_map, length_append, length_singleton] at hle
    omega
  have hcmds : segs₂[segs.length].commands = seg.commands := by
    have hget := hpre.getElem (i := segs.length) (by simp)
    simpa using hget.symm
  have hstart : s.body.emitter.offset = Listing.cut segs₂ segs.length :=
    hbuilt.offset_eq_cut hinv.body.sound.linked ((by simp : _ <+: _).trans hpre)
  have hend : (s.after op).body.emitter.offset = Listing.cut segs₂ (segs.length + 1) := by
    have hcut := hbuilt.offset_eq_cut hafter.body.sound.linked hpre
    rwa [length_append, length_singleton] at hcut
  rw [hstart, hend, ← hcmds]
  exact hbuilt.carries hlen

/-- Code with temporaries stands in a method: where it is, which slots it may use, and what is known
of the symbols that the user holds. -/
structure Leaves (m : Method) (s : Session) (op : Operation) (s' : Session) (ts : List Temporary)
    (xs : List Command) : Prop where
  carries : m.Carries s.body.emitter.offset xs (s.after op).body.emitter.offset
  distinct : (ts.map Temporary.slot).Nodup
  typed : ∀ t ∈ ts, m.locals[t.slot.toNat]? = some t.type
  temporary : ts.map Temporary.slot ⊆ s'.temporaries
  declared : ∀ slot ∈ s'.temporaries, slot.toNat < m.locals.size
  made : ∀ x ∈ s.symbols, s.setting.Made .free m.locals x
  apart : ∀ x ∈ s.symbols, ∀ slot, x.Uses slot → slot ∉ s'.temporaries

/-- An operation that emits a segment leaves it in the method. -/
theorem Performs.leaves (h : s.Performs r m op s') (hinv : s.Inv .free segs) {b : Body}
    {ts : List Temporary} {xs : List Command}
    (hdraws : Slots.Draws s.setting.options s.body.slots b.slots) (hgrows : s.body.Grows b)
    (hemit : s.body.Emitted b ts xs) (hseg : Segment s.setting .free s.body.locals ts xs)
    (hstraight : Straight xs)
    (hafter : s.after op = { s with context := ⟨s.setting, b⟩ } ∨
      s.after op = { s with context := ⟨s.setting, b.release s.setting.options⟩ }) :
    s.Leaves m op s' ts xs := by
  obtain ⟨-, -, hparted, hknows, -⟩ := h.inv
  obtain ⟨seg, rfl, hproper⟩ := hinv.body.gains (.straight hgrows hemit hstraight hseg)
  have hsyms : (s.after op).symbols = s.symbols := by
    rcases hafter with hafter | hafter <;> rw [hafter]
  have hlocs : (s.after op).body.locals = b.locals := by
    rcases hafter with hafter | hafter <;> rw [hafter] <;> rfl
  have hinv' : (s.after op).Inv .free (segs ++ [seg]) := by
    have hmade := fun y hy => (hinv.symbols y hy).mono hgrows.locals
    rcases hafter with hafter | hafter <;> rw [hafter]
    · exact ⟨hproper, hmade⟩
    · exact ⟨⟨hproper.sound.release _, hproper.scopes⟩, hmade⟩
  have hpre : b.locals.toList <+: m.locals.toList := by
    rw [h.locals_eq, ← hlocs]
    exact locals_of_steps h.continued
  have hsize : s'.body.locals.size ≤ 65536 := by
    obtain ⟨segs', hinv', -, -⟩ := hinv'.steps (steps_free h.continued)
    exact Nat.le_of_lt hinv'.body.sound.slots.few
  have hstep : Step (fun _ => True) s (s.after op) := ⟨op, h.permitted, trivial, rfl⟩
  have hknows' : (s.after op).Knows := hknows.step hstep
  obtain ⟨hkept, hnew⟩ := variableSlots_of_steps hknows' h.continued
  have hkept : s.variableSlots ⊆ s'.variableSlots := by
    rwa [variableSlots, hsyms] at hkept
  refine ⟨h.carries hinv hinv', ?_, fun t ht => ?_, fun slot hslot => ?_, fun slot hslot => ?_,
    fun x hx => (hinv.symbols x hx).mono (hgrows.locals.trans hpre), fun x hx slot huses hslot =>
      ?_⟩
  · have hdist := (hemit.slots hinv.body.sound.slots).distinct
    rw [hemit.live] at hdist
    simp only [map_append, map_reverse] at hdist
    exact nodup_reverse.mp hdist.of_append_right.of_append_left
  · have htyped := hinv.body.sound.temporaries hemit t ht
    obtain ⟨more, hmore⟩ := hpre
    rw [← Array.getElem?_toList] at htyped ⊢
    rwa [← hmore, List.getElem?_append_left (List.getElem?_eq_some_iff.mp htyped).1]
  · obtain ⟨t, ht, rfl⟩ := mem_map.mp hslot
    have htyped := hinv.body.sound.temporaries hemit t ht
    have hlt := (Array.getElem?_eq_some_iff.mp htyped).1
    refine (mem_temporaries hsize).mpr ⟨?_, fun hvariable => ?_⟩
    · rw [← h.locals_eq]
      have hle := hpre.length_le
      simp only [Array.length_toList] at hle
      omega
    · -- a variable is held already, so its slot is none of a temporary, or its slot is a later one
      rcases hnew _ hvariable with hold | hlarge
      · rw [variableSlots, hsyms] at hold
        have hlive : t ∈ b.live := by
          rw [hemit.live]
          exact mem_append_left _ (mem_reverse.mpr ht)
        have hdist := (nodup_append.mp (hparted.draws hdraws).distinct).2.2
        exact hdist _ hold _ (mem_map_of_mem (mem_append_right _ hlive)) rfl
      · rw [hlocs] at hlarge
        omega
  · rw [h.locals_eq]
    exact ((mem_temporaries hsize).mp hslot).1
  · exact ((mem_temporaries hsize).mp hslot).2 (hkept (hknows x hx slot huses))

/-- The code of a load, with the temporaries that it has acquired. -/
theorem Performs.load {intent : LoadIntent} (h : s.Performs r m (.load x intent) s') :
    ∃ ts xs, Code r (.load x intent) ts xs ∧ s.acquired (.load x intent) =
      (ts.map Temporary.slot).reverse ∧
      x ∈ s.symbols ∧ s.Leaves m (.load x intent) s' ts xs := by
  obtain ⟨segs, hinv, -, -, hreg, -⟩ := h.inv
  obtain ⟨a, hok⟩ := h.succeeds
  rw [perform_eq, outcome_load] at hok
  rcases load_cases hinv.body.sound x intent with ⟨e, k, hout, -⟩ | ⟨b, ts, xs, hout, hctx, hcode,
    hgrows, hemit⟩
  · rw [hout] at hok
    cases hok
  have hafter : s.after (.load x intent) = { s with context := ⟨s.setting, b⟩ } := by
    rw [after, perform_eq, outcome_load, hout]
    rfl
  have hheld : x ∈ s.symbols :=
    (h.permitted.symbols x (by simp [Operation.symbols])).resolve_right fun hne => hne hctx
  have hdraws : Slots.Draws s.setting.options s.body.slots b.slots := by
    have hdraws := (Operation.load x intent).covers_work (covers_draws s.setting)
      (by rintro ⟨type, ⟨⟩⟩) s.body
    have hwork : (Operation.load x intent).work.outcome s.setting s.body =
        ((Emission.load x intent >>= fun _ => pure Answer.done) >>= fun _ => pure ()).outcome
          s.setting
          s.body := rfl
    rwa [hwork, outcome_bind, outcome_bind, hout] at hdraws
  refine ⟨ts, xs, hreg ▸ hcode, ?_, hheld, h.leaves hinv hdraws hgrows hemit
    (.load (hinv.symbols x hheld) trivial hcode) hcode.straight (.inl hafter)⟩
  have hbody : (s.after (.load x intent)).body = b := by rw [hafter]; rfl
  rw [acquired, hbody, hemit.live]
  simp

end Session

/-! ### Running the code of a load -/

/-- The innermost frame runs a method, at an offset, and it has the slots of the method. -/
structure State.At (m : Method) (offset : Nat) (s : State) (f : Frame) (rest : List Frame) :
    Prop where
  frames : s.frames = f :: rest
  method : f.method = m
  size : f.locals.size = m.locals.size
  offset : f.offset = offset

namespace State.At

variable {m : Method} {o : Nat} {s : State} {f : Frame} {rest : List Frame}

section

variable (h : s.At m o f rest)
include h

theorem hosts : s.Hosts m := ⟨f, rest, h.frames, h.method, h.size⟩

theorem depth : s.depth = rest.length + 1 := by
  rw [State.depth, h.frames, length_cons]

theorem like (T : List UInt16) : s.Like T f.locals := ⟨f, rest, h.frames, rfl, fun _ _ => rfl⟩

theorem standing : s.standing f.locals f.stack o = s := by
  obtain ⟨frames, heap, statics, captured⟩ := s
  obtain ⟨rfl, -, -, rfl⟩ := h
  rfl

end

end State.At

namespace Session

/-- The code of a load computes the value of the symbol. From its first offset the machine comes to
the offset behind it with exactly the value on the operand stack, in the state that the evaluation
leads to; or it raises the fault of the evaluation. The evaluation itself changes nothing but that
there are new boxes and that static fields have got their defaults, and the machine moreover writes
the temporaries that the load has acquired, and no other slot. -/
theorem load_computes_value {r : Registry} (hr : r.Registered) {m : Method} {s s' : Session}
    {x : Symbol} (hload : s.Performs r m (.load x .value) s')
    (hx : x.Evaluable (fun l => ¬l.IsFloat) True)
    {p : Program} (hp : p.registry = r) {st : State} {f : Frame} {rest : List Frame}
    (hat : st.At m s.body.emitter.offset f rest)
    (hclosed : st.Closed r (Root.Outside rest.length (s.acquired (.load x .value))))
    (htyped : x.Typed id p st) :
    (∀ v st', (x.value id).exec p st = (.ok v, st') → st.Extends r st' ∧ ∃ L,
      st.Like (s.acquired (.load x .value)) L ∧ Exec.Reaches p st
        (st'.standing L (v :: f.stack) (s.after (.load x .value)).body.emitter.offset)) ∧
    ∀ e st', (x.value id).exec p st = (.error e, st') → st.Extends r st' ∧ ∃ L σ k t,
      st.Like (s.acquired (.load x .value)) L ∧ Exec.Reaches p st t ∧
        Exec.step.exec p t = (.error e, st'.standing L σ k) := by
  subst hp
  obtain ⟨ts, xs, hcode, hacquired, hheld, hleaves⟩ := hload.load
  obtain ⟨segs, hinv, -, -, hregistry, hfunction⟩ := hload.inv
  rw [hacquired] at hclosed ⊢
  let S : Scene := ⟨p, m, s.setting, .free, rest.length, (ts.map Temporary.slot).reverse,
    fun l => ¬l.IsFloat, id⟩
  have hS : S.Proper := by
    refine ⟨hregistry, hr, hfunction.symm, Pool.represents_id _, fun t ht => ?_⟩
    exact hleaves.declared t (hleaves.temporary (List.mem_reverse.mp ht))
  have hstage : S.Stage st f.locals := ⟨⟨hat.depth, hclosed⟩, hat.hosts, hat.like _⟩
  have hready : S.Ready x st := by
    refine ⟨hleaves.made x hheld, hx, htyped, fun slot huses hslot => ?_⟩
    exact hleaves.apart x hheld slot huses (hleaves.temporary (List.mem_reverse.mp hslot))
  have hslots : ts.map Temporary.slot ⊆ S.slots := fun t ht => List.mem_reverse.mpr ht
  have hruns : Exec.Runs p _ _ _ (x.value id) st f.locals [] _ :=
    Scene.simulates_code hS hcode hstage hready hslots hleaves.carries
  have hgrows : st.Extends p.registry ((x.value id).exec p st).2 :=
    (hready.quiet_value st hstage.calm).grows
  refine ⟨fun v st' hv => ?_, fun e st' he => ?_⟩
  · obtain ⟨L, ws, hreaches, hagree, rfl⟩ := hruns.ok v st' hv f.stack
    rw [List.nil_append, hat.standing] at hreaches
    rw [hv] at hgrows
    exact ⟨hgrows, L, (hat.like _).agree hagree hslots, hreaches⟩
  · obtain ⟨t, L, σ, k, hreaches, hstep, hagree⟩ := hruns.error e st' he f.stack
    rw [List.nil_append, hat.standing] at hreaches
    rw [he] at hgrows
    exact ⟨hgrows, L, σ, k, t, (hat.like _).agree hagree hslots, hreaches, hstep⟩

theorem perform_make (h : f.make s.setting = .ok x) :
    s.perform (.make f) = (.ok (.symbol x), { s with symbols := x :: s.symbols }) := by
  have hmake : (Operation.make f).emission.outcome s.setting s.body =
    (.ok (.symbol x), s.body) := by
    have hbind := outcome_checking_bind (c := s.setting) (b := s.body) f.make fun x =>
      pure (Answer.symbol x)
    rwa [h] at hbind
  rw [perform_eq, hmake]
  rfl

theorem step_make (hparts : ∀ y ∈ f.parts, y ∈ s.symbols) (h : f.make s.setting = .ok x) :
    Step (fun _ => True) s { s with symbols := x :: s.symbols } := by
  refine ⟨.make f, ⟨fun y hy => .inl (hparts y hy), by simp [Operation.labels],
    by simp [Operation.scopes]⟩, trivial, ?_⟩
  rw [perform_make h]

/-- The method that a session is finished to. -/
def method (s : Session) : Method := match s.context.finish with
  | .ok m => m
  | .error _ => default

theorem finish_method (h : s.context.finish.toBool = true) : s.context.finish = .ok s.method := by
  unfold method
  cases hfin : s.context.finish with
  | error e =>
    rw [hfin] at h
    cases h
  | ok m => rfl

theorem function_method (h : s.context.finish = .ok s.method) :
    s.method.function = s.setting.function := by
  obtain ⟨-, ⟨-, -, hm⟩ | ⟨-, hm⟩⟩ := Context.finish_ok h <;> rw [hm] <;> rfl

end Session

theorem exists_of_toBool {ε α : Type} {x : Except ε α} (h : x.toBool = true) : ∃ a, x = .ok a := by
  cases x with
  | error e => cases h
  | ok a => exact ⟨a, rfl⟩

/-- An operation without labels and scopes, after which the method is finished. -/
theorem Session.performs_of_steps {id : ContextId} {f : FunctionDecl} {options : EmitOptions}
    (hsteps : Steps (fun _ => True) (start id r f options) s)
    (hsyms : ∀ x ∈ op.symbols, x ∈ s.symbols) (hlabels : op.labels = []) (hscopes : op.scopes = [])
    (hok : (s.perform op).1.toBool = true) (hfin : (s.after op).context.finish.toBool = true) :
    s.Performs r (s.after op).method op (s.after op) := by
  have hfin := finish_method hfin
  refine ⟨⟨id, options, ?_⟩, ⟨fun x hx => .inl (hsyms x hx), by simp [hlabels], by simp [hscopes]⟩,
    exists_of_toBool hok, .refl, hfin⟩
  obtain ⟨-, -, hsetting⟩ := inv_of_steps hsteps
  rwa [function_method hfin, setting_after, hsetting]

/-- The values of one frame and of the heap are all that is stored, and have addresses of a certain
sort only. -/
theorem State.closed_of_values {s : State} {f : Frame} {P : Root → Prop} (hframes : s.frames = [f])
    (hstatics : s.statics = ∅) (hcapt : s.captured = ∅)
    (hargs : ∀ v ∈ f.args, v.Within P) (hlocals : ∀ v ∈ f.locals, v.Within P)
    (hheap : ∀ o ∈ s.heap.objects, o.value.Within P) : s.Closed r P := by
  have hframe : ∀ {n g}, s.frame? n = some g → g = f := fun hg => by
    have hmem := mem_of_frame? hg
    rwa [hframes, mem_singleton] at hmem
  intro root v _ hv
  have hcell := cell?_of_root hv
  cases root with
  | localSlot n slot =>
    obtain ⟨g, hg, hv⟩ := Option.bind_eq_some_iff.mp hcell
    cases hframe hg
    exact hlocals v (Array.mem_of_getElem? hv)
  | argument n slot =>
    obtain ⟨g, hg, hv⟩ := Option.bind_eq_some_iff.mp hcell
    cases hframe hg
    exact hargs v (Array.mem_of_getElem? hv)
  | static field => simp [State.cell?, Root.cell, hstatics] at hcell
  | heap id =>
    obtain ⟨o, ho, rfl⟩ := Option.map_eq_some_iff.mp hcell
    exact hheap o (Array.mem_of_getElem? ho)
  | captured owner index => simp [State.cell?, Root.cell, hcapt] at hcell

theorem Symbol.hasType_of_value {p : Program} {s : State} {v : Value}
    (hv : ((x.value κ).exec p s).1 = .ok v) (hadm : p.registry.Admits x.valueType.hash v)
    (hplain : x.dataType.isByRef = false) : x.HasType κ p s := by
  refine ⟨fun w s' hw => ?_, fun href => ?_⟩
  · rw [hw] at hv
    cases hv
    exact hadm
  · rw [hplain] at href
    cases href

/-! ### A field of a boxed pair -/

namespace Setting

variable {c : Setting}

theorem convert_eq {source : Symbol} {target : DataType} {k : Conversion}
    (hsrc : source.context = c.id)
    (hk : c.registry.resolve source.valueType.hash target.dereferenced.hash = .ok k) :
    c.convert source target = .ok (.converted c.id source k) := by
  rw [convert, checkSymbol, check, if_pos hsrc, hk]
  rfl

theorem field_eq {holder : Symbol} {name : String} {f : FieldDecl} (hhold : holder.context = c.id)
    (hf : c.registry.field? holder.valueType.hash name = some f) (hinst : f.isStatic = false) :
    c.field holder name = .ok (.field c.id holder f) := by
  rw [field, checkSymbol, check, if_pos hhold]
  simp only [hf, Option.filter_some, hinst]
  rfl

end Setting

namespace Boxed

/-- A value type with two fields. -/
def pair : TypeDecl :=
  ((TypeDecl.named "Pair" (.value 8 4)).withField "a" (.plain .int32) false).withField "b"
    (.plain .int32) false

@[irreducible] def registry : Registry := (Registry.withPrimitives.registerType pair).2

/-- A function that is given an integer by reference and a boxed pair. -/
def extract : FunctionDecl :=
  .free "extract" [⟨"target", .plain .int32, .inOut⟩, ⟨"box", .plain .object, .byValue⟩] .void

/-- The second field of the pair. -/
def second : FieldDecl := ⟨"b", .ofField pair.hash "b", pair.hash, .plain .int32, false, 1⟩

/-- The argument that is passed by reference. -/
def target : Symbol := .argument ⟨0⟩ 0 (.byRef .int32)

def box : Symbol := .argument ⟨0⟩ 1 (.plain .object)

def content : Symbol := .converted ⟨0⟩ box ⟨.object, pair.hash, .unbox pair.hash⟩

def part : Symbol := .field ⟨0⟩ content second

theorem evaluation_registry :
    registry.resolve box.valueType.hash (DataType.plain pair.hash).dereferenced.hash =
      .ok ⟨.object, pair.hash, .unbox pair.hash⟩ ∧
    registry.field? content.valueType.hash "b" = some second ∧
    registry.kind? box.valueType.hash = some .object ∧
    registry.kind? content.valueType.hash = some (.value 8 4) ∧
    registry.kind? part.valueType.hash = some (.primitive (.int .int32)) := by
  decide +kernel

theorem registered_registry : registry.Registered := by
  unfold registry
  exact .type (.primitives .empty) pair

/-- A context whose user holds some symbols. -/
def holding (symbols : List Symbol) : Session :=
  { Session.start ⟨0⟩ registry extract .default with symbols }

/-- A context whose user holds these symbols. -/
def session : Session := holding [part, content, box, target]

theorem steps_session : Session.Steps (fun _ => True)
    (start ⟨0⟩ registry extract .default) session := by
  obtain ⟨hresolve, hfield, -⟩ := evaluation_registry
  have htgt : Session.Step (fun _ => True) (holding []) (holding [target]) :=
    step_make (f := .argument 0) (by simp [Factory.parts]) rfl
  have hbox : Session.Step (fun _ => True) (holding [target]) (holding [box, target]) :=
    step_make (f := .argument 1) (by simp [Factory.parts]) rfl
  have hcont : Session.Step (fun _ => True) (holding [box, target])
    (holding [content, box, target]) :=
    step_make (f := .convert box (.plain pair.hash)) (by simp [Factory.parts, holding])
      (Setting.convert_eq rfl hresolve)
  have hpart : Session.Step (fun _ => True) (holding [content, box, target]) session :=
    step_make (f := .field content "b") (by simp [Factory.parts, holding])
      (Setting.field_eq rfl hfield rfl)
  exact .tail (.tail (.tail (.tail .refl htgt) hbox) hcont) hpart

/-- The method that is finished after an operation. -/
def method (op : Operation) : Method := (session.after op).method

theorem performs (op : Operation) (hsyms : ∀ x ∈ op.symbols, x ∈ session.symbols)
    (hlabels : op.labels = []) (hscopes : op.scopes = [])
    (hok : (session.perform op).1.toBool = true)
    (hfin : (session.after op).context.finish.toBool = true) :
    session.Performs registry (method op) op (session.after op) :=
  performs_of_steps steps_session hsyms hlabels hscopes hok hfin

def program : Program := ⟨registry, ∅, ∅, 1⟩

/-- The innermost frame before the code of an operation. -/
def frame (op : Operation) : Frame where
  method := method op
  args := #[.address (.ofRoot (.heap ⟨1⟩)), .ref ⟨0⟩]
  locals := (method op).locals.map fun type => registry.defaultValue type.hash
  stack := []
  offset := 0
  resume := .host

/-- A boxed pair, and a cell for an integer. -/
def state (op : Operation) : State where
  frames := [frame op]
  heap := ⟨#[⟨pair.hash, .aggregate [.int32 3, .int32 5]⟩, ⟨.int32, .int32 0⟩]⟩
  statics := ∅
  captured := ∅

theorem at_state (op : Operation) :
    (state op).At (method op) session.body.emitter.offset (frame op) [] :=
  ⟨rfl, rfl, Array.size_map, rfl⟩

theorem closed_state (op : Operation) (T : List UInt16) :
    (state op).Closed registry (Root.Outside 0 T) :=
  State.closed_of_values rfl rfl rfl (by simp [frame, Address.ofRoot])
    (by simp [frame, Registry.defaultValue]) (by simp [state, Value.int32])

/-- The boxed pair has its type, and so has its field. -/
theorem typed_part (hbox : ((box.value κ).exec program (state op)).1 = .ok (.ref ⟨0⟩))
    (hcont : ((content.value κ).exec program (state op)).1 = .ok (.aggregate [.int32 3, .int32 5]))
    (hpart : ((part.value κ).exec program (state op)).1 = .ok (.int32 5)) :
    part.Typed κ program (state op) := by
  obtain ⟨-, -, hkind, hkind', hkind''⟩ := evaluation_registry
  have hbox' : registry.Admits box.valueType.hash (.ref ⟨0⟩) := by
    rw [Registry.Admits, hkind]
    exact .inr (.inr ⟨_, rfl⟩)
  have hcont' : registry.Admits content.valueType.hash (.aggregate [.int32 3, .int32 5]) := by
    rw [Registry.Admits, hkind']
    exact ⟨_, rfl⟩
  have hpart' : registry.Admits part.valueType.hash (.int32 5) := by
    rw [Registry.Admits, hkind'']
    exact ⟨_, rfl⟩
  exact ⟨⟨Symbol.hasType_of_value hbox hbox' rfl, Symbol.hasType_of_value hcont hcont' rfl⟩,
    Symbol.hasType_of_value hpart hpart' rfl⟩

theorem evaluation_load : session.acquired (.load part .value) = [0] ∧
    (session.after (.load part .value)).body.emitter.offset = 13 ∧
    (session.perform (.load part .value)).1.toBool = true ∧
    (session.after (.load part .value)).context.finish.toBool = true ∧
    ((box.value id).exec program (state (.load part .value))).1 = .ok (.ref ⟨0⟩) ∧
    ((content.value id).exec program (state (.load part .value))).1 =
      .ok (.aggregate [.int32 3, .int32 5]) ∧
    ((part.value id).exec program (state (.load part .value))).1 = .ok (.int32 5) := by
  decide +kernel

end Boxed

namespace Session

/-- The second field of a boxed pair is loaded through a temporary. -/
theorem loading_boxed_field_gives_five :
    Boxed.session.acquired (.load Boxed.part .value) = [0] ∧
      ∃ (st' : State) (L : Array Value), (Boxed.state (.load Boxed.part .value)).Like [0] L ∧
        Exec.Reaches Boxed.program (Boxed.state (.load Boxed.part .value))
          (st'.standing L [.int32 5] 13) := by
  obtain ⟨hacquired, hoffset, hdone, hfinish, hbox, hcontent, hvalue⟩ := Boxed.evaluation_load
  have hperforms := Boxed.performs (.load Boxed.part .value)
    (by simp [Operation.symbols, Boxed.session, Boxed.holding]) rfl rfl hdone hfinish
  obtain ⟨hok, -⟩ := load_computes_value Boxed.registered_registry hperforms ⟨trivial, trivial⟩ rfl
    (p := Boxed.program) (Boxed.at_state _) (Boxed.closed_state _ _)
    (Boxed.typed_part hbox hcontent hvalue)
  rw [hacquired, hoffset] at hok
  rcases hexec : (Boxed.part.value id).exec Boxed.program
    (Boxed.state (.load Boxed.part .value)) with
    ⟨result, st'⟩
  rw [hexec] at hvalue
  cases hvalue
  obtain ⟨-, L, hlike, hreaches⟩ := hok _ _ hexec
  exact ⟨hacquired, st', L, hlike, hreaches⟩

end Session

end StackCode
