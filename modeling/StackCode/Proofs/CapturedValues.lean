import StackCode.Proofs.Custody
import StackCode.Proofs.Scripts
import StackCode.Proofs.WellFormed

/-!
# Captured values

The methods of a type share the values that they captured. Nothing assigns to a captured value, but
the instruction `capturedAddress` pushes its address, and what can be addressed can be written to.
As long as no method of the type takes such an address, and neither the host nor a native function
makes one up, captured values stay what they are, whatever else a machine runs.
-/

namespace StackCode

open List Session Value UInt16 State

variable {owner : TypeHash} {p : Program}

/-- Roots other than the captured values of a type. -/
def Root.Foreign (owner : TypeHash) (root : Root) : Prop := ∀ index, root ≠ .captured owner index

/-- Values in which no address leads to a captured value of a type. -/
abbrev Value.Foreign (owner : TypeHash) (v : Value) : Prop := v.Within (Root.Foreign owner)

/-! ### Methods that take no address -/

namespace Method

variable {m : Method} {code : List Instr} {i : Instr}

/-- Behind an instruction that falls through stands another. -/
theorem WellFormed.exists_next (h : m.WellFormed code) (hi : i ∈ code)
    (hfalls : i.op.isTerminator = false) : ∃ j ∈ code, j.offset = i.next := by
  obtain ⟨pre, post, rfl⟩ := append_of_mem hi
  have hlaid := h.holds.laid
  obtain ⟨-, -, hpost⟩ := (laid_append.mp hlaid).2
  cases post with
  | nil =>
    obtain ⟨j, hj, hterminator⟩ := h.last
    rw [getLast?_concat] at hj
    cases hj
    rw [hfalls] at hterminator
    cases hterminator
  | cons j post => exact ⟨j, by simp, hpost.1⟩

/-- The method stands at one of its instructions, and no instruction takes the address of a captured
value. -/
def Stands (m : Method) (offset : Nat) : Prop :=
  ∃ code, m.WellFormed code ∧ (∀ i ∈ code, i.op ≠ .capturedAddress) ∧ ∃ i ∈ code, i.offset = offset

theorem Stands.fetch {offset : Nat} (h : m.Stands offset) : ∃ i, m.fetch? offset = some i ∧
    i.op ≠ .capturedAddress ∧ (i.op.isJump → m.Stands i.operand) ∧
    (i.op.isTerminator = false → m.Stands i.next) := by
  obtain ⟨code, hcode, haddr, i, hi, rfl⟩ := h
  refine ⟨i, hcode.fetched i hi, haddr i hi, fun hjump => ?_, fun hfalls => ?_⟩
  · obtain ⟨j, hj, htgt⟩ := (hcode.refers i hi).jump hjump
    exact ⟨code, hcode, haddr, j, hj, htgt.symm⟩
  · obtain ⟨j, hj, hnext⟩ := hcode.exists_next hi hfalls
    exact ⟨code, hcode, haddr, j, hj, hnext⟩

/-- A method that is finished from a context, whatever was done with it. -/
def Finished (m : Method) : Prop :=
  ∃ id registry options s, Session.Steps (fun _ => True) (.start id registry m.function options) s ∧
    s.context.finish = .ok m

theorem OfStatements.finished {r : Registry} (h : m.OfStatements r) : m.Finished := by
  obtain ⟨id, options, s, hsteps, hfin⟩ := h
  refine ⟨id, r, options, s, Relation.ReflTransGen.mono ?_ _ _ hsteps, hfin⟩
  rintro s t ⟨op, hpermits, -, heq⟩
  exact ⟨op, hpermits, trivial, heq⟩

theorem Finished.stands (h : m.Finished) (haddr : .capturedAddress ∉ m.chunk.opcodes) :
    m.Stands 0 := by
  obtain ⟨id, registry, options, s, hsteps, hfin⟩ := h
  obtain ⟨segs, hinv, -⟩ := inv_of_steps hsteps
  obtain ⟨segs', hbuilt, -⟩ := hinv.built hfin
  have hcode := hbuilt.wellFormed
  have hops : m.chunk.opcodes = (Listing.code segs'.flatten).map Instr.op := by
    rw [Chunk.opcodes, hcode.instructions, map_map]
    rfl
  refine ⟨_, hcode, fun i hi hop => haddr ?_, ?_⟩
  · rw [hops, ← hop]
    exact mem_map_of_mem hi
  · -- the code ends in a terminator, so there is a first instruction
    obtain ⟨j, hj, -⟩ := hcode.last
    have hlaid := hcode.holds.laid
    cases hlisting : Listing.code segs'.flatten with
    | nil =>
      rw [hlisting] at hj
      cases hj
    | cons i rest =>
      rw [hlisting] at hlaid
      exact ⟨i, mem_cons_self .., hlaid.1⟩

end Method

/-! ### States without addresses of captured values -/

/-- A native function makes up no address of a captured value of a type. -/
def Native.Foreign (owner : TypeHash) (native : Native) : Prop :=
  ∀ heap args, (∀ o ∈ heap.objects, o.value.Foreign owner) → (∀ v ∈ args, v.Foreign owner) →
    (∀ o ∈ (native heap args).2.objects, o.value.Foreign owner) ∧
      ∀ v, (native heap args).1 = .ok v → v.Foreign owner

/-- Neither the methods of a program nor its native functions make addresses of captured values of a
type. -/
structure Program.Guards (owner : TypeHash) (p : Program) : Prop where
  methods : ∀ (h : TypeHash) (m : Method), p.methods[h]? = some m → m.function.owner = some owner →
    m.Stands 0
  natives : ∀ (h : TypeHash) (native : Native), p.natives[h]? = some native → native.Foreign owner

/-- Storage without addresses of captured values of a type, which are the given ones. -/
structure State.Keeps (owner : TypeHash) (held : Option (Array Value)) (s : State) : Prop where
  heap : ∀ o ∈ s.heap.objects, o.value.Foreign owner
  statics : ∀ (h : TypeHash) v, s.statics[h]? = some v → v.Foreign owner
  others : ∀ (h : TypeHash) vs, s.captured[h]? = some vs → ∀ v ∈ vs, v.Foreign owner
  captured : s.captured[owner]? = held

/-- No address of a captured value of a type is around, and its captured values are the given
ones. -/
def Custody.foreign (owner : TypeHash) (held : Option (Array Value)) : Custody where
  allowed _ a := a.root.Foreign owner
  stands m n := m.function.owner = some owner → m.Stands n
  kept s := s.captured[owner]? = held

namespace Custody

variable {held : Option (Array Value)} {s : State}

theorem sound_foreign (hp : p.Guards owner) : (foreign owner held).Sound p where
  mono _ h := h
  member _ h := h
  below n id index k h := by cases h
  slot n frame slot := by constructor <;> intro k h <;> cases h
  static n field k h := by cases h
  cell _ k h := by cases h
  method hm := hp.methods _ _ hm
  fetch {m n i} hstands hfetch := by
    refine ⟨fun hop k root hroot index heq => ?_, fun hjump howner => ?_, fun hfalls howner => ?_⟩
    · unfold Method.capturedAt at hroot
      split at hroot <;> cases hroot
      rename_i owner' howner
      cases heq
      obtain ⟨j, hj, haddr, -⟩ := (hstands howner).fetch
      cases hfetch.symm.trans hj
      exact haddr hop
    all_goals
      obtain ⟨j, hj, -, htgt, hnext⟩ := (hstands howner).fetch
      cases hfetch.symm.trans hj
    · exact htgt hjump
    · exact hnext hfalls
  frames _ h := h
  materialize root h := (congrArg (·[owner]?) (extends_materialize root).captured).trans h
  store {s place old v new} h hplace _ _ := by
    have hplace : place.root.Foreign owner := hplace
    cases hroot : place.root with rw [hroot] at hplace
    | captured owner' index =>
      have hne : ¬compare owner' owner = .eq := fun heq => by
        cases Std.LawfulEqCmp.eq_of_compare heq
        exact hplace index rfl
      simp only [foreign, setRoot, Std.TreeMap.getElem?_modify, if_neg hne]
      exact h
    | localSlot | argument =>
      simp only [foreign, setRoot, storage_modifyFrame]
      exact h
    | static | heap => exact h
  alloc _ _ h := h
  native {hash native s args} hnative hs hargs := by
    obtain ⟨hheap, hres⟩ := hp.natives hash native hnative s.heap args
      (fun o ho => within_iff.mpr (hs.object_of_mem ho)) fun v hv => within_iff.mpr (hargs v hv)
    exact ⟨hs.withHeap (fun _ ha => ha) (fun o ho => within_iff.mp (hheap o ho)) hs.kept,
      fun v hv => within_iff.mp (hres v hv)⟩

theorem Guards.keeps (hs : (foreign owner held).Guards s) : s.Keeps owner held where
  heap o ho := within_iff.mpr (hs.object_of_mem ho)
  statics h v hv := within_iff.mpr (hs.cells (.static h) v hv)
  others h vs hvs v hv := by
    obtain ⟨n, hn⟩ := Array.getElem?_of_mem hv
    exact within_iff.mpr (hs.cells (.captured h n) v (Option.bind_eq_some_iff.mpr ⟨vs, hvs, hn⟩))
  captured := hs.kept

theorem guards_of_keeps (hs : s.Keeps owner held) (hidle : s.frames = []) :
    (foreign owner held).Guards s := by
  refine ⟨fun c v hv => ?_, by simp [hidle], by simp [hidle], by simp [hidle], hs.captured⟩
  refine (within_iff (P := Root.Foreign owner)).mp ?_
  cases c with
  | localSlot frame n | argument frame n =>
    obtain ⟨f, hf, -⟩ := Option.bind_eq_some_iff.mp hv
    have hlt := lt_of_frame? hf
    simp [depth, hidle] at hlt
  | static field => exact hs.statics field v hv
  | object id =>
    obtain ⟨o, ho, rfl⟩ := Option.map_eq_some_iff.mp hv
    exact hs.heap o (Array.mem_of_getElem? ho)
  | captured type n =>
    obtain ⟨vs, hvs, hv⟩ := Option.bind_eq_some_iff.mp hv
    exact hs.others type vs hvs v (Array.mem_of_getElem? hv)

end Custody

namespace Exec

variable {s : State}

theorem exec_step_loadCaptured {f : Frame} {rest : List Frame} (hf : s.frames = f :: rest)
    {i : Instr}
    (hfetch : f.method.fetch? f.offset = some i) (hop : i.op = .loadCaptured)
    (howner : f.method.function.owner = some owner) {vs : Array Value}
    (hvs : s.captured[owner]? = some vs) {v : Value}
    (hv : vs[(ofNat i.operand).toNat]? = some v) :
    step.exec p s = (.ok .running, s.moved (v :: f.stack) i.next) := by
  rw [exec_step_of_effect hf hfetch (by simp [hop]) (by simp [hop]), s.moved_eq hf, s.moved_eq hf]
  have hroot : (capturedRoot f.method i : Exec Root) =
    pure (.captured owner (ofNat i.operand)) := by
    unfold capturedRoot
    rw [howner]
  have hread : ∀ t : State, t.captured = s.captured →
      t.root p.registry (.captured owner (ofNat i.operand)) = .ok v := by
    intro t ht
    have hfound : (t.captured[owner]? >>= fun vs => vs[(ofNat i.operand).toNat]?) = some v := by
      rwa [ht, hvs]
    simp only [root, hfound]
  have hfetched : ∀ t : State, t.captured = s.captured →
      (fetch (.ofRoot (.captured owner (ofNat i.operand)))).exec p t = (.ok v, t) := by
    intro t ht
    rw [exec_fetch]
    show (t.root p.registry (.captured owner (ofNat i.operand)) >>= _, t) = _
    rw [hread t ht]
    rfl
  unfold effect
  rw [hop]
  rw [hroot, pure_bind, exec_bind, exec_bind,
    hfetched { s with frames := { f with offset := i.next } :: rest } rfl]
  rfl

end Exec

/-! ### Calls from the host -/

/-- A machine between two calls from the host, in which nothing can reach the captured values of a
type: its methods do not take their addresses, and nobody else has made one. -/
structure Machine.Reserves (owner : TypeHash) (m : Machine) : Prop where
  methods : ∀ (h : TypeHash) (method : Method), m.program.methods[h]? = some method →
    method.function.owner = some owner → method.Finished ∧ .capturedAddress ∉ method.chunk.opcodes
  natives : ∀ (h : TypeHash) (native : Native), m.program.natives[h]? = some native →
    native.Foreign owner
  storage : m.state.Keeps owner m.state.captured[owner]?
  idle : m.state.frames = []

namespace Machine

variable {m : Machine}

theorem Reserves.guards (h : m.Reserves owner) : m.program.Guards owner where
  methods hash method hmeth howner :=
    (h.methods hash method hmeth howner).1.stands (h.methods hash method hmeth howner).2
  natives := h.natives

theorem Reserves.guarded (h : m.Reserves owner) :
    (Custody.foreign owner m.state.captured[owner]?).Guards m.state :=
  Custody.guards_of_keeps h.storage h.idle

/-- Captured values stay what they are, in every state that a call from the host leads to and when
it ends, and are loaded as they were captured, unless a method of the type takes the address of one
or one is made up outside. -/
theorem captured_values_stay (m : Machine) (t : BuiltType) (hm : m.Reserves t.type)
    (hloaded : m.state.captured[t.type]? = some (t.captured.map Value.lit).toArray)
    (function : TypeHash) (args : List Value) (hargs : ∀ v ∈ args, v.Foreign t.type) :
    (∀ fuel result m', m.invoke fuel function args = some (result, m') → m'.Reserves t.type ∧
      m'.state.captured[t.type]? = some (t.captured.map Value.lit).toArray ∧
      ∀ v, result = .ok v → v.Foreign t.type) ∧
    ∀ s s', (Exec.enter function args .host).exec m.program m.state = (.ok (), s) →
      Exec.Reaches m.program s s' →
        s'.captured[t.type]? = some (t.captured.map Value.lit).toArray ∧
        ∀ f rest i l, s'.frames = f :: rest → f.method.fetch? f.offset = some i →
          i.op = .loadCaptured → f.method.function.owner = some t.type →
          t.captured[(UInt16.ofNat i.operand).toNat]? = some l →
          Exec.step.exec m.program s' = (.ok .running, s'.moved (.lit l :: f.stack) i.next) := by
  have hsound : (Custody.foreign t.type m.state.captured[t.type]?).Sound m.program :=
    Custody.sound_foreign hm.guards
  have hholds : ∀ v ∈ args, v.Holds fun a => a.root.Foreign t.type :=
    fun v hv => Value.within_iff.mp (hargs v hv)
  refine ⟨fun fuel result m' hinvoke => ?_, fun s s' henter hreaches => ?_⟩
  · obtain ⟨hprogram, hidle, hguards, hvalue⟩ :=
      hsound.guards_of_invoke hm.guarded hm.idle hholds hinvoke
    have hkeeps := hguards.keeps
    refine ⟨⟨hprogram ▸ hm.methods, hprogram ▸ hm.natives,
      ⟨hkeeps.heap, hkeeps.statics, hkeeps.others, rfl⟩,
      hidle⟩, hkeeps.captured.trans hloaded, fun v hv => Value.within_iff.mpr (hvalue v hv)⟩
  · have hentered := (hsound.yields_enter hm.guarded function .host hholds fun v hv => by
      cases hv).ok _ s henter
    have hcaptured := (hsound.guards_of_reaches hentered hreaches).kept.trans hloaded
    refine ⟨hcaptured, fun f rest i l hf hfetch hop howner hl => ?_⟩
    refine Exec.exec_step_loadCaptured hf hfetch hop howner hcaptured ?_
    rw [List.getElem?_toArray, List.getElem?_map, hl]
    rfl

end Machine

/-! ### A counter with a captured value -/

namespace Counter

def type : TypeHash := .ofName "Counter"

/-- A method that counts up a number of its caller. -/
def bump : FunctionDecl := .staticMethod type "bump" [⟨"x", .plain .int32, .inOut⟩] .void

/-- A method that counts up and returns the captured value. -/
def read : FunctionDecl := .staticMethod type "read" [] (.plain .int32)

def registry : Registry := Request.registry
  [.primitives, .type (.named "Counter" .reference), .function bump, .function read]

/-- The number that is passed by reference is counted up. -/
def bumping : List Direction :=
  [.make (.argument 0), .make (.literal (.int32 1)), .make (.binary (.arith .add) 0 1), .assign 0 2,
    .returnValue none]

def five : CapturedId := ⟨type, 0, .plain .int32⟩

/-- The captured value is passed by reference. -/
def direct : List Direction :=
  [.make (.captured five), .make (.call bump.hash none [0]), .statement 1, .returnValue (some 0)]

/-- A variable with the captured value is passed by reference. -/
def copied : List Direction :=
  [.declare (.plain .int32), .make (.captured five), .make (.call bump.hash none [0]), .assign 0 1,
    .statement 2, .returnValue (some 1)]

/-- The methods with one of the two ways to count up. -/
def scripts (reading : List Direction) : List (FunctionDecl × List Direction) :=
  [(bump, bumping), (read, reading)]

/-- The methods that the scripts make. -/
def methods (reading : List Direction) : List Method :=
  (scripts reading).map fun s => .scripted registry s.1 s.2

/-- The type with its methods and its captured value. -/
def built (reading : List Direction) : BuiltType :=
  ⟨type, "Counter", (methods reading).map fun m => (m.function.hash, m), [.int32 5]⟩

def machine (reading : List Direction) : Machine :=
  (Machine.start registry Machine.defaultMaxDepth).loadType (built reading)

theorem evaluation : Program.Scripted registry (scripts direct) .statements ∧
    Program.Scripted registry (scripts copied) .statements ∧
    (∀ m ∈ methods copied, .capturedAddress ∉ m.chunk.opcodes) ∧
    ((machine direct).invoke 30 read.hash []).map
      (fun outcome => (outcome.1, outcome.2.state.captured[type]?)) =
        some (.ok (.int32 6), some #[.int32 6]) ∧
    ((machine copied).invoke 30 read.hash []).map Prod.fst = some (.ok (.int32 5)) := by
  decide +kernel

theorem mem_methods {reading : List Direction} {h : TypeHash} {m : Method}
    (hm : (machine reading).program.methods[h]? = some m) : m ∈ methods reading := by
  unfold machine built Machine.loadType at hm
  simp only [methods, scripts, map_cons, map_nil, foldl_cons, foldl_nil,
    Std.TreeMap.getElem?_insert] at hm
  split at hm
  · exact .tail _ (Option.some.inj hm ▸ .head _)
  · split at hm
    · exact Option.some.inj hm ▸ .head _
    · cases hm

theorem keeps_state (reading : List Direction) :
    (machine reading).state.Keeps type (some #[.int32 5]) where
  heap o ho := absurd ho (Array.not_mem_empty o)
  statics h v hv := by cases hv
  others h vs hvs v hv := by
    unfold machine Machine.loadType at hvs
    simp only [Std.TreeMap.getElem?_insert] at hvs
    split at hvs <;> cases hvs
    rw [mem_singleton.mp (mem_toArray.mp hv)]
    exact .lit _
  captured := by
    exact Std.TreeMap.getElem?_insert_self

theorem reserves_copied : (machine copied).Reserves type where
  methods h m hm _ := by
    obtain ⟨-, hscripts, haddr, -⟩ := evaluation
    exact ⟨(hscripts.ofStatements (mem_methods hm)).2.finished, haddr m (mem_methods hm)⟩
  natives h native hnative := by cases hnative
  storage := by
    have hkeeps := keeps_state copied
    rwa [hkeeps.captured]
  idle := rfl

end Counter

namespace Machine

/-- A captured value that is passed by reference is changed by the method that gets it, although
methods are finished as they should be and nobody has made up an address. -/
theorem reference_parameter_changes_captured_value :
    (∀ (h : TypeHash) (method : Method),
      (Counter.machine Counter.direct).program.methods[h]? = some method → method.Finished) ∧
    (∀ h : TypeHash, (Counter.machine Counter.direct).program.natives[h]? = none) ∧
    (Counter.machine Counter.direct).state.Keeps Counter.type (some #[.int32 5]) ∧
    ∃ m', (Counter.machine Counter.direct).invoke 30 Counter.read.hash [] =
      some (.ok (.int32 6), m') ∧ m'.state.captured[Counter.type]? = some #[.int32 6] := by
  obtain ⟨hscripts, -, -, hresult, -⟩ := Counter.evaluation
  refine ⟨fun h method hmethod => ?_, fun h => rfl, Counter.keeps_state _, ?_⟩
  · exact (hscripts.ofStatements (Counter.mem_methods hmethod)).2.finished
  · obtain ⟨⟨result, m'⟩, hinvoke, heq⟩ := Option.map_eq_some_iff.mp hresult
    obtain ⟨rfl, hcaptured⟩ := Prod.mk.inj heq
    exact ⟨m', hinvoke, hcaptured⟩

/-- A captured value that is copied before stays what it is. -/
theorem copied_captured_value_stays :
    ∃ m', (Counter.machine Counter.copied).invoke 30 Counter.read.hash [] =
      some (.ok (.int32 5), m') ∧ m'.Reserves Counter.type ∧
        m'.state.captured[Counter.type]? = some #[.int32 5] := by
  obtain ⟨-, -, -, -, hresult⟩ := Counter.evaluation
  obtain ⟨⟨result, m'⟩, hinvoke, rfl⟩ := Option.map_eq_some_iff.mp hresult
  obtain ⟨hruns, -⟩ := captured_values_stay (Counter.machine Counter.copied)
    (Counter.built Counter.copied) Counter.reserves_copied (Counter.keeps_state _).captured
    Counter.read.hash [] (by simp)
  obtain ⟨hm', hcaptured, -⟩ := hruns 30 _ m' hinvoke
  exact ⟨m', hinvoke, hm', hcaptured⟩

end Machine

end StackCode
