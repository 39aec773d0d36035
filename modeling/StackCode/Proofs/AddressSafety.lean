import StackCode.Proofs.AddressSteps

/-!
# Addresses and the frames they lead to

A frame holds addresses of its own slots and of slots of frames further out, never of frames further
in. Objects, static fields and results hold no addresses of slots at all. So an address never
outlives the frame that it leads to, and no call ends with a place that is not there.
-/

namespace StackCode

open List

/-- The frame whose slot a root is. -/
def Root.frame? : Root → Option Nat
  | .localSlot k _ | .argument k _ => some k
  | .static _ | .heap _ | .captured _ _ => none

/-- A root that is no slot of a frame. -/
def Root.Lasting (root : Root) : Prop := root.frame? = none

/-- A root that is at most a slot of a frame with a number, or of a frame further out. -/
def Root.Upto (k : Nat) (root : Root) : Prop := ∀ n, root.frame? = some n → n ≤ k

/-- Addresses lead outwards: a frame holds addresses of slots of its own and of frames further out,
and objects, static fields and values that are about to be returned hold none. -/
structure State.Rooted (s : State) : Prop where
  operands : ∀ k f, s.frame? k = some f → ∀ v ∈ f.stack, v.Within (Root.Upto k)
  locals : ∀ k f, s.frame? k = some f → ∀ v ∈ f.locals, v.Within (Root.Upto k)
  args : ∀ k f, s.frame? k = some f → ∀ v ∈ f.args, v.Within (Root.Upto k)
  objects : ∀ o ∈ s.heap.objects, o.value.Within Root.Lasting
  statics : ∀ (h : TypeHash) v, s.statics[h]? = some v → v.Within Root.Lasting
  returned : ∀ f rest i v vs, s.frames = f :: rest → f.method.fetch? f.offset = some i →
    i.op = .ret →
    f.stack = v :: vs → v.Within Root.Lasting

theorem Value.Within.mono {P Q : Root → Prop} (hPQ : ∀ root, P root → Q root) {v : Value}
    (h : v.Within P) : v.Within Q := by
  induction h with
  | void => exact .void
  | lit l => exact .lit l
  | ref id => exact .ref id
  | address h => exact .address (hPQ _ h)
  | aggregate _ ih => exact .aggregate ih

/-- Values hold addresses of objects at most, and places have to be there. -/
def Regime.cells : Regime where
  free root := ∃ id, root = .heap id
  strict := True
  heap _ _ h := h

/-- Values hold no addresses of slots. Places need not be there. -/
def Regime.lasting : Regime where
  free := Root.Lasting
  strict := False
  heap h := h.elim

/-! ### Values -/

namespace Regime

variable {r : Registry} {W : World} {k : Kind} {v : Value} {n : Nat}

theorem Plain.lasting (h : cells.Plain v) : v.Within Root.Lasting := by
  refine h.within.mono fun root hroot => ?_
  obtain ⟨id, rfl⟩ := hroot
  rfl

theorem Plain.upto (h : cells.Plain v) (n : Nat) : v.Within (Root.Upto n) := by
  refine h.lasting.mono fun root hroot m hm => ?_
  rw [hroot] at hm
  cases hm

/-- A root whose place is there belongs to one of the frames that are known. -/
theorem Stands.upto {root : Root} (h : cells.Stands r W root) (hW : W.methods.length ≤ n + 1) :
    root.Upto n := by
  have h := h trivial
  intro m hm
  cases root with
  | localSlot k slot | argument k slot =>
    obtain ⟨method, hmeth, -⟩ := h
    have hlt := (List.getElem?_eq_some_iff.mp hmeth).1
    cases hm
    omega
  | static | heap | captured => cases hm

/-- What a frame holds leads to the frames that it knows. -/
theorem Means.upto (h : cells.Means r W k v) (hW : W.methods.length ≤ n + 1) :
    v.Within (Root.Upto n) := by
  cases k with
  | clean => exact Plain.upto h n
  | loose =>
    rcases h with rfl | h | ⟨a, rfl, ha⟩
    · exact .void
    · exact h.upto n
    · exact .address (ha.upto hW)

end Regime

/-! ### Frames -/

theorem State.exists_suffix {s : State} {k : Nat} {f : Frame} (h : s.frame? k = some f) :
    ∃ rest, rest.length = k ∧ f :: rest <:+ s.frames := by
  have hk := lt_of_frame? h
  unfold frame? at h
  rw [if_pos hk] at h
  obtain ⟨hlt, hf⟩ := List.getElem?_eq_some_iff.mp h
  have hdrop := drop_eq_getElem_cons hlt
  rw [hf] at hdrop
  refine ⟨s.frames.drop (s.depth - 1 - k + 1), ?_, hdrop ▸ drop_suffix _ _⟩
  rw [length_drop, ← State.depth]
  omega

theorem exists_of_forall₂ {κ : Type} {R : κ → Value → Prop} {ks : List κ} {vs : List Value}
    (h : Forall₂ R ks vs) : ∀ v ∈ vs, ∃ k, R k v := by
  induction h with
  | nil => simp
  | cons h _ ih => exact forall_mem_cons.mpr ⟨⟨_, h⟩, ih⟩

/-- The operands of every frame are what they should be, in the world that the frame knows. -/
theorem Meaning.Stacked.operands {κ : Type} {S : Meaning κ} {p : Program} {bottom : Method}
    {H : Holdings}
    {ks : List κ} {σ : List Outline} (h : S.Stacked p bottom H ks σ) {o : Outline}
    {rest : List Outline}
    (hsuffix : o :: rest <:+ σ) : ∀ v ∈ o.stack, ∃ k, S.Means (worldOf H (o :: rest)) k v := by
  -- either it is the innermost frame, or it is among the frames below
  induction h with
  | host _ _ hstack =>
    rcases suffix_cons_iff.mp hsuffix with heq | hsuffix
    · cases heq
      exact exists_of_forall₂ hstack
    · cases suffix_nil.mp hsuffix
  | resting hground => cases hground
  | called _ _ hstack _ _ ih =>
    rcases suffix_cons_iff.mp hsuffix with heq | hsuffix
    · cases heq
      exact exists_of_forall₂ hstack
    · exact ih hsuffix

/-- In states that keep to the meaning of kinds, addresses lead outwards. -/
theorem Regime.rooted {p : Program} {bottom : Method} {s : State}
    (hs : (cells.meaning p.registry).Expects p bottom [] s) : s.Rooted := by
  have hkept := hs.stores.kept
  have hlen (k : Nat) : (s.framing.upto k).methods.length ≤ k + 1 := length_take_le _ _
  refine ⟨fun k f hf v hv => ?_, fun k f hf v hv => ?_, fun k f hf v hv => ?_, fun o ho => ?_,
    fun h v hv => ?_, fun f rest i v vs hframes hi hop hstack => ?_⟩
  · obtain ⟨rest, hrest, hsuffix⟩ := State.exists_suffix hf
    have hsuffix : f.outline :: rest.map Frame.outline <:+ s.outlines := hsuffix.map Frame.outline
    obtain ⟨l, hmeans⟩ := hs.stacked.operands hsuffix v hv
    refine Means.upto hmeans ?_
    simp [Meaning.worldOf, hrest]
  · obtain ⟨n, hn⟩ := Array.getElem?_of_mem hv
    obtain ⟨m, -, hmeans⟩ := hs.stores.cells (.localSlot k n) v (by simp [State.cell?, hf, hn])
    exact Means.upto hmeans (hlen k)
  · obtain ⟨n, hn⟩ := Array.getElem?_of_mem hv
    obtain ⟨m, -, hmeans⟩ := hs.stores.cells (.argument k n) v (by simp [State.cell?, hf, hn])
    exact Means.upto hmeans (hlen k)
  · obtain ⟨n, hn⟩ := Array.getElem?_of_mem ho
    exact Plain.lasting (hkept.object ⟨n⟩ o hn)
  · exact Plain.lasting (hkept.static h v hv)
  · obtain ⟨w, ws, hstack', hplain⟩ := exists_returned hs hframes hi hop
    cases hstack.symm.trans hstack'
    exact hplain.lasting

namespace Machine

/-- Addresses never dangle. Let methods consist of statements and name no captured values, let
native functions and the host bring in addresses of objects at most, and let native functions not
put other addresses on the heap. Then in every state of a call addresses lead outwards; the call
does not return an address of a slot, does not end with a place that is not there, and leaves the
machine as it has to be for the next call. -/
theorem addresses_never_dangle (m : Machine) (hm : m.Heeds .cells) (function : TypeHash)
    (args : List Value) (hnative : m.program.natives[function]? = none)
    (hargs : Regime.cells.Admits m.program function args) :
    (∀ s s', (Exec.enter function args .host).exec m.program m.state = (.ok (), s) →
      Exec.Reaches m.program s s' → s'.Rooted) ∧
    ∀ fuel result m', m.invoke fuel function args = some (result, m') →
      m'.Heeds .cells ∧ (∀ v, result = .ok v → v.Within Root.Lasting) ∧
        ∀ e, result = .error e → e.kind ≠ "InvalidAddress" := by
  refine ⟨fun s s' henter hreaches => ?_, fun fuel result m' h => ?_⟩
  · obtain ⟨bottom, -, hs⟩ := hm.expects hargs henter
    exact Regime.rooted (hm.program.governs.reaches hs hreaches)
  · obtain ⟨hm', hresult, herror⟩ := hm.invoke hargs hnative h
    refine ⟨hm', fun v hv => ?_, fun e he => ?_⟩
    · obtain ⟨method, -, hreturned⟩ := hresult v hv
      unfold Regime.Returned at hreturned
      split at hreturned
      · rw [hreturned]
        exact .void
      · exact hreturned.lasting
    · rw [ne_eq, ← e.misses_iff]
      exact herror e he trivial

end Machine

/-! ### Addresses that are brought in from outside -/

namespace Leaking

/-- A reference type with a static field that keeps an instance. -/
def node : TypeDecl :=
  ((TypeDecl.named "Node" .reference).withField "x" (.plain .int32) false).withField "last"
    (.plain (.ofName "Node")) true

/-- A function that returns what it is given. -/
def same : FunctionDecl := .free "same" [⟨"n", .plain node.hash, .byValue⟩] (.plain node.hash)

/-- A function that keeps what it is given. -/
def keep : FunctionDecl := .free "keep" [⟨"n", .plain node.hash, .byValue⟩] (.plain .int32)

/-- A function that is given a reference and a number. -/
def both : FunctionDecl :=
  .free "both" [⟨"n", .plain node.hash, .inOut⟩, ⟨"k", .plain .int32, .byValue⟩] .void

/-- A function with a variable whose address is on the stack while other calls are made. -/
def leak : FunctionDecl := .free "leak" [⟨"n", .plain node.hash, .byValue⟩] .void

/-- A function that looks at what is kept. -/
def look : FunctionDecl := .free "look" [] (.plain .int32)

def registry : Registry :=
  Request.registry [.primitives, .type node, .function same, .function keep,
  .function both, .function leak, .function look]

def scripts : List (FunctionDecl × List Direction) :=
  [(same, [.make (.argument 0), .returnValue (some 0)]),
   (keep, [.make (.staticField node.hash "last"), .make (.argument 0), .assign 0 1,
     .make (.literal (.int32 0)), .returnValue (some 2)]),
   (both, [.returnValue none]),
   (leak, [.declare (.plain node.hash), .make (.argument 0), .make (.call same.hash none [1]),
     .make (.call keep.hash none [2]), .make (.call both.hash none [0, 3]), .statement 4,
     .returnValue none]),
   (look, [.make (.staticField node.hash "last"), .make (.field 0 "x"), .returnValue (some 1)])]

/-- The machine of these functions. -/
def machine : Machine := ⟨.ofScripts registry scripts, .initial⟩

theorem evaluation : registry.VoidFree ∧ Program.Scripted registry scripts .statements ∧
    (∀ s ∈ scripts, ∀ op ∈ (Method.scripted registry s.1 s.2).chunk.opcodes, op.isCapture = false) ∧
    (machine.invoke 20 leak.hash [.lit .null]).map Prod.fst = some (.ok .void) ∧
    ((machine.invoke 20 leak.hash [.void]).bind fun x => x.2.invoke 20 look.hash []).map Prod.fst =
      some (.error (.invalidAddress (.localSlot 0 0))) := by
  decide +kernel

theorem heeds_machine : machine.Heeds .cells where
  program := by
    obtain ⟨hvoid, hscripts, hcaptures, -⟩ := evaluation
    refine Program.heeds_ofMethods (Registry.registered_of_requests _) hvoid
      (fun m hm => hscripts.ofStatements hm) (fun _ m hm => ?_) (.inl fun id => ⟨id, rfl⟩)
    obtain ⟨s, hs, rfl⟩ := mem_map.mp hm
    exact hcaptures s hs
  kept := Meaning.kept_initial _
  idle := rfl

end Leaking

namespace Wrapping

/-- A reference type whose instances hold an address. -/
def box : TypeDecl :=
  (TypeDecl.named "Box" .reference).withField "p" (DataType.plain .int32).makeByRef false

/-- A native function that makes a box. -/
def make : FunctionDecl := .free "make" [⟨"x", .plain .int32, .inOut⟩] (.plain box.hash)

/-- A function that makes a box for a variable of its own. -/
def wrap : FunctionDecl := .free "wrap" [] (.plain box.hash)

/-- A function that looks at what is in the box. -/
def look : FunctionDecl := .free "look" [] (.plain .int32)

def registry : Registry :=
  Request.registry [.primitives, .type box, .function make, .function wrap, .function look]

def scripts : List (FunctionDecl × List Direction) :=
  [(wrap, [.declare (.plain .int32), .make (.call make.hash none [0]), .returnValue (some 1)]),
   (look, [.make (.call wrap.hash none []), .make (.field 0 "p"), .returnValue (some 1)])]

/-- The machine of these functions with a native one that allocates the box. -/
def machine : Machine :=
  (⟨.ofScripts registry scripts, .initial⟩ : Machine).registerNative make.hash (.alloc box.hash)

theorem evaluation : registry.VoidFree ∧ Program.Scripted registry scripts .statements ∧
    (machine.invoke 20 look.hash []).map Prod.fst =
      some (.error (.invalidAddress (.localSlot 1 0))) := by
  decide +kernel

end Wrapping

namespace Machine

/-- While the address of a variable is on the stack, other functions are called. -/
theorem leak_of_null_is_safe :
    (∀ s s', (Exec.enter Leaking.leak.hash [.lit .null] .host).exec Leaking.machine.program
      Leaking.machine.state = (.ok (), s) → Exec.Reaches Leaking.machine.program s s' → s'.Rooted) ∧
    ∃ m', Leaking.machine.invoke 20 Leaking.leak.hash [.lit .null] = some (.ok .void, m') ∧
      m'.Heeds .cells := by
  obtain ⟨-, -, -, hleak, -⟩ := Leaking.evaluation
  obtain ⟨⟨result, m'⟩, hinvoke, rfl⟩ := Option.map_eq_some_iff.mp hleak
  have hargs : Regime.cells.Admits Leaking.machine.program Leaking.leak.hash [.lit .null] := by
    intro m _ n v hv
    rw [List.mem_singleton.mp (List.mem_of_getElem? hv)]
    exact Regime.means_of_plain (.lit _) _
  obtain ⟨hrooted, hends⟩ := addresses_never_dangle Leaking.machine Leaking.heeds_machine
    Leaking.leak.hash [.lit .null] (Program.natives_ofMethods _ _ _) hargs
  exact ⟨hrooted, m', hinvoke, (hends 20 _ m' hinvoke).1⟩

/-- Two ways to an address that has outlived its frame. If the host passes `void`, a call pushes
nothing, and the next one takes the address below for its argument and keeps it. A native function
whose results are nothing but references may still put the address that it is given into an
object. -/
theorem stale_addresses_are_met :
    (Leaking.machine.Heeds .cells ∧ ∃ e m' m'',
      Leaking.machine.invoke 20 Leaking.leak.hash [.void] = some (e, m') ∧
        m'.invoke 20 Leaking.look.hash [] = some (.error (.invalidAddress (.localSlot 0 0)), m'')) ∧
    Program.Scripted Wrapping.registry Wrapping.scripts .statements ∧
    (∀ heap args v, (Native.alloc Wrapping.box.hash heap args).1 = .ok v → Regime.cells.Plain v) ∧
    ∃ m', Wrapping.machine.invoke 20 Wrapping.look.hash [] =
      some (.error (.invalidAddress (.localSlot 1 0)), m') := by
  obtain ⟨-, -, -, -, hlook⟩ := Leaking.evaluation
  obtain ⟨-, hscripts, hlook'⟩ := Wrapping.evaluation
  obtain ⟨⟨result, m''⟩, hinvoke, rfl⟩ := Option.map_eq_some_iff.mp hlook
  obtain ⟨⟨e, m'⟩, hleak, hinvoke⟩ := Option.bind_eq_some_iff.mp hinvoke
  obtain ⟨⟨result, m⟩, hinvoke', rfl⟩ := Option.map_eq_some_iff.mp hlook'
  refine ⟨⟨Leaking.heeds_machine, e, m', m'', hleak, hinvoke⟩, hscripts, fun heap args v hv => ?_,
    m, hinvoke'⟩
  cases hv
  exact .ref _

end Machine

end StackCode
