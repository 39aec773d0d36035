import StackCode.Proofs.Yields
import StackCode.Proofs.Passage
import StackCode.Proofs.Boundaries
import StackCode.Proofs.Typing

/-!
# Runs that keep to the meaning of operands

Rules say what commands take from the stack and leave there. If each entry of the stack means
something about the operand that stands there, and each slot and cell holds what it should, a run
can keep this. Here it is said which states these are and how they change.
-/

namespace StackCode

open List Option State

variable {σ : List Outline} {vs : List Value} {W' : World} {f : Frame} {rest : List Frame}
  {g : Frame → Frame} {r : Registry}

/-! ### Worlds -/

/-- What the objects of a state are, and which methods its frames run, the outermost first. -/
structure World where
  holdings : Holdings
  methods : List Method

namespace World

/-- The same world later on, perhaps with more frames. -/
structure Below (W W' : World) : Prop where
  holdings : W.holdings.Grows W'.holdings
  methods : W.methods <+: W'.methods

variable {W W'' : World} {k : Nat}

theorem Below.refl (W : World) : W.Below W := ⟨.refl _, prefix_refl _⟩

theorem Below.trans (h : W.Below W') (h' : W'.Below W'') : W.Below W'' :=
  ⟨h.holdings.trans h'.holdings, IsPrefix.trans h.methods h'.methods⟩

/-- The world of the frame with a number. -/
def upto (W : World) (k : Nat) : World := { W with methods := W.methods.take (k + 1) }

theorem Below.method (h : W.Below W') {m : Method} (hm : W.methods[k]? = some m) :
    W'.methods[k]? = some m := by
  obtain ⟨more, hmore⟩ := h.methods
  rwa [← hmore, List.getElem?_append_left (List.getElem?_eq_some_iff.mp hm).1]

theorem Below.upto (h : W.Below W') (hk : k < W.methods.length) : (W.upto k).Below (W'.upto k) := by
  obtain ⟨more, hmore⟩ := h.methods
  refine ⟨h.holdings, ?_⟩
  show W.methods.take (k + 1) <+: W'.methods.take (k + 1)
  rw [← hmore, take_append_of_le_length hk]

end World

namespace State

variable {s : State}

/-- The methods of the frames, the outermost first. -/
def methods (s : State) : List Method := (s.frames.map Frame.method).reverse

/-- The world of a state, where it is said what the objects of a heap are. -/
def world (k : Heap → Holdings) (s : State) : World := ⟨k s.heap, s.methods⟩

theorem length_methods (s : State) : s.methods.length = s.depth := by simp [methods, depth]

theorem methods_getElem? (s : State) (k : Nat) : s.methods[k]? = (s.frame? k).map Frame.method := by
  unfold methods frame? depth
  split
  · rename_i hk
    rw [getElem?_reverse (by simpa using hk), getElem?_map, length_map]
  · rename_i hk
    rw [getElem?_eq_none (by simpa using hk), map_none]

theorem methods_cons (hf : s.frames = f :: rest) :
    s.methods = ({ s with frames := rest } : State).methods ++ [f.method] := by
  simp [methods, hf]

theorem methods_eq_outlines (s : State) : s.methods = (s.outlines.map Outline.method).reverse := by
  simp [methods, outlines, Frame.outline, Function.comp_def]

theorem outlines_moved (hf : s.frames = f :: rest) (vs : List Value) (n : Nat) :
    (s.moved vs n).outlines = ⟨f.method, vs, n, f.resume⟩ :: rest.map Frame.outline := by
  rw [outlines, s.frames_moved hf]
  rfl

theorem outlines_pushed (hf : s.frames = f :: rest) (vs : List Value) :
    (s.pushed vs).outlines = ⟨f.method, vs ++ f.stack, f.offset, f.resume⟩ ::
      rest.map Frame.outline := by
  rw [outlines, s.pushed_eq hf]
  rfl

theorem world_modifyTop (k : Heap → Holdings) (hg : ∀ f, (g f).method = f.method) :
    (s.modifyTop g).world k = s.world k := by
  obtain ⟨frames, heap, statics, captured⟩ := s
  cases frames with
  | nil => rfl
  | cons f rest => simp [world, methods, modifyTop, hg]

theorem world_moved (k : Heap → Holdings) (vs : List Value) (n : Nat) :
    (s.moved vs n).world k = s.world k :=
  world_modifyTop k fun _ => rfl

end State

/-! ### Meanings -/

/-- The frame has as many slots as its method declares. -/
structure Frame.Formed (f : Frame) : Prop where
  locals : f.locals.size = f.method.locals.size
  args : f.args.size = f.method.function.stackArity

/-- What the entries of operand stacks, slots and cells say of values, and which faults may
occur. -/
structure Meaning (κ : Type) where
  /-- What is known of objects. -/
  holdings : Heap → Holdings
  rules : Method → StackRules κ
  /-- What an entry says of an operand. -/
  Means : World → κ → Value → Prop
  localEntry : Method → Nat → κ
  argumentEntry : Method → Nat → κ
  /-- What static fields, objects and captured values may hold. -/
  Keeps : Holdings → Cell → Value → Prop
  results : FunctionDecl → List κ
  /-- What a call of a function may return. -/
  Returned : Holdings → FunctionDecl → Value → Prop
  Harmless : Fault → Prop
  means_le : ∀ {m W a b v}, (rules m).le a b → Means W a v → Means W b v
  means_below : ∀ {W W' a v}, W.Below W' → Means W a v → Means W' a v
  keeps_grows : ∀ {H H' c v}, H.Grows H' → Keeps H c v → Keeps H' c v
  given : ∀ {W f v}, Returned W.holdings f v →
    List.Forall₂ (Means W) (results f) (if v.isVoid then [] else [v])

/-- What frames stand on: the host has called a method, or a frame rests above others and waits for
entries on top of its operands. -/
inductive Ground (κ : Type)
  | host (method : Method)
  | resting (frame : Outline) (below : List Outline) (entries : List κ)

instance {κ : Type} : Coe Method (Ground κ) := ⟨.host⟩

/-- The number of frames that do not run. -/
def Ground.depth {κ : Type} : Ground κ → Nat
  | .host _ => 0
  | .resting _ below _ => below.length + 1

namespace Meaning

variable {κ : Type} (S : Meaning κ)

/-- The value may stand in the cell. -/
def Holds (W : World) (v : Value) : Cell → Prop
  | .localSlot k n => ∃ m, W.methods[k]? = some m ∧ S.Means (W.upto k) (S.localEntry m n) v
  | .argument k n => ∃ m, W.methods[k]? = some m ∧ S.Means (W.upto k) (S.argumentEntry m n) v
  | c => S.Keeps W.holdings c v

/-- Cells outside of frames hold what they may hold. -/
structure Kept (s : State) : Prop where
  static : ∀ (h : TypeHash) v, s.statics[h]? = some v → S.Keeps (S.holdings s.heap) (.static h) v
  object : ∀ (id : ObjectId) o, s.heap.objects[id.number]? = some o →
    S.Keeps (S.holdings s.heap) (.object id) o.value
  captured : ∀ (h : TypeHash) (vs : Array Value) (n : Nat) v, s.captured[h]? = some vs →
    vs[n]? = some v → S.Keeps (S.holdings s.heap) (.captured h n) v

/-- Cells hold what they may hold, and frames have the slots of their methods. -/
structure Stores (s : State) : Prop where
  formed : ∀ f ∈ s.frames, f.Formed
  cells : ∀ c v, s.cell? c = some v → S.Holds (s.world S.holdings) v c

/-- What a caller gets from a call of a function. -/
def Gives (W : World) (f : FunctionDecl) (ks : List κ) : Resume → Prop
  | .host => False
  | .caller => ∀ W' v, W.Below W' → S.Returned W'.holdings f v →
      List.Forall₂ (S.Means W') ks (if v.isVoid then [] else [v])
  | .built v => List.Forall₂ (S.Means W) ks [v]
  | .cell id =>
    ∀ W' v, W.Below W' → S.Keeps W'.holdings (.object id) v → List.Forall₂ (S.Means W') ks [v]

/-- The world of frames over objects. -/
def worldOf (H : Holdings) (σ : List Outline) : World := ⟨H, (σ.map Outline.method).reverse⟩

/-- Frames one above the other, where the innermost will get certain operands. Every other frame
waits for what the frame above it gives. -/
inductive Stacked (p : Program) (ground : Ground κ) (H : Holdings) : List κ → List Outline → Prop
  | host {o ks ls} (hmethod : ∃ h : TypeHash, p.methods[h]? = some o.method)
      (hpoint : (S.rules o.method).Point o.method o.offset (ks ++ ls))
      (hstack : List.Forall₂ (S.Means (worldOf H [o])) ls o.stack) (hresume : o.resume = .host)
      (hground : ground = .host o.method) : Stacked p ground H ks [o]
  | resting {o o' below entries ks ls ws} (hground : ground = .resting o below entries)
      (hentries : ks ++ ls = entries) (hframe : o' = { o with stack := ws ++ o.stack })
      (hstack : List.Forall₂ (S.Means (worldOf H (o' :: below))) ls ws) :
      Stacked p ground H ks (o' :: below)
  | called {o ks ls gives rest} (hmethod : ∃ h : TypeHash, p.methods[h]? = some o.method)
      (hpoint : (S.rules o.method).Point o.method o.offset (ks ++ ls))
      (hstack : List.Forall₂ (S.Means (worldOf H (o :: rest))) ls o.stack)
      (hresume : S.Gives (worldOf H rest) o.method.function gives o.resume)
      (hrest : Stacked p ground H gives rest) : Stacked p ground H ks (o :: rest)

/-- States that keep to a meaning, where the innermost frame will get certain operands. -/
structure Expects (p : Program) (ground : Ground κ) (ks : List κ) (s : State) : Prop where
  stores : S.Stores s
  stacked : S.Stacked p ground (S.holdings s.heap) ks s.outlines

/-- What a step leads to: a state in order, or the end of the call. -/
def Stepped (p : Program) (ground : Ground κ) : Progress → State → Prop
  | .running, t => S.Expects p ground [] t
  | .done v, t => ∃ m, ground = .host m ∧ S.Returned (S.holdings t.heap) m.function v ∧ S.Kept t

/-- What is known after a fault. -/
def Fails (e : Fault) (t : State) : Prop := S.Harmless e ∧ S.Kept t

variable {S} {p : Program} {ground : Ground κ} {s t : State} {ks : List κ} {H H' : Holdings}
  {W : World}
  {v : Value} {c : Cell}

theorem fails_of_sameStorage {e : Fault} {u u' : State} (h : State.SameStorage u u')
    (hu : S.Fails e u') : S.Fails e u := by
  obtain ⟨he, hstat, hobj, hcapt⟩ := hu
  obtain ⟨frames, heap, statics, captured⟩ := u
  obtain ⟨frames', heap', statics', captured'⟩ := u'
  obtain ⟨hheap, hstatics, hcaptures, -, -⟩ := h
  cases hheap
  cases hstatics
  cases hcaptures
  exact ⟨he, hstat, hobj, hcapt⟩

/-! ### Cells -/

theorem Holds.mono (hW : W.Below W') (h : S.Holds W v c) : S.Holds W' v c := by
  cases c with
  | localSlot k n | argument k n =>
    obtain ⟨m, hm, hv⟩ := h
    exact ⟨m, hW.method hm, S.means_below (hW.upto (List.getElem?_eq_some_iff.mp hm).1) hv⟩
  | static | object | captured => exact S.keeps_grows hW.holdings h

theorem Stores.kept (h : S.Stores s) : S.Kept s where
  static hash v hv := h.cells (.static hash) v hv
  object id o ho := h.cells (.object id) o.value (map_eq_some_iff.mpr ⟨o, ho, rfl⟩)
  captured hash vs n v hvs hv := h.cells (.captured hash n) v (bind_eq_some_iff.mpr ⟨vs, hvs, hv⟩)

theorem kept_initial (S : Meaning κ) : S.Kept .initial where
  static h v hv := by simp [State.initial] at hv
  object id o ho := by simp [State.initial, Heap.empty] at ho
  captured h vs n v hvs := by simp [State.initial] at hvs

section

variable (h : S.Stores s)
include h

theorem Stores.root {root : Root} (hv : s.root r root = .ok v) :
    S.Holds (s.world S.holdings) v root.cell :=
  h.cells _ _ (cell?_of_root hv)

theorem Stores.modifyTop (hmeth : ∀ f, (g f).method = f.method) (hargs : ∀ f, (g f).args = f.args)
    (hlocs : ∀ f, (g f).locals = f.locals) :
    S.Stores (s.modifyTop g) := by
  refine ⟨fun f hf => ?_, fun c v hv => ?_⟩
  · obtain ⟨frames, heap, statics, captured⟩ := s
    cases frames with
    | nil => cases hf
    | cons f' rest =>
      rcases mem_cons.mp hf with rfl | hf
      · have hformed := h.formed f' (by simp)
        constructor
        · rw [hlocs, hmeth]
          exact hformed.locals
        · rw [hargs, hmeth]
          exact hformed.args
      · exact h.formed f (by simp [hf])
  · rw [cell?_modifyTop hargs hlocs] at hv
    rw [world_modifyTop _ hmeth]
    exact h.cells c v hv

theorem Stores.moved (vs : List Value) (n : Nat) : S.Stores (s.moved vs n) :=
  h.modifyTop (fun _ => rfl) (fun _ => rfl) fun _ => rfl

theorem Stores.pushed (vs : List Value) : S.Stores (s.pushed vs) :=
  h.modifyTop (fun _ => rfl) (fun _ => rfl) fun _ => rfl

theorem Stores.withStorage (hframes : t.frames = s.frames)
    (hgrows : (S.holdings s.heap).Grows (S.holdings t.heap)) (hkept : S.Kept t) :
    S.Stores t := by
  have hbelow : (s.world S.holdings).Below (t.world S.holdings) := by
    refine ⟨hgrows, ?_⟩
    rw [State.world, State.world, State.methods, State.methods, hframes]
  have hframe : ∀ k, t.frame? k = s.frame? k := by
    intro k
    rw [State.frame?, State.frame?, State.depth, State.depth, hframes]
  refine ⟨fun f hf => h.formed f (hframes ▸ hf), fun c v hv => ?_⟩
  cases c with
  | localSlot k n | argument k n =>
    rw [State.cell?, hframe] at hv
    exact Holds.mono hbelow (h.cells _ v hv)
  | static hash => exact hkept.static hash v hv
  | object id =>
    obtain ⟨o, ho, rfl⟩ := map_eq_some_iff.mp hv
    exact hkept.object id o ho
  | captured hash n =>
    obtain ⟨vs, hvs, hv⟩ := bind_eq_some_iff.mp hv
    exact hkept.captured hash vs n v hvs hv

/-- An untouched static field gets its default. -/
theorem Stores.materialize (root : Root) (hdef : ∀ hash f, r.fieldByHash? hash = some f →
      S.Keeps (S.holdings s.heap) (.static hash) (r.defaultValue f.type.hash)) :
    S.Stores (s.materialize r root) := by
  have hframes := materialize_frames (r := r) (s := s) root
  have hheap := s.heap_materialize r root
  refine ⟨fun f hf => h.formed f (hframes ▸ hf), fun c v hv => ?_⟩
  rw [State.world, hheap, State.methods, hframes]
  rcases cell?_materialize hv with hv | ⟨hash, f, rfl, hf, rfl⟩
  · exact h.cells c v hv
  · exact hdef hash f hf

theorem Stores.setRoot {root : Root}
    (hgrows : (S.holdings s.heap).Grows (S.holdings (s.setRoot v root).heap))
    (hv : S.Holds (s.world S.holdings) v root.cell) : S.Stores (s.setRoot v root) := by
  have hmeths : (s.setRoot v root).methods = s.methods := by
    refine ext_getElem? fun k => ?_
    rw [methods_getElem?, methods_getElem?]
    cases root with
    | localSlot frame slot | argument frame slot =>
      rw [State.setRoot, frame?_modifyFrame]
      split
      · rw [Option.map_map]
        rfl
      · rfl
    | static | heap | captured => rfl
  have hbelow : (s.world S.holdings).Below ((s.setRoot v root).world S.holdings) := by
    refine ⟨hgrows, ?_⟩
    rw [State.world, State.world, hmeths]
  refine ⟨fun f hf => ?_, fun c w hw => ?_⟩
  · have hmodified : ∀ k (g : Frame → Frame), (∀ f : Frame, f.Formed → (g f).Formed) →
        ∀ f ∈ (s.modifyFrame k g).frames, f.Formed := by
      intro k g hg f hf
      unfold State.modifyFrame at hf
      split at hf
      · obtain ⟨n, hn⟩ := getElem?_of_mem hf
        rw [getElem?_modify] at hn
        obtain ⟨f', hf', hfg⟩ := map_eq_some_iff.mp hn
        have hformed := h.formed f' (mem_of_getElem? hf')
        split at hfg
        · exact hfg ▸ hg f' hformed
        · exact hfg ▸ hformed
      · exact h.formed f hf
    cases root with
    | localSlot frame slot =>
      refine hmodified frame (fun f => { f with locals := f.locals.setIfInBounds slot.toNat v })
        (fun f hf => ⟨?_, hf.args⟩) f hf
      rw [Array.size_setIfInBounds]
      exact hf.locals
    | argument frame slot =>
      refine hmodified frame (fun f => { f with args := f.args.setIfInBounds slot.toNat v })
        (fun f hf => ⟨hf.locals, ?_⟩) f hf
      rw [Array.size_setIfInBounds]
      exact hf.args
    | static | heap | captured => exact h.formed f hf
  · rcases cell?_setRoot hw with ⟨rfl, rfl⟩ | hw
    · exact hv.mono hbelow
    · exact (h.cells c w hw).mono hbelow

theorem Stores.alloc {type : TypeHash}
    (hgrows : (S.holdings s.heap).Grows (S.holdings (s.heap.alloc type v).2))
    (hv : S.Keeps (S.holdings (s.heap.alloc type v).2) (.object (s.heap.alloc type v).1) v) :
    S.Stores { s with heap := (s.heap.alloc type v).2 } := by
  have hbelow : (s.world S.holdings).Below
      (({ s with heap := (s.heap.alloc type v).2 } : State).world S.holdings) :=
    ⟨hgrows, prefix_refl _⟩
  refine ⟨h.formed, fun c w hw => ?_⟩
  rcases cell?_alloc hw with ⟨rfl, rfl⟩ | hw
  · exact hv
  · exact (h.cells c w hw).mono hbelow

theorem Stores.tail (hf : s.frames = f :: rest) : S.Stores { s with frames := rest } := by
  have hmeths := methods_cons hf
  refine ⟨fun g hg => h.formed g (by simp [hf, hg]), fun c v hv => ?_⟩
  have hcell := h.cells c v (cell?_tail hf hv)
  -- a frame that stays knew nothing of the one that goes
  have hupto : ∀ k g, ({ s with frames := rest } : State).frame? k = some g →
      ∀ m, (s.world S.holdings).methods[k]? = some m →
        (({ s with frames := rest } : State).world S.holdings).methods[k]? = some m ∧
          (s.world S.holdings).upto k = (({ s with frames := rest } : State).world S.holdings).upto
            k := by
    intro k g hg m hm
    have hlt : k < ({ s with frames := rest } : State).methods.length := by
      rw [length_methods]
      exact lt_of_frame? hg
    have hm : s.methods[k]? = some m := hm
    rw [hmeths, getElem?_append_left hlt] at hm
    refine ⟨hm, ?_⟩
    show World.mk _ (s.methods.take (k + 1)) = _
    rw [hmeths, take_append_of_le_length hlt]
    rfl
  cases c with
  | localSlot k n | argument k n =>
    obtain ⟨g, hg, -⟩ := bind_eq_some_iff.mp hv
    obtain ⟨m, hm, hv⟩ := hcell
    obtain ⟨hm, heq⟩ := hupto k g hg m hm
    exact ⟨m, hm, heq ▸ hv⟩
  | static | object | captured => exact hcell

theorem Stores.cons (hformed : f.Formed) (hlocs : ∀ n v, f.locals[n]? = some v →
      S.Means (({ s with frames := f :: s.frames } : State).world S.holdings)
        (S.localEntry f.method n) v)
    (hargs : ∀ n v, f.args[n]? = some v → S.Means
      (({ s with frames := f :: s.frames } : State).world S.holdings)
        (S.argumentEntry f.method n) v) :
    S.Stores { s with frames := f :: s.frames } := by
  have hmeths : ({ s with frames := f :: s.frames } : State).methods = s.methods ++ [f.method] :=
    methods_cons rfl
  have hbelow : (s.world S.holdings).Below (({ s with frames := f :: s.frames } : State).world
    S.holdings) := by
    refine ⟨.refl _, ?_⟩
    rw [State.world, State.world, hmeths]
    exact prefix_append _ _
  have htop : (({ s with frames := f :: s.frames } : State).world S.holdings).methods[s.depth]? =
    some f.method ∧
      (({ s with frames := f :: s.frames } : State).world S.holdings).upto s.depth =
        ({ s with frames := f :: s.frames } : State).world S.holdings := by
    refine ⟨?_, ?_⟩
    · show ({ s with frames := f :: s.frames } : State).methods[s.depth]? = _
      rw [hmeths, ← s.length_methods, getElem?_concat_length]
    · show World.mk _ (({ s with frames := f :: s.frames } : State).methods.take (s.depth + 1)) = _
      rw [take_of_length_le (by rw [length_methods]; rfl)]
      rfl
  refine ⟨forall_mem_cons.mpr ⟨hformed, h.formed⟩, fun c v hv => ?_⟩
  rcases cell?_cons hv with ⟨n, rfl, hn⟩ | ⟨n, rfl, hn⟩ | hv
  · exact ⟨f.method, htop.1, htop.2.symm ▸ hlocs n v hn⟩
  · exact ⟨f.method, htop.1, htop.2.symm ▸ hargs n v hn⟩
  · exact (h.cells c v hv).mono hbelow

end

section Top

theorem methods_top (hf : s.frames = f :: rest) :
    (s.world S.holdings).methods[rest.length]? = some f.method := by
  show s.methods[rest.length]? = _
  have hlen : ({ s with frames := rest } : State).methods.length = rest.length := length_methods _
  rw [methods_cons hf, ← hlen, getElem?_concat_length]

/-- The innermost frame knows all that there is to know. -/
theorem holds_top (hf : s.frames = f :: rest) (n : Nat) :
    (S.Holds (s.world S.holdings) v (.localSlot rest.length n) ↔
      S.Means (s.world S.holdings) (S.localEntry f.method n) v) ∧
    (S.Holds (s.world S.holdings) v (.argument rest.length n) ↔
      S.Means (s.world S.holdings) (S.argumentEntry f.method n) v) := by
  have hmeth : (s.world S.holdings).methods[rest.length]? = some f.method := methods_top hf
  have hupto : (s.world S.holdings).upto rest.length = s.world S.holdings := by
    show World.mk _ (s.methods.take (rest.length + 1)) = World.mk _ s.methods
    rw [take_of_length_le (by rw [length_methods, State.depth, hf]; rfl)]
    rfl
  have hunfold : ∀ k : Method → κ, (∃ m, (s.world S.holdings).methods[rest.length]? = some m ∧
      S.Means ((s.world S.holdings).upto rest.length) (k m) v) ↔
        S.Means (s.world S.holdings) (k f.method) v := by
    intro k
    rw [hmeth, hupto]
    constructor
    · rintro ⟨m, hm, hv⟩
      cases hm
      exact hv
    · exact fun hv => ⟨f.method, rfl, hv⟩
  exact ⟨hunfold fun m => S.localEntry m n, hunfold fun m => S.argumentEntry m n⟩

end Top

/-! ### Frames -/

theorem Gives.mono (hW : W.Below W') {f : FunctionDecl} {resume : Resume}
    (h : S.Gives W f ks resume) : S.Gives W' f ks resume := by
  cases resume with
  | host => exact h
  | caller => exact fun W'' v hW' hv => h W'' v (hW.trans hW') hv
  | built v => exact h.imp fun _ _ hv => S.means_below hW hv
  | cell id => exact fun W'' v hW' hv => h W'' v (hW.trans hW') hv

/-- A caller may expect what the function declares. -/
theorem gives_results (S : Meaning κ) (W : World) (f : FunctionDecl) :
    S.Gives W f (S.results f) .caller :=
  fun _ _ _ hv => S.given hv

theorem worldOf_below (hgrows : H.Grows H') (σ : List Outline) :
    (worldOf H σ).Below (worldOf H' σ) :=
  ⟨hgrows, prefix_refl _⟩

theorem worldOf_outlines (S : Meaning κ) (s : State) :
    worldOf (S.holdings s.heap) s.outlines = s.world S.holdings := by
  rw [worldOf, State.world, s.methods_eq_outlines]

namespace Stacked

variable {o : Outline} {rest : List Outline}

theorem mono (hgrows : H.Grows H') (h : S.Stacked p ground H ks σ) :
    S.Stacked p ground H' ks σ := by
  induction h with
  | host hmeth hpoint hstack hresume hground =>
    exact .host hmeth hpoint (hstack.imp fun _ _ => S.means_below (worldOf_below hgrows _)) hresume
      hground
  | resting hground hents hframe hstack =>
    exact .resting hground hents hframe (hstack.imp fun _ _ =>
      S.means_below (worldOf_below hgrows _))
  | called hmeth hpoint hstack hresume _ ih =>
    exact .called hmeth hpoint (hstack.imp fun _ _ => S.means_below (worldOf_below hgrows _))
      (hresume.mono (worldOf_below hgrows _)) ih

theorem ne_nil (h : S.Stacked p ground H ks σ) : σ ≠ [] := by
  cases h <;> simp

/-- The innermost frame runs if it is not the one that rests. -/
theorem top (h : S.Stacked p ground H ks σ) (hruns : ground.depth < σ.length) :
    ∃ o rest ls, σ = o :: rest ∧ (∃ h : TypeHash, p.methods[h]? = some o.method) ∧
      (S.rules o.method).Point o.method o.offset (ks ++ ls) ∧
      Forall₂ (S.Means (worldOf H σ)) ls o.stack := by
  cases h with
  | host hmeth hpoint hstack => exact ⟨_, _, _, rfl, hmeth, hpoint, hstack⟩
  | resting hground =>
    subst hground
    exact absurd hruns (Nat.lt_irrefl _)
  | called hmeth hpoint hstack => exact ⟨_, _, _, rfl, hmeth, hpoint, hstack⟩

theorem move (h : S.Stacked p ground H ks (o :: rest)) (hruns : ground.depth < (o :: rest).length)
    (o' : Outline) (hmeth : o'.method = o.method) (hresume : o'.resume = o.resume) {ks' ls : List κ}
    (hpoint : (S.rules o.method).Point o.method o'.offset (ks' ++ ls))
    (hstack : Forall₂ (S.Means (worldOf H (o :: rest))) ls o'.stack) :
    S.Stacked p ground H ks' (o' :: rest) := by
  have hworld : worldOf H (o' :: rest) = worldOf H (o :: rest) := by simp [worldOf, hmeth]
  cases h with
  | host hprog _ _ hhost hground =>
    exact .host (by rwa [hmeth]) (by rwa [hmeth]) (by rwa [hworld]) (hresume.trans hhost)
      (by rwa [hmeth])
  | resting hground =>
    subst hground
    exact absurd hruns (Nat.lt_irrefl _)
  | called hprog _ _ hgives hrest =>
    refine .called (by rwa [hmeth]) (by rwa [hmeth]) (by rwa [hworld]) ?_ hrest
    rwa [hresume, hmeth]

theorem push (h : S.Stacked p ground H ks (o :: rest))
    (hvs : Forall₂ (S.Means (worldOf H (o :: rest))) ks vs) :
    S.Stacked p ground H [] ({ o with stack := vs ++ o.stack } :: rest) := by
  cases h with
  | @host _ _ ls hmeth hpoint hstack hresume hground =>
    have hpoint : (S.rules o.method).Point o.method o.offset ([] ++ (ks ++ ls)) := hpoint
    exact .host hmeth hpoint (rel_append hvs hstack) hresume hground
  | @resting _ _ _ _ _ ls ws hground hents hframe hstack =>
    have hents : [] ++ (ks ++ ls) = _ := hents
    refine .resting hground hents ?_ (rel_append hvs hstack)
    rw [hframe, append_assoc]
  | @called _ _ ls _ _ hmeth hpoint hstack hresume hrest =>
    have hpoint : (S.rules o.method).Point o.method o.offset ([] ++ (ks ++ ls)) := hpoint
    exact .called hmeth hpoint (rel_append hvs hstack) hresume hrest

end Stacked

namespace Expects

/-- Above the host there is a frame that runs. -/
theorem runs {bottom : Method} (h : S.Expects p bottom ks s) :
    (bottom : Ground κ).depth < s.depth := by
  have hlen : s.outlines.length = s.depth := length_map _
  rw [← hlen]
  exact length_pos_iff.mpr h.stacked.ne_nil

section

variable (h : S.Expects p ground ks s)
include h

theorem exists_frame (hruns : ground.depth < s.depth) :
    ∃ f rest ls, s.frames = f :: rest ∧ (∃ h : TypeHash, p.methods[h]? = some f.method) ∧
      (S.rules f.method).Point f.method f.offset (ks ++ ls) ∧
      Forall₂ (S.Means (s.world S.holdings)) ls f.stack := by
  have hlen : s.outlines.length = s.depth := length_map _
  obtain ⟨o, rest, ls, hσ, hmeth, hpoint, hstack⟩ := h.stacked.top (hlen ▸ hruns)
  obtain ⟨f, fs, hframes, rfl, -⟩ := map_eq_cons_iff.mp hσ
  rw [worldOf_outlines] at hstack
  exact ⟨f, fs, ls, hframes, hmeth, hpoint, hstack⟩

theorem withCells (houtlines : t.outlines = s.outlines)
    (hgrows : (S.holdings s.heap).Grows (S.holdings t.heap)) (hstores : S.Stores t) :
    S.Expects p ground ks t :=
  ⟨hstores, houtlines ▸ h.stacked.mono hgrows⟩

theorem moved (hruns : ground.depth < s.depth) (hf : s.frames = f :: rest) {n : Nat}
    {ks' l : List κ}
    (hpoint : (S.rules f.method).Point f.method n (ks' ++ l))
    (hvs : Forall₂ (S.Means (s.world S.holdings)) l vs) :
    S.Expects p ground ks' (s.moved vs n) := by
  have hheap : (s.moved vs n).heap = s.heap := by rw [s.moved_eq hf]
  have houtlines : s.outlines = f.outline :: rest.map Frame.outline := by
    rw [State.outlines, hf, map_cons]
  have hlen : s.outlines.length = s.depth := length_map _
  refine ⟨h.stores.moved vs n, ?_⟩
  have hstacked := h.stacked
  have hworld := worldOf_outlines S s
  rw [houtlines] at hstacked hworld hlen
  rw [hheap, outlines_moved hf]
  exact hstacked.move (hlen ▸ hruns) ⟨f.method, vs, n, f.resume⟩ rfl rfl hpoint (hworld ▸ hvs)

theorem pushed (hvs : Forall₂ (S.Means (s.world S.holdings)) ks vs) :
    S.Expects p ground [] (s.pushed vs) := by
  obtain ⟨o, rest, hσ⟩ := exists_cons_of_ne_nil h.stacked.ne_nil
  obtain ⟨f, fs, hf, rfl, rfl⟩ := map_eq_cons_iff.mp hσ
  have hheap : (s.pushed vs).heap = s.heap := by rw [s.pushed_eq hf]
  have hstacked := h.stacked
  have hworld := worldOf_outlines S s
  rw [hσ] at hstacked hworld
  refine ⟨h.stores.pushed vs, ?_⟩
  rw [hheap, outlines_pushed hf]
  exact hstacked.push (hworld ▸ hvs)

theorem enter (hgives : S.Gives (s.world S.holdings) f.method.function ks
    f.resume) (hmeth : ∃ h : TypeHash, p.methods[h]? = some f.method)
    (hpoint : (S.rules f.method).Point f.method f.offset []) (hstack : f.stack = [])
    (hstores : S.Stores { s with frames := f :: s.frames }) :
    S.Expects p ground [] { s with frames := f :: s.frames } := by
  refine ⟨hstores, ?_⟩
  have hpoint : (S.rules f.outline.method).Point f.outline.method f.outline.offset ([] ++ []) :=
    hpoint
  refine .called hmeth hpoint ?_ ?_ h.stacked
  · show Forall₂ _ [] f.stack
    rw [hstack]
    exact .nil
  · show S.Gives (worldOf (S.holdings s.heap) s.outlines) _ _ _
    rwa [worldOf_outlines]

end

end Expects

end Meaning

end StackCode
