import StackCode.Proofs.Frames

/-!
# Runs under a meaning

What an instruction does is one of a few actions. It is said here what an action has to meet so that
a state that keeps to a meaning still does so afterwards. If the instructions of a program meet
this, whole runs keep to the meaning.
-/

namespace StackCode

open State

variable {place : Address} {function : TypeHash} {args : List Value} {s : State} {p : Program}
  {resume : Resume} {bottom : Method} {fuel : Nat} {result : Except Fault Value}

/-- The slots that an instruction names are there. -/
structure Method.HasSlots (m : Method) (i : Instr) : Prop where
  localSlot : ∀ wide a, i.op = .localSlot wide a → i.operand < m.locals.size
  argument : ∀ a, i.op = .argument a → i.operand < m.function.stackArity

theorem Method.HasSlots.of_listed {m : Method} {i : Instr}
    (h : ∃ code, m.WellFormed code ∧ i ∈ code) : m.HasSlots i := by
  obtain ⟨code, hcode, hi⟩ := h
  exact ⟨(hcode.refers i hi).localSlot, (hcode.refers i hi).argument⟩

namespace State

variable {r : Registry} {t : State}

theorem materialize_modifyTop (g : Frame → Frame) (root : Root) :
    (s.modifyTop g).materialize r root = (s.materialize r root).modifyTop g := by
  obtain ⟨frames, heap, statics, captured⟩ := s
  cases root with
  | static field =>
    cases frames <;> unfold modifyTop materialize <;> dsimp only <;> split <;> rfl
  | localSlot | argument | heap | captured => rfl

theorem world_materialize (k : Heap → Holdings) (root : Root) :
    (s.materialize r root).world k = s.world k := by
  rw [world, world, (settles_materialize root).objects, methods, methods, materialize_frames]

/-- What is put at a root decides on the heap, and nothing else does. -/
theorem heap_setRoot_congr (h : t.heap = s.heap) (v : Value) (root : Root) :
    (t.setRoot v root).heap = (s.setRoot v root).heap := by
  cases root with
  | localSlot frame slot | argument frame slot =>
    unfold setRoot modifyFrame
    dsimp only
    split <;> split <;> exact h
  | static | captured => exact h
  | heap id =>
    unfold setRoot
    rw [h]

/-- The state with a new object. -/
def allocated (s : State) (type : TypeHash) (v : Value) : State :=
  { s with heap := (s.heap.alloc type v).2 }

theorem heap_moved (s : State) (vs : List Value) (n : Nat) : (s.moved vs n).heap = s.heap := by
  unfold moved modifyTop
  split <;> rfl

theorem methods_moved (s : State) (vs : List Value) (n : Nat) :
    (s.moved vs n).methods = s.methods := by
  obtain ⟨frames, heap, statics, captured⟩ := s
  cases frames with
  | nil => rfl
  | cons f rest => simp [moved, modifyTop, methods]

end State

namespace Meaning

variable {κ : Type}

/-! ### Actions -/

section Obligations

variable (S : Meaning κ) (p : Program) (s : State)

/-- A root is there, or else the fault is harmless. -/
def Finds (root : Root) : Prop :=
  ∀ e, (s.materialize p.registry root).root p.registry root = .error e → S.Harmless e

/-- A value that replaces another at an address leaves the cell with what it may hold, and objects
with what they are. -/
def Replaces (place : Address) (new : Value) : Prop :=
  S.Finds p s place.root ∧ ∀ old v, S.Holds (s.world S.holdings) old place.root.cell →
    Value.replace new old place.path = .ok v → S.Holds (s.world S.holdings) v place.root.cell ∧
        (S.holdings s.heap).Grows (S.holdings (s.setRoot v place.root).heap)

/-- An object of the type may hold the value. -/
def Allocates (type : TypeHash) (v : Value) : Prop :=
  (S.holdings s.heap).Grows (S.holdings (s.heap.alloc type v).2) ∧
    S.Keeps (S.holdings (s.heap.alloc type v).2) (.object (s.heap.alloc type v).1) v

/-- A method can be called, and its caller gets what it expects. -/
def Welcomes (ks : List κ) (function : TypeHash) (args : List Value) (resume : Resume) : Prop :=
  ∀ m, p.methods[function]? = some m → (args.length = m.function.stackArity → ∀ (n : Nat) v,
    args[n]? = some v →
      S.Means ⟨S.holdings s.heap, s.methods ++ [m]⟩ (S.argumentEntry m n) v) ∧
    S.Gives (s.world S.holdings) m.function ks resume

/-- What an action has to meet if certain operands are expected from it. Jumps are apart. -/
def Meets (ks : List κ) : Action → Prop
  | .push vs => List.Forall₂ (S.Means (s.world S.holdings)) ks vs
  | .get root => S.Finds p s root ∧ ∀ v, S.Holds (s.world S.holdings) v root.cell →
      List.Forall₂ (S.Means (s.world S.holdings)) ks [v]
  | .set root v => ks = [] ∧ S.Replaces p s (.ofRoot root) v
  | .load place accepts => S.Finds p s place.root ∧ ∀ v w,
      S.Holds (s.world S.holdings) v place.root.cell → v.follow place.path = .ok w →
        (accepts w).2 = true → List.Forall₂ (S.Means (s.world S.holdings)) ks [w]
  | .store place v => ks = [] ∧ S.Replaces p s place v
  | .copy source target => ks = [] ∧ S.Finds p s source.root ∧ ∀ v w,
      S.Holds (s.world S.holdings) v source.root.cell → v.follow source.path = .ok w →
        w.acceptedAsBlock.2 = true → S.Replaces p s target w
  | .alloc type v => S.Allocates s type v ∧
      List.Forall₂ (S.Means ((s.allocated type v).world S.holdings)) ks
        [.ref (s.heap.alloc type v).1]
  | .native f args constructs => (∀ e, (f s.heap args).1 = .error e → S.Harmless e) ∧
      (S.holdings s.heap).Grows (S.holdings (f s.heap args).2) ∧
      (∀ (id : ObjectId) o, (f s.heap args).2.objects[id.number]? = some o →
        S.Keeps (S.holdings (f s.heap args).2) (.object id) o.value) ∧
      ∀ v, (f s.heap args).1 = .ok v →
        List.Forall₂ (S.Means (({ s with heap := (f s.heap args).2 } : State).world S.holdings)) ks
          (if !constructs && v.isVoid then [] else [v])
  | .enter function args => S.Welcomes p s ks function args .caller
  | .construct owner function args =>
      (p.registry.kind? owner = some .reference →
        S.Allocates s owner (Exec.objectLayout p.registry owner) ∧
        let id := (s.heap.alloc owner (Exec.objectLayout p.registry owner)).1
        S.Welcomes p (s.allocated owner (Exec.objectLayout p.registry owner)) ks function
          (.ref id :: args) (.built (.ref id))) ∧
      (p.registry.kind? owner ≠ some .reference →
        S.Allocates s owner (p.registry.defaultValue owner) ∧
        let id := (s.heap.alloc owner (p.registry.defaultValue owner)).1
        S.Welcomes p (s.allocated owner (p.registry.defaultValue owner)) ks function
          (.address (.ofRoot (.heap id)) :: args) (.cell id))
  | .goto _ => False

end Obligations

/-! ### Obligations in other states -/

section Obligations

variable {S : Meaning κ} {ks : List κ} {v : Value} {a : Action}

/-- A static field that gets its default makes no difference. -/
theorem Replaces.materialize (h : S.Replaces p s place v) (root : Root) :
    S.Replaces p (s.materialize p.registry root) place v := by
  have hsettle := settles_materialize (r := p.registry) (s := s) root
  refine ⟨fun e he => h.1 e (hsettle.root_materialize place.root ▸ he), ?_⟩
  rw [world_materialize, hsettle.objects]
  intro old new hold hnew
  rw [heap_setRoot_congr hsettle.objects]
  exact h.2 old new hold hnew

/-- The operands of the innermost frame and its offset make no difference. -/
theorem Meets.moved (h : S.Meets p s ks a) (vs : List Value) (n : Nat) :
    S.Meets p (s.moved vs n) ks a := by
  have hheap := s.heap_moved vs n
  have hmeths := s.methods_moved vs n
  have hworld := world_moved (s := s) S.holdings vs n
  have hfinds : ∀ root, S.Finds p s root → S.Finds p (s.moved vs n) root := by
    intro root hroot e he
    rw [State.moved, materialize_modifyTop, root_eq] at he
    exact hroot e (by rw [root_eq, ← he]; congr 1; exact (cell?_moved vs n).symm)
  have hreplaces : ∀ place v, S.Replaces p s place v → S.Replaces p (s.moved vs n) place v := by
    intro place v hplace
    refine ⟨hfinds _ hplace.1, ?_⟩
    rw [hworld, hheap]
    intro old new hold hnew
    rw [heap_setRoot_congr hheap]
    exact hplace.2 old new hold hnew
  have hwelc : ∀ heap function args resume, S.Welcomes p { s with heap } ks function args resume →
        S.Welcomes p { s.moved vs n with heap } ks function args resume := by
    intro heap function args resume hwelcome m hm
    have hmeths : ({ s.moved vs n with heap } : State).methods =
      ({ s with heap } : State).methods := hmeths
    rw [State.world, hmeths]
    exact hwelcome m hm
  have hallocated : ∀ heap, (({ s.moved vs n with heap } : State).world S.holdings) =
      (({ s with heap } : State).world S.holdings) := by
    intro heap
    rw [State.world, State.world]
    exact congrArg (World.mk _) hmeths
  cases a with
  | push ws =>
    rwa [Meets, hworld]
  | get root =>
    rw [Meets, hworld]
    exact ⟨hfinds _ h.1, h.2⟩
  | set root w => exact ⟨h.1, hreplaces _ _ h.2⟩
  | load place accepts =>
    rw [Meets, hworld]
    exact ⟨hfinds _ h.1, h.2⟩
  | store place w => exact ⟨h.1, hreplaces _ _ h.2⟩
  | copy source target =>
    rw [Meets, hworld]
    exact ⟨h.1, hfinds _ h.2.1, fun v w hv hw hacc => hreplaces _ _ (h.2.2 v w hv hw hacc)⟩
  | alloc type w =>
    rwa [Meets, Allocates, State.allocated, hheap, hallocated]
  | native f args constructs =>
    rwa [Meets, hheap, hallocated]
  | enter function args =>
    have hsame : s.moved vs n = { s.moved vs n with heap := s.heap } := by rw [← hheap]
    rw [Meets, hsame]
    exact hwelc _ _ _ _ h
  | construct owner function args =>
    rw [Meets, Allocates, Allocates, State.allocated, State.allocated, hheap]
    exact ⟨fun hkind => ⟨(h.1 hkind).1, hwelc _ _ _ _ (h.1 hkind).2⟩,
      fun hkind => ⟨(h.2 hkind).1, hwelc _ _ _ _ (h.2 hkind).2⟩⟩
  | goto n => exact h

end Obligations

/-! ### Frames that begin -/

/-- What has to be shown of methods and fields: methods start well, fresh slots and untouched static
fields hold what they may hold, and ordinary faults are harmless. -/
structure Opens (S : Meaning κ) (p : Program) : Prop where
  start : ∀ (h : TypeHash) m, p.methods[h]? = some m → (S.rules m).Point m 0 []
  slots : ∀ (h : TypeHash) m, p.methods[h]? = some m → ∀ W (n : Nat) t, m.locals[n]? = some t →
    S.Means W (S.localEntry m n) (p.registry.defaultSlot t)
  statics : ∀ H (h : TypeHash) f, p.registry.fieldByHash? h = some f →
    S.Keeps H (.static h) (p.registry.defaultValue f.type.hash)
  ordinary : ∀ e : Fault, e.Ordinary → S.Harmless e

variable {S : Meaning κ} {ground : Ground κ} {t : State} {ks : List κ} {v : Value} {vs : List Value}
  {n : Nat} {a : Action}

namespace Opens

open Exec

variable (hp : S.Opens p)
include hp

theorem stores_frame (hs : S.Stores s) {m : Method} (hm : p.methods[function]? = some m)
    (harity : args.length = m.function.stackArity)
    (hargs : ∀ (n : Nat) v, args[n]? = some v →
      S.Means ⟨S.holdings s.heap, s.methods ++ [m]⟩ (S.argumentEntry m n) v) (resume : Resume) :
    S.Stores { s with frames := p.frame m args resume :: s.frames } := by
  have hworld : ({ s with frames := p.frame m args resume :: s.frames } : State).world S.holdings =
      ⟨S.holdings s.heap, s.methods ++ [m]⟩ := by
    rw [State.world, methods_cons rfl]
    rfl
  refine hs.cons ⟨Array.size_map, harity⟩ (fun n v hv => ?_) fun n v hv => ?_
  · obtain ⟨t, ht, rfl⟩ := Option.map_eq_some_iff.mp ((Array.getElem?_map ..).symm.trans hv)
    exact hp.slots function m hm _ n t ht
  · rw [hworld]
    exact hargs n v ((List.getElem?_toArray ..).symm.trans hv)

theorem yields_welcomed (hs : S.Expects p ground ks s)
    (h : S.Welcomes p s ks function args resume) :
    Yields p s (enter function args resume) (fun _ t => S.Expects p ground [] t) S.Fails := by
  refine Exec.yields_enter (fun m hm harity _ => ?_) fun e he =>
    ⟨hp.ordinary e he.ordinary, hs.stores.kept⟩
  obtain ⟨hargs, hgives⟩ := h m hm
  exact hs.enter hgives ⟨function, hm⟩ (hp.start function m hm) rfl
    (hp.stores_frame hs.stores hm harity (hargs harity) resume)

/-! ### Actions that are performed -/

theorem stores_materialize (hs : S.Stores s) (root : Root) :
    S.Stores (s.materialize p.registry root) :=
  hs.materialize root fun hash f hf => hp.statics _ hash f hf

/-- An untouched static field gets its default. -/
theorem expects_materialize (hs : S.Expects p ground ks s) (root : Root) :
    S.Expects p ground ks (s.materialize p.registry root) := by
  refine hs.withCells ?_ ?_ (hp.stores_materialize hs.stores root)
  · rw [State.outlines, State.outlines, materialize_frames]
  · rw [(settles_materialize root).objects]
    exact .refl _

/-- What is fetched, for whatever is done with it. -/
theorem yields_fetch {β : Type} {R : β → State → Prop} {f : Value → Exec β} (hs : S.Stores s)
    (hfinds : S.Finds p s place.root)
    (hok : ∀ v w, S.Holds (s.world S.holdings) v place.root.cell → v.follow place.path = .ok w →
      Yields p (s.materialize p.registry place.root) (f w) R S.Fails) :
    Yields p s (fetch place >>= f) R S.Fails := by
  have hstores := hp.stores_materialize hs place.root
  refine yields_fetch_bind (fun v w hv hw => hok v w ?_ hw)
    (fun e he => ⟨hfinds e he, hstores.kept⟩)
    fun v e he => ⟨hp.ordinary e (Value.ordinary_of_follow he), hstores.kept⟩
  have hholds := hstores.root hv
  rwa [world_materialize] at hholds

theorem yields_store (hs : S.Expects p ground [] s) (h : S.Replaces p s place v) :
    Yields p s (store place v) (fun _ t => S.Expects p ground [] t) S.Fails := by
  have hexp := hp.expects_materialize hs place.root
  have hheap := (settles_materialize (r := p.registry) (s := s) place.root).objects
  have hworld := world_materialize (r := p.registry) S.holdings (s := s) place.root
  refine Exec.yields_store (fun old new hold hnew => ?_) (fun e he => ⟨h.1 e he, hexp.stores.kept⟩)
    fun old e he => ⟨hp.ordinary e (Value.ordinary_of_replace he), hexp.stores.kept⟩
  obtain ⟨hholds, hgrows⟩ := h.2 old new (hworld ▸ hexp.stores.root hold) hnew
  rw [← heap_setRoot_congr hheap new place.root, ← hheap] at hgrows
  refine hexp.withCells (outlines_setRoot _ _ _) hgrows ?_
  exact hexp.stores.setRoot hgrows (hworld ▸ hholds)

omit hp in
theorem expects_allocated {type : TypeHash} (hs : S.Expects p ground ks s)
    (h : S.Allocates s type v) :
    S.Expects p ground ks (s.allocated type v) :=
  hs.withCells rfl h.1 (hs.stores.alloc h.1 h.2)

/-- An action that meets what it has to meet. -/
theorem perform (hs : S.Expects p ground ks s) (ha : S.Meets p s ks a) :
    Yields p s a.perform (fun _ t => S.Expects p ground [] t) S.Fails := by
  cases a with
  | push vs => exact yields_of_ok (exec_modify _) (hs.pushed ha)
  | get root =>
    refine hp.yields_fetch hs.stores ha.1 fun v w hv hw => yields_push ?_
    cases hw
    refine (hp.expects_materialize hs root).pushed ?_
    rw [world_materialize]
    exact ha.2 v hv
  | set root v =>
    obtain ⟨rfl, hreplaces⟩ := ha
    exact hp.yields_store hs hreplaces
  | load place accepts =>
    refine hp.yields_fetch hs.stores ha.1 fun v w hv hw => ?_
    have hexp := hp.expects_materialize hs place.root
    refine yields_checkWidth_bind (fun hacc => yields_push (hexp.pushed ?_))
      ⟨hp.ordinary _ trivial, hexp.stores.kept⟩
    rw [world_materialize]
    exact ha.2 v w hv hw hacc
  | store place v =>
    obtain ⟨rfl, hreplaces⟩ := ha
    exact hp.yields_store hs hreplaces
  | copy source target =>
    obtain ⟨rfl, hfinds, hcopy⟩ := ha
    refine hp.yields_fetch hs.stores hfinds fun v w hv hw => ?_
    have hexp := hp.expects_materialize hs source.root
    refine yields_checkWidth_bind (fun hacc => ?_) ⟨hp.ordinary _ trivial, hexp.stores.kept⟩
    exact hp.yields_store hexp ((hcopy v w hv hw hacc).materialize source.root)
  | alloc type v =>
    exact yields_alloc_bind type (yields_push ((expects_allocated hs ha.1).pushed ha.2))
  | native f args constructs =>
    obtain ⟨hfault, hgrows, hkeeps, hres⟩ := ha
    have hkept := hs.stores.kept
    have hstores : S.Stores { s with heap := (f s.heap args).2 } := hs.stores.withStorage rfl hgrows
        ⟨fun h v hv => S.keeps_grows hgrows (hkept.static h v hv), hkeeps,
          fun h vs n v hvs hv => S.keeps_grows hgrows (hkept.captured h vs n v hvs hv)⟩
    have hexp : S.Expects p ground ks { s with heap := (f s.heap args).2 } :=
      hs.withCells rfl hgrows hstores
    refine yields_callNative_bind (fun v hv => ?_) fun e he => ⟨hfault e he, hstores.kept⟩
    have hpushed := hexp.pushed (hres v hv)
    cases constructs with
    | true => exact yields_push hpushed
    | false => exact yields_pushResult hpushed
  | enter function args => exact hp.yields_welcomed hs ha
  | construct owner function args =>
    refine yields_constructOn (fun hkind id heap halloc => ?_) fun hkind id heap halloc => ?_
    · obtain ⟨hallocates, hwelc⟩ := ha.1 hkind
      have hexp := expects_allocated hs hallocates
      unfold State.allocated at hexp hwelc
      rw [halloc] at hexp hwelc
      exact hp.yields_welcomed hexp hwelc
    · obtain ⟨hallocates, hwelc⟩ := ha.2 hkind
      have hexp := expects_allocated hs hallocates
      unfold State.allocated at hexp hwelc
      rw [halloc] at hexp hwelc
      exact hp.yields_welcomed hexp hwelc
  | goto n => cases ha

end Opens

/-! ### Programs -/

/-- An instruction with its operands, at the innermost frame of a state. -/
structure Site (S : Meaning κ) (p : Program) (s : State) (f : Frame) (rest : List Frame)
    (x : Command)
    (i : Instr) (pops pushes : List κ) (us : List Value) : Prop where
  frames : s.frames = f :: rest
  fetch : f.method.fetch? f.offset = some i
  encoded : x.Encoded f.method.constants i
  argc : i.argc < 256
  slots : f.method.HasSlots i
  effect : (S.rules f.method).effect x pops pushes
  operands : List.Forall₂ (S.Means (s.world S.holdings)) pops us
  stores : S.Stores s

/-- What has to be shown of a program: instructions pop what they take, returns give results, and
actions meet what is expected from them. -/
structure Governs (S : Meaning κ) (p : Program) : Prop extends S.Opens p where
  pops : ∀ {m x i pops pushes}, (S.rules m).effect x pops pushes → x.Encoded m.constants i →
    x.op ≠ .ret → x.op ≠ .retVoid → pops.length = i.pops
  jump : ∀ {m x pops pushes}, (S.rules m).effect x pops pushes → x.op.sort = .label → pushes = []
  ret : ∀ {m x pops pushes}, (S.rules m).effect x pops pushes → x.op = .ret →
    ∃ k, pops = [k] ∧ ∀ W v, S.Means W k v → S.Returned W.holdings m.function v
  retVoid : ∀ {m x pops pushes}, (S.rules m).effect x pops pushes → x.op = .retVoid →
    ∀ H, S.Returned H m.function .void
  fault : ∀ {s f rest x i pops pushes us e}, S.Site p s f rest x i pops pushes us →
    i.action p f.method s.heap rest.length us = .error e → S.Harmless e
  meets : ∀ {s f rest x i pops pushes us a}, S.Site p s f rest x i pops pushes us →
    x.op.sort ≠ .label → i.action p f.method s.heap rest.length us = .ok a → S.Meets p s pushes a

namespace Governs

open Exec

variable (hp : S.Governs p) {f : Frame} {rest : List Frame}
include hp

/-- A call ends. The frame that goes may stand anywhere. -/
theorem yields_leave (hs : S.Expects p ground ks s) (hruns : ground.depth < s.depth)
    (hf : s.frames = f :: rest) (hv : S.Returned (S.holdings s.heap) f.method.function v)
    (vs : List Value) (n : Nat) :
    Yields p (s.moved vs n) (leave v) (S.Stepped p ground) S.Fails := by
  have htail := hs.stores.tail hf
  have houtlines : s.outlines = f.outline :: ({ s with frames := rest } : State).outlines := by
    rw [State.outlines, hf, List.map_cons]
    rfl
  have hstacked := hs.stacked
  have hworld := worldOf_outlines S { s with frames := rest }
  rw [houtlines] at hstacked
  rw [State.depth, hf, List.length_cons] at hruns
  have hlen : ({ s with frames := rest } : State).outlines.length = rest.length := List.length_map _
  generalize hσ : ({ s with frames := rest } : State).outlines = σ at hstacked hworld hlen
  rw [s.moved_eq hf]
  cases hstacked with
  | host _ _ _ hresume hground =>
    exact yields_leave_of_host rfl hresume ⟨_, hground, hv, htail.kept⟩
  | resting hground =>
    rw [hground, Ground.depth, hlen] at hruns
    exact absurd hruns (Nat.lt_irrefl _)
  | @called _ _ _ gives _ _ _ _ hgives hrest =>
    have hcaller : S.Expects p ground gives { s with frames := rest } := ⟨htail, hσ ▸ hrest⟩
    have hgives : S.Gives (({ s with frames := rest } : State).world S.holdings) f.method.function
        gives f.resume := hworld ▸ hgives
    have hhost : f.resume ≠ .host := by
      intro hhost
      rwa [hhost] at hgives
    refine Exec.yields_leave rfl hhost (fun ws hws => hcaller.pushed ?_) fun e he =>
      ⟨?_, htail.kept⟩
    · cases hresume : f.resume with rw [hresume] at hgives hws
      | host => exact absurd hresume hhost
      | caller =>
        cases hws
        exact hgives _ v (.refl _) hv
      | built w =>
        cases hws
        exact hgives
      | cell id =>
        unfold Resume.given Heap.get at hws
        dsimp only at hws
        split at hws <;> cases hws
        exact hgives _ _ (.refl _) (htail.kept.object id _ ‹_›)
    · cases hresume : f.resume with rw [hresume] at he
      | host | caller | built => cases he
      | cell id =>
        unfold Resume.given Heap.get at he
        dsimp only at he
        split at he <;> cases he
        exact hp.ordinary _ trivial

theorem yields_step (hs : S.Expects p ground [] s) (hruns : ground.depth < s.depth) :
    Yields p s step (S.Stepped p ground) S.Fails := by
  obtain ⟨f, rest, ls, hf, -, hpoint, hstack⟩ := hs.exists_frame hruns
  obtain ⟨x, i, pops, pushes, ks, below, hfetch, hx, hargc, hlisted, heff, rfl, hks, hlabel,
    hnext⟩ :=
    hpoint.fetch
  obtain ⟨us, vs, hsplit, hus, hvs⟩ := forall₂_split hstack
  have hops : List.Forall₂ (S.Means (s.world S.holdings)) pops us :=
    forall₂_weaken S.means_le hus hks
  have hsite : S.Site p s f rest x i pops pushes us :=
    ⟨hf, hfetch, hx, hargc, .of_listed hlisted, heff, hops, hs.stores⟩
  by_cases hret : x.op = .ret
  · obtain ⟨k, rfl, hreturned⟩ := hp.ret heff hret
    obtain _ | ⟨hv, ⟨⟩⟩ := hops
    exact yields_step_of_ret hf hfetch (hx.1.trans hret) hsplit
      (hp.yields_leave hs hruns hf (hreturned _ _ hv) vs i.next)
  by_cases hvoid : x.op = .retVoid
  · exact yields_step_of_retVoid hf hfetch (hx.1.trans hvoid)
      (hp.yields_leave hs hruns hf (hp.retVoid heff hvoid _) _ _)
  have hret' : i.op ≠ .ret := fun hop => hret (hx.1.symm.trans hop)
  have hvoid' : i.op ≠ .retVoid := fun hop => hvoid (hx.1.symm.trans hop)
  have hlen : us.length = i.pops := by
    rw [← hops.length_eq]
    exact hp.pops heff hx hret hvoid
  refine Exec.yields_step hf hfetch (fun _ _ _ => fails_of_sameStorage) hret' hvoid' hsplit hlen
    (fun a ha => ?_) fun e he => ⟨hp.fault hsite he, hs.stores.kept⟩
  by_cases hjump : x.op.sort = .label
  · -- nothing is on the stack at either end of a jump
    obtain ⟨rfl, htgt⟩ := hlabel hjump
    cases hvs
    cases hp.jump heff hjump
    have hgoto : S.Expects p ground [] (s.moved [] i.operand) :=
      hs.moved hruns hf (l := []) htgt .nil
    have hperf : ∀ n, Yields p (s.moved [] n) (Action.goto i.operand).perform
        (fun _ t => S.Expects p ground [] t) S.Fails := by
      intro n
      refine yields_of_ok (exec_modify _) ?_
      rw [s.moved_eq hf] at hgoto ⊢
      exact hgoto
    have hacts := Instr.acts ha
    rw [hx.1] at hacts
    generalize hop : x.op = op at hacts hjump
    cases hacts with
    | jump | jumpIf => exact hperf _
    | fall =>
      have hfalls := hnext (by rw [hop]; rfl)
      refine yields_of_ok (exec_modify _) ?_
      exact (hs.moved hruns hf (l := []) hfalls .nil).pushed .nil
    | _ => cases hjump
  · have hfalls : x.op.isTerminator = false := by
      cases hop : x.op <;> simp_all [Opcode.isTerminator, Opcode.sort]
    have hexp := hs.moved hruns hf (hnext hfalls) hvs
    exact hp.toOpens.perform hexp ((hp.meets hsite hjump ha).moved vs i.next)

theorem run (hs : S.Expects p bottom [] s) (h : Exec.run p fuel s = some (result, t)) : S.Kept t ∧
      (∀ v, result = .ok v → S.Returned (S.holdings t.heap) bottom.function v) ∧
      ∀ e, result = .error e → S.Harmless e := by
  induction fuel generalizing s with
  | zero => cases h
  | succ fuel ih =>
    have hstep := hp.yields_step hs hs.runs
    unfold Exec.run at h
    rcases hout : step.exec p s with ⟨e | progress, u⟩ <;> rw [hout] at h
    · cases h
      obtain ⟨he, hkept⟩ := hstep.error e _ hout
      exact ⟨hkept, fun v hv => (by cases hv), fun e' he' => Except.error.inj he' ▸ he⟩
    · have hu := hstep.ok progress u hout
      cases progress with
      | running => exact ih hu h
      | done v =>
        cases h
        obtain ⟨m, hm, hret, hkept⟩ := hu
        cases hm
        exact ⟨hkept, fun w hw => Except.ok.inj hw ▸ hret, fun e he => by cases he⟩

theorem reaches (hs : S.Expects p bottom [] s) (h : Reaches p s t) : S.Expects p bottom [] t := by
  induction h with
  | refl => exact hs
  | tail _ hstep ih => exact (hp.yields_step ih ih.runs).ok _ _ hstep

section Host

variable (hkept : S.Kept s) (hidle : s.frames = [])
  (hargs : ∀ m, p.methods[function]? = some m → args.length = m.function.stackArity → ∀ (n : Nat) v,
    args[n]? = some v → S.Means ⟨S.holdings s.heap, [m]⟩ (S.argumentEntry m n) v)
include hkept hidle hargs

/-- A call from the host begins with one frame. -/
theorem yields_enter_host : Yields p s (enter function args .host)
    (fun _ t => ∃ m, p.methods[function]? = some m ∧ S.Expects p m [] t) S.Fails := by
  have hmeths : s.methods = [] := by simp [State.methods, hidle]
  have hframe : ∀ k, s.frame? k = none := by
    intro k
    rw [State.frame?, State.depth, hidle]
    exact if_neg (Nat.not_lt_zero k)
  have hstores : S.Stores s := by
    refine ⟨by simp [hidle], fun c v hv => ?_⟩
    cases c with
    | localSlot k n | argument k n =>
      rw [State.cell?, hframe] at hv
      cases hv
    | static h => exact hkept.static h v hv
    | object id =>
      obtain ⟨o, ho, rfl⟩ := Option.map_eq_some_iff.mp hv
      exact hkept.object id o ho
    | captured h n =>
      obtain ⟨vs, hvs, hv⟩ := Option.bind_eq_some_iff.mp hv
      exact hkept.captured h vs n v hvs hv
  refine Exec.yields_enter (fun m hm harity _ => ?_) fun e he => ⟨hp.ordinary e he.ordinary, hkept⟩
  have hslots : ∀ (n : Nat) v, args[n]? = some v →
      S.Means ⟨S.holdings s.heap, s.methods ++ [m]⟩ (S.argumentEntry m n) v := by
    rw [hmeths]
    exact hargs m hm harity
  have hframed := hp.stores_frame hstores hm harity hslots .host
  refine ⟨m, hm, hframed, ?_⟩
  have houtlines : ({ s with frames := p.frame m args .host :: s.frames } : State).outlines =
      [⟨m, [], 0, .host⟩] := by
    rw [State.outlines, List.map_cons, hidle]
    rfl
  rw [houtlines]
  have hpoint : (S.rules m).Point m 0 ([] ++ []) := hp.start function m hm
  exact .host ⟨function, hm⟩ hpoint .nil rfl rfl

theorem invoke (hnative : p.natives[function]? = none) {m' : Machine}
    (h : Machine.invoke ⟨p, s⟩ fuel function args = some (result, m')) :
    m'.program = p ∧ m'.state.frames = [] ∧ S.Kept m'.state ∧
      (∀ v, result = .ok v → ∃ m, p.methods[function]? = some m ∧
        S.Returned (S.holdings m'.state.heap) m.function v) ∧
      ∀ e, result = .error e → S.Harmless e := by
  have henter := hp.yields_enter_host hkept hidle hargs
  rcases Machine.invoke_of_none hnative h with ⟨rfl, e, rfl, hout⟩ | ⟨u, t, hout, hrun, rfl⟩
  · obtain ⟨he, hu⟩ := henter.error e s hout
    exact ⟨rfl, hidle, hu, fun v hv => (by cases hv), fun e' he' => Except.error.inj he' ▸ he⟩
  · obtain ⟨m, hm, hu⟩ := henter.ok _ u hout
    obtain ⟨hstat, hres, herror⟩ := hp.run hu hrun
    rw [Machine.unwind_eq_idle hidle]
    exact ⟨rfl, rfl, ⟨hstat.static, hstat.object, hstat.captured⟩, fun v hv => ⟨m, hm, hres v hv⟩,
      herror⟩

end Host

end Governs

end Meaning

end StackCode
