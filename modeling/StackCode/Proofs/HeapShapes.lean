import Mathlib.Order.Monotone.Defs
import StackCode.Proofs.Custody

/-!
# Shapes of objects

An object keeps its type. Its value can change, and as a whole only through an address of the object
itself. Nothing makes such an address for an array or for an instance of a reference type: code goes
from a reference to the address of a member at once. So arrays and instances stay aggregates of the
length with which they were made, as long as native functions only allocate and the host passes on
no addresses but those of cells that it has made.
-/

namespace StackCode

open List Custody Heap Address State Nat

variable {n fuel : Nat} {p : Program} {s : State} {fixed : List (ObjectId × TypeHash × Nat)}
  {rest : List Frame} {a : Address} {result : Except Fault Value}

namespace Heap

/-- The types of the objects in order of allocation. -/
def types (heap : Heap) : List TypeHash := heap.objects.toList.map HeapObject.type

/-- An object has a type, and its value is an aggregate of a length. -/
def Shaped (heap : Heap) (id : ObjectId) (type : TypeHash) (length : Nat) : Prop :=
  ∃ items, heap.objects[id.number]? = some ⟨type, .aggregate items⟩ ∧ items.length = length

variable {heap heap' : Heap} {id : ObjectId} {type : TypeHash}

theorem Shaped.lt (h : heap.Shaped id type n) : id.number < heap.size := by
  obtain ⟨items, hid, -⟩ := h
  exact (Array.getElem?_eq_some_iff.mp hid).1

theorem Shaped.arrayLength (h : heap.Shaped id type n) : heap.arrayLength id = .ok n := by
  obtain ⟨items, hid, rfl⟩ := h
  unfold arrayLength get
  rw [hid]
  rfl

theorem Shaped.mono (h : heap.Shaped id type n)
    (hheap : heap.objects.toList <+: heap'.objects.toList) : heap'.Shaped id type n := by
  obtain ⟨items, hid, hn⟩ := h
  rw [← Array.getElem?_toList] at hid
  obtain ⟨rest, hrest⟩ := hheap
  refine ⟨items, ?_, hn⟩
  rwa [← Array.getElem?_toList, ← hrest, List.getElem?_append_left
    (List.getElem?_eq_some_iff.mp hid).1]

theorem prefix_alloc (heap : Heap) (type : TypeHash) (v : Value) :
    heap.objects.toList <+: (heap.alloc type v).2.objects.toList := by
  simp [alloc]

theorem types_setValue (heap : Heap) (id : ObjectId) (v : Value) :
    (heap.setValue id v).types = heap.types := by
  refine ext_getElem? fun k => ?_
  simp only [types, setValue, getElem?_map, Array.getElem?_toList, Array.getElem?_modify]
  split
  · cases heap.objects[k]? <;> rfl
  · rfl

/-- A value below the root of an object is replaced. -/
theorem Shaped.replace {id' : ObjectId} {old v new : Value} {path : List UInt16}
    (h : heap.Shaped id type n) (hpath : id' = id → path ≠ [])
    (hold : (heap.get id').map HeapObject.value = .ok old)
    (hnew : Value.replace v old path = .ok new) : (heap.setValue id' new).Shaped id type n := by
  obtain ⟨items, hid, hn⟩ := h
  simp only [Shaped, setValue, Array.getElem?_modify]
  by_cases heq : id'.number = id.number
  · have hsame : id' = id := congrArg ObjectId.mk heq
    subst hsame
    cases path with
    | nil => exact absurd rfl (hpath rfl)
    | cons index path =>
      rw [get, hid] at hold
      cases hold
      obtain ⟨item, item', -, -, rfl⟩ := Value.replace_cons hnew
      exact ⟨items.set index.toNat item', by simp [hid, Value.setMember], by simpa using hn⟩
  · simp only [heq, if_false]
    exact ⟨items, hid, hn⟩

end Heap

/-- A native function only allocates: objects stay what they are, and an address that it makes leads
to an object that it has made. -/
def Native.Allocates (native : Native) : Prop :=
  ∀ heap args, heap.objects.toList <+: (native heap args).2.objects.toList ∧
    ∀ P : Address → Prop, (∀ o ∈ heap.objects, o.value.Holds P) → (∀ v ∈ args, v.Holds P) →
      (∀ a id, a.root = .heap id → heap.size ≤ id.number → id.number < (native heap args).2.size →
        P a) →
        (∀ o ∈ (native heap args).2.objects, o.value.Holds P) ∧ ∀ v, (native heap args).1 = .ok v →
          v.Holds P

/-! ### Addresses of objects -/

/-- Addresses of objects as a whole lead to objects up to a limit, which depends on the number of
objects, and to none of certain objects, whose shapes are kept. So are the types of the objects that
were there first. -/
def Custody.shapes (limit : Nat → Nat) (types : List TypeHash)
    (fixed : List (ObjectId × TypeHash × Nat)) :
    Custody where
  allowed n a := ∀ id, a = .ofRoot (.heap id) → id.number < limit n ∧ ∀ e ∈ fixed, e.1 ≠ id
  stands _ _ := True
  kept s := types <+: s.heap.types ∧ ∀ e ∈ fixed, s.heap.Shaped e.1 e.2.1 e.2.2

namespace Custody

variable {limit : Nat → Nat} {types : List TypeHash}

theorem allowed_of_path (h : a.path ≠ []) : (shapes limit types fixed).allowed n a := by
  rintro id rfl
  exact absurd rfl h

theorem allowed_of_root (h : ∀ id, a.root ≠ .heap id) : (shapes limit types fixed).allowed n a := by
  rintro id rfl
  exact absurd rfl (h id)

/-- What is kept stays, if objects are only added. -/
theorem kept_mono {t : State} (hs : (shapes limit types fixed).kept s)
    (h : s.heap.objects.toList <+: t.heap.objects.toList) : (shapes limit types fixed).kept t :=
  ⟨hs.1.trans (h.map _), fun e he => (hs.2 e he).mono h⟩

theorem stable_shapes (hlimit : Monotone limit) : (shapes limit types fixed).Stable p where
  mono hn h id ha := ⟨lt_of_lt_of_le (h id ha).1 (hlimit hn), (h id ha).2⟩
  member index _ := allowed_of_path (by simp [member])
  below n id index := allowed_of_path (by simp [member])
  slot n frame slot :=
    ⟨allowed_of_root fun _ => by simp [ofRoot], allowed_of_root fun _ => by simp [ofRoot]⟩
  static n field := allowed_of_root fun _ => by simp [ofRoot]
  method _ := trivial
  fetch {m n i} _ _ := by
    refine ⟨fun _ k root hroot => allowed_of_root fun id => ?_, fun _ => trivial, fun _ => trivial⟩
    unfold Method.capturedAt at hroot
    split at hroot <;> cases hroot
    simp [ofRoot]
  frames _ h := h
  materialize {s} root h := by
    have hheap := s.heap_materialize p.registry root
    exact kept_mono h (hheap ▸ prefix_refl _)
  store {s place old v new} h hplace hold hnew := by
    cases hroot : place.root with rw [hroot] at hold
    | localSlot | argument =>
      refine kept_mono h ?_
      simp [setRoot, storage_modifyFrame]
    | static | captured => exact h
    | heap id =>
      refine ⟨?_, fun e he => ?_⟩
      · exact (s.heap.types_setValue id new).symm ▸ h.1
      · refine (h.2 e he).replace (fun heq hpath => ?_) hold hnew
        obtain ⟨root, path⟩ := place
        cases hroot
        cases hpath
        exact (hplace id rfl).2 e he heq.symm
  alloc {s} type v h := kept_mono h (s.heap.prefix_alloc type v)

theorem sound_shapes (hp : ∀ (h : TypeHash) native, p.natives[h]? = some native →
    native.Allocates) :
    (shapes id types fixed).Sound p where
  toStable := stable_shapes monotone_id
  cell {s} h id heq := by
    cases heq
    refine ⟨lt_succ_self _, fun e he heq => ?_⟩
    have hlt := (h.2 e he).lt
    rw [heq] at hlt
    exact lt_irrefl _ hlt
  native {hash native s args} hnative hs hargs := by
    obtain ⟨hpre, hholds⟩ := hp hash native hnative s.heap args
    have hmono : ∀ a, (shapes id types fixed).allowed s.heap.size a →
        (shapes id types fixed).allowed (native s.heap args).2.size a :=
      fun a => (stable_shapes (p := p) monotone_id).mono (by simpa [Heap.size] using hpre.length_le)
    have hown : ∀ a id', a.root = .heap id' → s.heap.size ≤ id'.number →
        id'.number < (native s.heap args).2.size →
        (shapes id types fixed).allowed (native s.heap args).2.size a := by
      rintro a id' hroot hfrom hto id' rfl
      cases hroot
      refine ⟨hto, fun e he heq => ?_⟩
      have hlt := (hs.kept.2 e he).lt
      rw [heq] at hlt
      exact lt_irrefl _ (lt_of_lt_of_le hlt hfrom)
    obtain ⟨hheap, hres⟩ := hholds _ (fun o ho => (hs.object_of_mem ho).mono hmono)
      (fun v hv => (hargs v hv).mono hmono) hown
    exact ⟨hs.withHeap hmono hheap (kept_mono hs.kept hpre), hres⟩

theorem Guards.shapes {C : Custody} (hs : C.Guards s)
    (h : ∀ a, C.allowed s.heap.size a → (shapes limit types fixed).allowed s.heap.size a)
    (hkept : (shapes limit types fixed).kept s) : (shapes limit types fixed).Guards s :=
  ⟨fun c v hv => (hs.cells c v hv).mono h, fun f hf v hv => (hs.operands f hf v hv).mono h,
    fun f hf v hv => (hs.built f hf v hv).mono h, fun _ _ => trivial, hkept⟩

end Custody

/-! ### Objects of fixed shape -/

/-- An instruction makes an array, or an instance of a reference type. -/
def Instr.Fixes (p : Program) (m : Method) (i : Instr) : Prop :=
  i.op = .newArray ∨ i.op = .new ∧ ∃ function f owner, m.hashAt i = .ok function ∧
    p.natives[function]? = none ∧ p.registry.function? function = some f ∧ f.owner = some owner ∧
    p.registry.kind? owner = some .reference

/-- Nothing is allocated but an aggregate. -/
def Heap.Gains (heap heap' : Heap) : Prop :=
  heap' = heap ∨ ∃ type items, heap' = (heap.alloc type (.aggregate items)).2

namespace Custody

variable {f : Frame} {i : Instr}

open Exec in
/-- No address of an array or of an instance of a reference type is made with it. -/
theorem yields_step_of_fixes (hs : (shapes (fun _ => n) [] []).Guards s) (hf : s.frames = f :: rest)
    (hfetch : f.method.fetch? f.offset = some i) (hi : i.Fixes p f.method) :
    Yields p s step (fun _ t => (shapes (fun _ => n) [] []).Guards t ∧ s.heap.Gains t.heap)
      fun _ t => (shapes (fun _ => n) [] []).Guards t.idle ∧ s.heap.Gains t.heap := by
  have hC : (shapes (fun _ => n) [] []).Stable p := stable_shapes monotone_const
  have hret : i.op ≠ .ret ∧ i.op ≠ .retVoid := by rcases hi with hop | ⟨hop, -⟩ <;> simp [hop]
  have hfault : (shapes (fun _ => n) [] []).Guards s.idle ∧ s.heap.Gains s.heap :=
    ⟨hC.idle hs, .inl rfl⟩
  have hstor : ∀ (e : Fault) u u', State.SameStorage u u' →
      (shapes (fun _ => n) [] []).Guards u'.idle ∧ s.heap.Gains u'.heap →
      (shapes (fun _ => n) [] []).Guards u.idle ∧ s.heap.Gains u.heap :=
    fun _ u u' hsame hu => by rwa [hsame.idle_eq, hsame.heap]
  rcases lt_or_ge f.stack.length i.pops with hfew | henough
  · exact yields_step_of_few hf hfetch hstor hret.1 hret.2 hfew fun _ => hfault
  have hsplit := (take_append_drop i.pops f.stack).symm
  refine yields_step hf hfetch hstor hret.1 hret.2 hsplit (length_take_of_le henough)
    (fun a ha => ?_) fun _ _ => hfault
  have hboth := hs.operands f (by simp [hf])
  rw [hsplit] at hboth
  obtain ⟨hus, hvs⟩ := forall_mem_append.mp hboth
  have hmoved := hC.moved hs hf hvs (n := i.next) trivial
  rw [s.moved_eq hf] at hmoved ⊢
  have hdef :=
    Registry.holds_defaultWithin p.registry ((shapes (fun _ => n) [] []).allowed s.heap.size)
  have hacts := Instr.acts ha
  rcases hi with hop | ⟨hop, function, fn, owner, hfun, hnative, hfn, howner, hkind⟩ <;>
    rw [hop] at hacts
  · cases hacts
    rename_i element k _
    have halloc := hC.allocated hmoved (.arrayOf element)
      (v := .aggregate (List.replicate k (p.registry.defaultValue element)))
      (.aggregate fun v hv => eq_of_mem_replicate hv ▸ hdef _ _)
    exact yields_alloc_bind _ (yields_push ⟨hC.pushed halloc (forall_mem_singleton.mpr (.ref _)),
      .inr ⟨_, _, rfl⟩⟩)
  · cases hacts
    rename_i hfun' ha
    cases hfun.symm.trans hfun'
    rcases Program.constructAction_eq_ok ha with ⟨native, hnative', -⟩ | ⟨-, fn', owner', hfn',
      howner', rfl⟩
    · rw [hnative] at hnative'
      cases hnative'
    cases hfn.symm.trans hfn'
    cases howner.symm.trans howner'
    refine yields_constructOn (fun _ id heap hheap => ?_) fun hcell => absurd hkind hcell
    cases hheap
    have halloc := hC.allocated hmoved owner (v := objectLayout p.registry owner)
      (.aggregate fun v hv => by
      obtain ⟨field, -, rfl⟩ := mem_map.mp hv
      exact hdef _ _)
    refine yields_enter (fun m hm _ _ => ⟨hC.entered halloc hm (forall_mem_cons.mpr ⟨.ref _, ?_⟩)
      fun v hv => ?_, .inr ⟨_, _, rfl⟩⟩) fun _ _ => ⟨hC.idle halloc, .inr ⟨_, _, rfl⟩⟩
    · exact fun v hv => hus v (mem_reverse.mp hv)
    · cases hv
      exact .ref _

end Custody

/-! ### Moments of a run -/

/-- A state of a machine, and the cells that the host has made. -/
structure Moment where
  state : State
  cells : List ObjectId

namespace Moment

/-- Values that the host passes on: all their addresses are those of its cells. -/
def Gives (x : Moment) (v : Value) : Prop := v.Holds fun a => ∃ id ∈ x.cells, a = .ofRoot (.heap id)

/-- What can happen next. Between two calls the host makes a cell or calls a function. A call takes
a step, which may be its last. -/
inductive Next (p : Program) : Moment → Moment → Prop
  | cell {x : Moment} {v : Value} (hidle : x.state.frames = []) (hv : x.Gives v) (type : TypeHash) :
    Next p x ⟨{ x.state with heap := (x.state.heap.alloc type v).2 },
      (x.state.heap.alloc type v).1 :: x.cells⟩
  | native {x : Moment} {function : TypeHash} {native : Native} {args : List Value}
    (hidle : x.state.frames = []) (hnative : p.natives[function]? = some native)
    (hargs : ∀ v ∈ args, x.Gives v) :
    Next p x ⟨{ x.state with heap := (native x.state.heap args).2 }, x.cells⟩
  | enter {x : Moment} {function : TypeHash} {args : List Value} {t : State}
    (hidle : x.state.frames = []) (hargs : ∀ v ∈ args, x.Gives v)
    (h : (Exec.enter function args .host).exec p x.state = (.ok (), t)) : Next p x ⟨t, x.cells⟩
  | step {x : Moment} {t : State} (h : Exec.step.exec p x.state = (.ok .running, t)) : Next p x
    ⟨t, x.cells⟩
  | done {x : Moment} {v : Value} {t : State} (h : Exec.step.exec p x.state = (.ok (.done v), t)) :
    Next p x ⟨t.idle, x.cells⟩
  | failed {x : Moment} {e : Fault} {t : State} (h : Exec.step.exec p x.state = (.error e, t)) :
    Next p x ⟨t.idle, x.cells⟩

/-- One moment and another one that comes of it. -/
abbrev Later (p : Program) : Moment → Moment → Prop := Relation.ReflTransGen (Next p)

variable {x y : Moment} {types : List TypeHash}

theorem later_of_run {t : State} (cells : List ObjectId)
    (h : Exec.run p fuel s = some (result, t)) :
    Later p ⟨s, cells⟩ ⟨t.idle, cells⟩ := by
  induction fuel generalizing s with
  | zero => cases h
  | succ fuel ih =>
    unfold Exec.run at h
    rcases hout : Exec.step.exec p s with ⟨e | _ | v, u⟩ <;> rw [hout] at h
    · cases h
      exact .single (.failed hout)
    · exact .head (.step hout) (ih h)
    · cases h
      exact .single (.done hout)

/-- A call from the host goes from one moment to a later one. -/
theorem later_of_invoke (hidle : x.state.frames = []) {function : TypeHash} {args : List Value}
    (hargs : ∀ v ∈ args, x.Gives v) {m : Machine}
    (h : Machine.invoke ⟨p, x.state⟩ fuel function args = some (result, m)) :
    Later p x ⟨m.state, x.cells⟩ := by
  cases hnative : p.natives[function]? with
  | some native =>
    rw [Machine.invoke_of_native hnative] at h
    cases h
    exact .single (.native hidle hnative hargs)
  | none =>
    rcases Machine.invoke_of_none hnative h with ⟨rfl, -⟩ | ⟨s, t, henter, hrun, rfl⟩
    · exact .refl
    · rw [Machine.unwind_eq_idle hidle]
      exact .head (.enter hidle hargs henter) (later_of_run x.cells hrun)

/-- The host has no addresses of objects other than its cells. -/
structure Guarded (types : List TypeHash) (fixed : List (ObjectId × TypeHash × Nat)) (x : Moment) :
    Prop where
  state : (Custody.shapes id types fixed).Guards x.state
  cells : ∀ c ∈ x.cells, (Custody.shapes id types fixed).allowed x.state.heap.size
    (.ofRoot (.heap c))

theorem Guarded.holds (hx : x.Guarded types fixed) {v : Value} (hv : x.Gives v) :
    v.Holds ((shapes id types fixed).allowed x.state.heap.size) :=
  hv.mono fun _ ⟨c, hc, heq⟩ => heq ▸ hx.cells c hc

section Next

variable (hp : ∀ (h : TypeHash) native, p.natives[h]? = some native → native.Allocates)
include hp

section

variable (hx : x.Guarded types fixed)
include hx

theorem Guarded.next_state (h : Next p x y) : (shapes id types fixed).Guards y.state := by
  have hC : (shapes id types fixed).Sound p := sound_shapes hp
  cases h with
  | cell _ hv type => exact hC.allocated hx.state type (hx.holds hv)
  | native _ hnative hargs => exact (hC.native hnative hx.state fun v hv => hx.holds (hargs v hv)).1
  | enter _ hargs h =>
    exact (hC.yields_enter hx.state _ .host (fun v hv => hx.holds (hargs v hv)) fun v hv => by
      cases hv).ok _ _ h
  | step h => exact ((hC.yields_step hx.state).ok _ _ h).1
  | done h => exact hC.idle ((hC.yields_step hx.state).ok _ _ h).1
  | failed h => exact (hC.yields_step hx.state).error _ _ h

theorem Guarded.types_next (h : Next p x y) : x.state.heap.types <+: y.state.heap.types := by
  have hx' : x.Guarded x.state.heap.types fixed :=
    ⟨hx.state.shapes (fun _ ha => ha) ⟨prefix_refl _, hx.state.kept.2⟩, hx.cells⟩
  exact (hx'.next_state hp h).kept.1

theorem Guarded.next (h : Next p x y) : y.Guarded types fixed := by
  have hC : (shapes id types fixed).Sound p := sound_shapes hp
  have hsize : x.state.heap.size ≤ y.state.heap.size := by
    simpa [Heap.types, Heap.size] using (hx.types_next hp h).length_le
  have hcells := fun c hc => hC.mono hsize (hx.cells c hc)
  refine ⟨hx.next_state hp h, ?_⟩
  cases h with
  | cell _ hv type =>
    refine forall_mem_cons.mpr ⟨?_, hcells⟩
    have hcell := hC.cell hx.state.kept
    simpa [Heap.alloc, Heap.size] using hcell
  | native | enter | step | done | failed => exact hcells

theorem Guarded.later (h : Later p x y) :
    y.Guarded types fixed ∧ x.state.heap.types <+: y.state.heap.types := by
  induction h with
  | refl => exact ⟨hx, prefix_refl _⟩
  | tail _ hnext ih => exact ⟨ih.1.next hp hnext, ih.2.trans (ih.1.types_next hp hnext)⟩

end

omit hp

/-- An object that is made with a fixed shape is without address. -/
theorem Guarded.fixes (hx : x.Guarded [] []) (h : Next p x y) {f : Frame} {i : Instr}
    (hf : x.state.frames = f :: rest) (hfetch : f.method.fetch? f.offset = some i)
    (hi : i.Fixes p f.method) (hsize : x.state.heap.size < y.state.heap.size) :
    ∃ type n, y.Guarded [] [(⟨x.state.heap.size⟩, type, n)] := by
  have hearly : (shapes (fun _ => x.state.heap.size) [] []).Guards x.state :=
    hx.state.shapes (fun _ ha => ha) hx.state.kept
  have hstable : (shapes (fun _ => x.state.heap.size) [] []).Stable p :=
    stable_shapes monotone_const
  have hstep := yields_step_of_fixes hearly hf hfetch hi
  have hy : y.cells = x.cells ∧ (shapes (fun _ => x.state.heap.size) [] []).Guards y.state ∧
      x.state.heap.Gains y.state.heap := by
    cases h with
    | cell hidle | native hidle | enter hidle =>
      rw [hf] at hidle
      cases hidle
    | step h => exact ⟨rfl, hstep.ok _ _ h⟩
    | done h => exact ⟨rfl, hstable.idle (hstep.ok _ _ h).1, (hstep.ok _ _ h).2⟩
    | failed h => exact ⟨rfl, hstep.error _ _ h⟩
  obtain ⟨hcells, hguards, heq | ⟨type, items, heq⟩⟩ := hy
  · rw [heq] at hsize
    exact absurd hsize (lt_irrefl _)
  · -- the object is the last one, and older ones have other numbers
    have hlater : ∀ a : Address, (∀ c, a = .ofRoot (.heap c) → c.number < x.state.heap.size) →
        (shapes id [] [(⟨x.state.heap.size⟩, type, items.length)]).allowed y.state.heap.size a := by
      intro a ha c hc
      refine ⟨lt_trans (ha c hc) hsize, forall_mem_singleton.mpr fun heq => ?_⟩
      exact lt_irrefl _ (heq ▸ ha c hc)
    refine ⟨type, items.length, hguards.shapes (fun a ha => hlater a fun c hc => (ha c hc).1)
      ⟨ nil_prefix, forall_mem_singleton.mpr ⟨items, ?_, rfl⟩⟩,
        fun c hc => hlater _ fun c' hc' => ?_⟩
    · simp [heq, Heap.alloc, Heap.size]
    · exact (hx.cells c (hcells ▸ hc) c' hc').1

end Next

end Moment

/-- Nothing has happened yet; types with captured literals may have been loaded. -/
structure State.Fresh (s : State) : Prop where
  frames : s.frames = []
  heap : s.heap = .empty
  statics : s.statics = ∅
  captured : ∀ (owner : TypeHash) vs, s.captured[owner]? = some vs → ∀ v ∈ vs, ∃ l, v = .lit l

theorem Moment.guarded_fresh (hs : s.Fresh) : Moment.Guarded [] [] ⟨s, []⟩ := by
  obtain ⟨frames, heap, statics, captured⟩ := s
  obtain ⟨rfl, rfl, rfl, hcapt⟩ := hs
  refine ⟨⟨fun c v hv => ?_, forall_mem_nil _, forall_mem_nil _, forall_mem_nil _,
    nil_prefix, forall_mem_nil _⟩, forall_mem_nil _⟩
  cases c with
  | localSlot frame n | argument frame n => simp [cell?, frame?, depth] at hv
  | static field => simp [cell?] at hv
  | object id => simp [cell?, empty] at hv
  | captured owner n =>
    obtain ⟨vs, hvs, hv⟩ := Option.bind_eq_some_iff.mp hv
    obtain ⟨l, rfl⟩ := hcapt owner vs hvs v (Array.mem_of_getElem? hv)
    exact .lit l

namespace Moment

/-- Whatever code is loaded, the objects that are there at a moment are there later, with their
types. If an array or an instance of a reference type is made, it is an aggregate of the same length
ever after. Calls from the host go from one moment to a later one. -/
theorem heap_shapes_are_stable {p : Program} {s : State} {x : Moment}
    (hp : ∀ (h : TypeHash) native, p.natives[h]? = some native → native.Allocates) (hs : s.Fresh)
    (hx : Later p ⟨s, []⟩ x) :
    (∀ y, Later p x y → x.state.heap.types <+: y.state.heap.types) ∧
    (∀ f rest i y, x.state.frames = f :: rest → f.method.fetch? f.offset = some i →
      i.Fixes p f.method →
      Next p x y → x.state.heap.size < y.state.heap.size → ∃ type n, ∀ z, Later p y z →
        z.state.heap.Shaped ⟨x.state.heap.size⟩ type n ∧
          z.state.heap.arrayLength ⟨x.state.heap.size⟩ = .ok n) ∧
    ∀ fuel function args result m, x.state.frames = [] → (∀ v ∈ args, x.Gives v) →
      Machine.invoke ⟨p, x.state⟩ fuel function args = some (result, m) →
      Later p x ⟨m.state, x.cells⟩ := by
  obtain ⟨hx, -⟩ := (guarded_fresh hs).later hp hx
  refine ⟨fun y hy => (hx.later hp hy).2, fun f rest i y hf hfetch hi hnext hsize => ?_,
    fun fuel function args result m hidle hargs h => later_of_invoke hidle hargs h⟩
  obtain ⟨type, n, hy⟩ := hx.fixes hnext hf hfetch hi hsize
  refine ⟨type, n, fun z hz => ?_⟩
  have hshaped := (hy.later hp hz).1.state.kept.2 _ (List.mem_singleton_self _)
  exact ⟨hshaped, hshaped.arrayLength⟩

end Moment

namespace Row

/-- A function that makes an array of three elements and drops it. -/
def function : FunctionDecl := .free "row" [] .void

def method : Method where
  function := function
  chunk := ⟨#[(Opcode.constant false).byte, 0, Opcode.newArray.byte, 0, 1, Opcode.pop.byte,
    Opcode.retVoid.byte], #[]⟩
  constants := ⟨#[.literal (.int .int32 3), .hash .int32], ∅⟩
  locals := #[]

def program : Program :=
  ⟨default, (∅ : Std.TreeMap TypeHash Method).insert function.hash method, ∅, 8⟩

/-- The function is being executed. -/
def moment (offset : Nat) (stack : List Value) (objects : Array HeapObject) : Moment :=
  ⟨⟨[{ program.frame method [] .host with stack, offset }], ⟨objects⟩, ∅, ∅⟩, []⟩

def array : HeapObject :=
  ⟨.arrayOf .int32, .aggregate (List.replicate 3 (program.registry.defaultValue .int32))⟩

theorem begins : Moment.Next program ⟨.initial, []⟩ (moment 0 [] #[]) := by
  have hmeth : program.methods[function.hash]? = some method := by simp [program]
  have henter : (Exec.enter function.hash [] .host).exec program .initial =
    (.ok (), (moment 0 [] #[]).state) := by
    rw [Exec.exec_enter_some hmeth, if_neg (by decide), if_neg (by decide)]
    rfl
  exact .enter rfl (forall_mem_nil _) henter

theorem pushes_length : Moment.Next program (moment 0 [] #[]) (moment 2 [.int32 3] #[]) := .step rfl

theorem makes_array : Moment.Next program (moment 2 [.int32 3] #[])
    (moment 5 [.ref ⟨0⟩] #[array]) := .step rfl

theorem drops_array : Moment.Next program (moment 5 [.ref ⟨0⟩] #[array]) (moment 6 [] #[array]) :=
  .step rfl

end Row

namespace Moment

open Row

/-- The array of the function has three elements from then on. -/
theorem row_stays_three_long :
    Later program (moment 5 [.ref ⟨0⟩] #[array]) (moment 6 [] #[array]) ∧ ∀ z,
      Later program (moment 5 [.ref ⟨0⟩] #[array]) z → z.state.heap.arrayLength ⟨0⟩ = .ok 3 := by
  refine ⟨.single drops_array, fun z hz => ?_⟩
  have hnatives : ∀ (h : TypeHash) native, program.natives[h]? = some native → native.Allocates :=
    fun h native hnative => by simp [program] at hnative
  have hfresh : State.Fresh .initial := ⟨rfl, rfl, rfl, fun _ _ h => by simp [State.initial] at h⟩
  have hbefore : Later program ⟨.initial, []⟩ (moment 2 [.int32 3] #[]) :=
    (Relation.ReflTransGen.single begins).tail pushes_length
  obtain ⟨-, hfixed, -⟩ := heap_shapes_are_stable hnatives hfresh hbefore
  obtain ⟨type, n, hlater⟩ := hfixed _ [] _ _ rfl rfl (.inl rfl) makes_array Nat.zero_lt_one
  obtain ⟨-, hthen⟩ := hlater _ .refl
  cases hthen
  exact (hlater z hz).2

end Moment

end StackCode
