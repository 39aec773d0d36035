import StackCode.Proofs.Yields

/-!
# Custody

Code gets hold of an address in few ways: it takes the address of a slot or of a static field, it
goes from an object or an address to a member, it takes the address of a captured value, and a
constructor of a value is given the address of a fresh cell. Whatever is said of addresses and holds
of all these is true of every address that is around, if it was at the beginning; and what no store
through such an address can change is never changed.
-/

namespace StackCode

open List State Registry

variable {o : HeapObject} {place : Address} {function : TypeHash} {fuel : Nat}
  {result : Except Fault Value}

namespace State

theorem SameStorage.idle_eq {s t : State} (h : s.SameStorage t) : s.idle = t.idle := by
  rw [idle, idle, h.heap, h.statics, h.captured]

theorem size_setRoot (s : State) (v : Value) (root : Root) :
    (s.setRoot v root).heap.size = s.heap.size := by
  cases root with
  | localSlot n | argument n => simp only [setRoot, storage_modifyFrame]
  | heap id => exact Array.size_modify ..
  | static | captured => rfl

end State

/-- Which addresses may be around when there are a number of objects, where methods may stand, and
what is to be kept. -/
structure Custody where
  allowed : Nat → Address → Prop
  stands : Method → Nat → Prop
  kept : State → Prop

namespace Custody

/-- All addresses are allowed, and so are the places where the frames stand. -/
structure Guards (C : Custody) (s : State) : Prop where
  cells : ∀ c v, s.cell? c = some v → v.Holds (C.allowed s.heap.size)
  operands : ∀ f ∈ s.frames, ∀ v ∈ f.stack, v.Holds (C.allowed s.heap.size)
  built : ∀ f ∈ s.frames, ∀ v, f.resume = .built v → v.Holds (C.allowed s.heap.size)
  stands : ∀ f ∈ s.frames, C.stands f.method f.offset
  kept : C.kept s

/-- What code does itself leads to allowed addresses and keeps what is to be kept. -/
structure Stable (C : Custody) (p : Program) : Prop where
  mono : ∀ {n n' a}, n ≤ n' → C.allowed n a → C.allowed n' a
  member : ∀ {n a} index, C.allowed n a → C.allowed n (a.member index)
  below : ∀ n id index, C.allowed n ((Address.ofRoot (.heap id)).member index)
  slot : ∀ n frame slot, C.allowed n (.ofRoot (.localSlot frame slot)) ∧
    C.allowed n (.ofRoot (.argument frame slot))
  static : ∀ n field, C.allowed n (.ofRoot (.static field))
  method : ∀ {h : TypeHash} {m}, p.methods[h]? = some m → C.stands m 0
  fetch : ∀ {m n i}, C.stands m n → m.fetch? n = some i →
    (i.op = .capturedAddress → ∀ k root, m.capturedAt i = .ok root → C.allowed k (.ofRoot root)) ∧
    (i.op.isJump → C.stands m i.operand) ∧ (i.op.isTerminator = false → C.stands m i.next)
  frames : ∀ {s} frames, C.kept s → C.kept { s with frames }
  materialize : ∀ {s} root, C.kept s → C.kept (s.materialize p.registry root)
  store : ∀ {s place old v new}, C.kept s → C.allowed s.heap.size place →
    s.root p.registry place.root = .ok old → Value.replace v old place.path = .ok new →
      C.kept (s.setRoot new place.root)
  alloc : ∀ {s} type v, C.kept s → C.kept { s with heap := (s.heap.alloc type v).2 }

/-- So do fresh cells and native functions. -/
structure Sound (C : Custody) (p : Program) : Prop extends C.Stable p where
  cell : ∀ {s}, C.kept s → C.allowed (s.heap.size + 1) (.ofRoot (.heap ⟨s.heap.size⟩))
  native : ∀ {h : TypeHash} {native s args}, p.natives[h]? = some native → C.Guards s →
    (∀ v ∈ args, v.Holds (C.allowed s.heap.size)) →
      C.Guards { s with heap := (native s.heap args).2 } ∧
        ∀ v, (native s.heap args).1 = .ok v → v.Holds (C.allowed (native s.heap args).2.size)

variable {C : Custody} {p : Program} {s t : State} {f : Frame} {rest : List Frame} {v : Value}
  {vs : List Value}

/-! ### States -/

namespace Guards

theorem root (hs : C.Guards s) {r : Registry} {root : Root} (h : s.root r root = .ok v) :
    v.Holds (C.allowed s.heap.size) :=
  hs.cells _ v (cell?_of_root h)

theorem object_of_mem (hs : C.Guards s) (h : o ∈ s.heap.objects) :
    o.value.Holds (C.allowed s.heap.size) := by
  obtain ⟨n, hn⟩ := Array.getElem?_of_mem h
  exact hs.cells (.object ⟨n⟩) _ (Option.map_eq_some_iff.mpr ⟨o, hn, rfl⟩)

theorem object (hs : C.Guards s) {id : ObjectId} (h : s.heap.get id = .ok o) :
    o.value.Holds (C.allowed s.heap.size) := by
  unfold Heap.get at h
  split at h <;> cases h
  exact hs.object_of_mem (Array.mem_of_getElem? ‹_›)

theorem withHeap (hs : C.Guards s) {heap : Heap}
    (hmono : ∀ a, C.allowed s.heap.size a → C.allowed heap.size a)
    (hheap : ∀ o ∈ heap.objects, o.value.Holds (C.allowed heap.size))
    (hkept : C.kept { s with heap }) :
    C.Guards { s with heap } := by
  refine ⟨fun c v hv => ?_, fun f hf v hv => (hs.operands f hf v hv).mono hmono,
    fun f hf v hv => (hs.built f hf v hv).mono hmono, hs.stands, hkept⟩
  cases c with
  | object id =>
    obtain ⟨o, ho, rfl⟩ := Option.map_eq_some_iff.mp hv
    exact hheap o (Array.mem_of_getElem? ho)
  | localSlot frame n => exact (hs.cells (.localSlot frame n) v hv).mono hmono
  | argument frame n => exact (hs.cells (.argument frame n) v hv).mono hmono
  | static field => exact (hs.cells (.static field) v hv).mono hmono
  | captured owner n => exact (hs.cells (.captured owner n) v hv).mono hmono

end Guards

namespace Stable

variable (hC : C.Stable p) (hs : C.Guards s)
include hC hs

theorem moved (hf : s.frames = f :: rest) (hvs : ∀ v ∈ vs, v.Holds (C.allowed s.heap.size))
    {n : Nat}
    (hn : C.stands f.method n) : C.Guards (s.moved vs n) := by
  obtain ⟨hcells, hstacks, hbuilt, hstands, hkept⟩ := hs
  simp only [hf, forall_mem_cons] at hstacks hbuilt hstands
  have hcells : ∀ c v, (s.moved vs n).cell? c = some v → v.Holds (C.allowed s.heap.size) :=
    fun c v hv => hcells c v (by rwa [cell?_moved] at hv)
  rw [s.moved_eq hf] at hcells ⊢
  exact ⟨hcells, forall_mem_cons.mpr ⟨hvs, hstacks.2⟩, forall_mem_cons.mpr hbuilt,
    forall_mem_cons.mpr ⟨hn, hstands.2⟩, hC.frames _ hkept⟩

theorem pushed (hvs : ∀ v ∈ vs, v.Holds (C.allowed s.heap.size)) : C.Guards (s.pushed vs) := by
  cases hf : s.frames with
  | nil =>
    have heq : s.pushed vs = s := by rw [State.pushed, State.modifyTop, hf]
    rwa [heq]
  | cons f rest =>
    have heq : s.pushed vs = s.moved (vs ++ f.stack) f.offset :=
      by rw [s.pushed_eq hf, s.moved_eq hf]
    have hmem : f ∈ s.frames := by simp [hf]
    rw [heq]
    exact hC.moved hs hf (forall_mem_append.mpr ⟨hvs, hs.operands f hmem⟩) (hs.stands f hmem)

theorem materialized (root : Root) : C.Guards (s.materialize p.registry root) := by
  have hheap := s.heap_materialize p.registry root
  have hframes := materialize_frames (r := p.registry) (s := s) root
  refine ⟨fun c v hv => ?_, ?_, ?_, ?_, hC.materialize root hs.kept⟩ <;> simp only [hheap, hframes]
  · rcases cell?_materialize hv with hv | ⟨field, f, -, -, rfl⟩
    · exact hs.cells c v hv
    · exact p.registry.holds_defaultWithin _ _ _
  · exact hs.operands
  · exact hs.built
  · exact hs.stands

theorem stored (hplace : C.allowed s.heap.size place) {old new : Value}
    (hv : v.Holds (C.allowed s.heap.size)) (hold : s.root p.registry place.root = .ok old)
    (hnew : Value.replace v old place.path = .ok new) : C.Guards (s.setRoot new place.root) := by
  have hsize := s.size_setRoot new place.root
  -- slots are not part of what is said of frames
  have hframes : ∀ f ∈ (s.setRoot new place.root).frames, ∃ g ∈ s.frames,
    g.outline = f.outline := by
    intro f hf
    have hmem : f.outline ∈ (s.setRoot new place.root).outlines := mem_map_of_mem hf
    rw [outlines_setRoot] at hmem
    exact mem_map.mp hmem
  refine ⟨fun c w hw => hsize ▸ ?_, fun f hf => hsize ▸ ?_, fun f hf => hsize ▸ ?_, fun f hf => ?_,
    hC.store hs.kept hplace hold hnew⟩
  · rcases cell?_setRoot hw with ⟨-, rfl⟩ | hw
    · exact hv.replace (hs.root hold) hnew
    · exact hs.cells c w hw
  all_goals
    obtain ⟨g, hg, heq⟩ := hframes f hf
    obtain ⟨hmeth, hstack, hoff, hresume⟩ := Outline.mk.inj heq
  · exact hstack ▸ hs.operands g hg
  · exact hresume ▸ hs.built g hg
  · exact hmeth ▸ hoff ▸ hs.stands g hg

theorem allocated (type : TypeHash) (hv : v.Holds (C.allowed s.heap.size)) :
    C.Guards { s with heap := (s.heap.alloc type v).2 } := by
  have hmono : ∀ a, C.allowed s.heap.size a → C.allowed (s.heap.alloc type v).2.size a :=
    fun a => hC.mono (by simp [Heap.alloc, Heap.size])
  refine hs.withHeap hmono (fun o ho => ?_) (hC.alloc type v hs.kept)
  rcases Array.mem_push.mp ho with ho | rfl
  · exact (hs.object_of_mem ho).mono hmono
  · exact hv.mono hmono

theorem tail (hf : s.frames = f :: rest) : C.Guards { s with frames := rest } := by
  have hmem : ∀ g ∈ rest, g ∈ s.frames := fun g hg => by simp [hf, hg]
  exact ⟨fun c v hv => hs.cells c v (cell?_tail hf hv), fun g hg => hs.operands g (hmem g hg),
    fun g hg => hs.built g (hmem g hg), fun g hg => hs.stands g (hmem g hg), hC.frames _ hs.kept⟩

theorem idle : C.Guards s.idle := by
  refine ⟨fun c v hv => ?_, by simp [State.idle], by simp [State.idle], by simp [State.idle],
    hC.frames _ hs.kept⟩
  cases c with
  | localSlot n k | argument n k => simp [State.cell?, State.frame?, State.idle, State.depth] at hv
  | static field => exact hs.cells (.static field) v hv
  | object id => exact hs.cells (.object id) v hv
  | captured owner n => exact hs.cells (.captured owner n) v hv

theorem entered {m : Method} (hm : p.methods[function]? = some m)
    (hvs : ∀ v ∈ vs, v.Holds (C.allowed s.heap.size)) {resume : Resume}
    (hresume : ∀ v, resume = .built v → v.Holds (C.allowed s.heap.size)) :
    C.Guards { s with frames := p.frame m vs resume :: s.frames } := by
  refine ⟨fun c v hv => ?_, forall_mem_cons.mpr ⟨by simp [Program.frame], hs.operands⟩,
    forall_mem_cons.mpr ⟨hresume, hs.built⟩, forall_mem_cons.mpr ⟨hC.method hm, hs.stands⟩,
    hC.frames _ hs.kept⟩
  rcases cell?_cons hv with ⟨n, -, hv⟩ | ⟨n, -, hv⟩ | hv
  · obtain ⟨type, -, rfl⟩ := Array.mem_map.mp (Array.mem_of_getElem? hv)
    unfold defaultSlot
    split
    · exact .void
    · exact holds_defaultWithin _ _ _ _
  · exact hvs v (mem_toArray.mp (Array.mem_of_getElem? hv))
  · exact hs.cells c v hv

end Stable

/-! ### Actions -/

/-- An action makes no address that is not allowed, and puts nothing at such an address. -/
def Permits (C : Custody) (p : Program) (m : Method) (n : Nat) : Action → Prop
  | .push vs => ∀ v ∈ vs, v.Holds (C.allowed n)
  | .get _ | .load _ _ => True
  | .set root v => C.allowed n (.ofRoot root) ∧ v.Holds (C.allowed n)
  | .store place v => C.allowed n place ∧ v.Holds (C.allowed n)
  | .copy _ target => C.allowed n target
  | .alloc _ v => v.Holds (C.allowed n)
  | .native f args _ => (∃ h : TypeHash, p.natives[h]? = some f) ∧ ∀ v ∈ args, v.Holds (C.allowed n)
  | .enter _ args | .construct _ _ args => ∀ v ∈ args, v.Holds (C.allowed n)
  | .goto offset => C.stands m offset

section Actions

variable {m : Method} {i : Instr} {n level : Nat} {us : List Value} {a : Action}

theorem permits_onRoot {root : Root} (hroot : C.allowed n (.ofRoot root))
    (hv : v.Holds (C.allowed n))
    (x : Access) : C.Permits p m n (x.onRoot root v) := by
  cases x with
  | get => trivial
  | set => exact ⟨hroot, hv⟩
  | address => exact forall_mem_singleton.mpr (.address hroot)

theorem permits_onPlace (hplace : C.allowed n place) (hv : v.Holds (C.allowed n)) (x : Access) :
    C.Permits p m n (x.onPlace place v) := by
  cases x with
  | get => trivial
  | set => exact ⟨hplace, hv⟩
  | address => exact forall_mem_singleton.mpr (.address hplace)

theorem permits_callAction (hvs : ∀ v ∈ vs, v.Holds (C.allowed n)) (function : TypeHash) :
    C.Permits p m n (p.callAction function vs) := by
  rcases p.callAction_cases function vs with ⟨native, hnative, heq⟩ | ⟨-, heq⟩ <;> rw [heq]
  · exact ⟨⟨function, hnative⟩, hvs⟩
  · exact hvs

/-- The operands of an instruction decide what it does. -/
theorem Stable.permits_action (hC : C.Stable p) (hs : C.Guards s)
    (hus : ∀ v ∈ us, v.Holds (C.allowed s.heap.size)) {offset : Nat} (hstands : C.stands m offset)
    (hfetch : m.fetch? offset = some i) (h : i.action p m s.heap level us = .ok a) :
    C.Permits p m s.heap.size a := by
  obtain ⟨haddr, hjump, -⟩ := hC.fetch hstands hfetch
  have hoperand : ∀ n, (us.getD n .void).Holds (C.allowed s.heap.size) := by
    intro n
    rw [getD_eq_getElem?_getD]
    cases hv : us[n]? with
    | none => exact .void
    | some v => exact hus v (mem_of_getElem? hv)
  have hreverse : ∀ v ∈ us.reverse, v.Holds (C.allowed s.heap.size) :=
    fun v hv => hus v (mem_reverse.mp hv)
  have hlit : ∀ l, C.Permits p m s.heap.size (.push [.lit l]) :=
    fun l => forall_mem_singleton.mpr (.lit l)
  have hacts := Instr.acts h
  generalize hop : i.op = op at hacts
  cases hacts with
  | constant | pushNull | pushBool | arrayLength | compare => exact hlit _
  | nop | pop | ret | retVoid | fall => exact forall_mem_nil _
  | dup => exact forall_mem_cons.mpr ⟨hoperand 0, forall_mem_singleton.mpr (hoperand 0)⟩
  | swap => exact forall_mem_cons.mpr ⟨hoperand 1, forall_mem_singleton.mpr (hoperand 0)⟩
  | localSlot => exact permits_onRoot (hC.slot ..).1 (hoperand 0) _
  | argument => exact permits_onRoot (hC.slot ..).2 (hoperand 0) _
  | staticField => exact permits_onRoot (hC.static ..) (hoperand 0) _
  | @field x _ index _ _ _ ha =>
    have hhold := hoperand 0
    rcases Access.onField_eq_ok ha with ⟨item, -, hitem, rfl⟩ | ⟨place, hplace, rfl⟩
    · obtain ⟨items, heq, hitem⟩ := Value.item?_eq_some hitem
      rw [heq] at hhold
      exact forall_mem_singleton.mpr (hhold.item item (mem_of_getElem? hitem))
    · refine permits_onPlace ?_ (hoperand 1) x
      rcases Value.memberAddress?_eq_ok hplace with ⟨id, -, rfl⟩ | ⟨b, heq, rfl⟩
      · exact hC.below ..
      · rw [heq] at hhold
        exact hC.member index hhold.allowed
  | element hplace =>
    obtain ⟨id, n, -, rfl⟩ := Heap.elementAddress_eq_ok hplace
    exact permits_onPlace (hC.below ..) (hoperand 2) _
  | newArray =>
    refine .aggregate fun v hv => ?_
    rw [eq_of_mem_replicate hv]
    exact holds_defaultWithin _ _ _ _
  | loadCaptured | loadIndirect | loadObject => trivial
  | capturedAddress hroot =>
    exact forall_mem_singleton.mpr (.address (haddr hop _ _ hroot))
  | storeIndirect hplace | storeObject hplace =>
    have htgt := hoperand 1
    rw [hplace] at htgt
    exact ⟨htgt.allowed, hoperand 0⟩
  | copyObject _ hplace =>
    have htgt := hoperand 1
    rw [hplace] at htgt
    exact htgt.allowed
  | box => exact hoperand 0
  | unbox _ ho => exact forall_mem_singleton.mpr (hs.object ho)
  | cast => exact forall_mem_singleton.mpr (hoperand 0)
  | @new function _ _ ha =>
    rcases Program.constructAction_eq_ok ha with ⟨native, hnative, rfl⟩ | ⟨-, f, type, -, -, rfl⟩
    · exact ⟨⟨function, hnative⟩, hreverse⟩
    · exact hreverse
  | call | callMethod => exact permits_callAction hreverse _
  | arith hv =>
    obtain ⟨l, rfl⟩ := Value.exists_of_arith hv
    exact hlit l
  | neg hv =>
    obtain ⟨l, rfl⟩ := UnaryOp.neg.apply_ok hv
    exact hlit l
  | not hv =>
    obtain ⟨l, rfl⟩ := UnaryOp.not.apply_ok hv
    exact hlit l
  | jump | jumpIf => exact hjump (by rw [hop]; rfl)

end Actions

/-! ### Steps

After a fault storage is still guarded. -/

namespace Sound

open Exec

variable (hC : C.Sound p) (hs : C.Guards s)
include hC hs

theorem yields_store (hplace : C.allowed s.heap.size place) (hv : v.Holds (C.allowed s.heap.size)) :
    Yields p s (Exec.store place v) (fun _ t => C.Guards t) fun _ t => C.Guards t.idle := by
  have hm := hC.materialized hs place.root
  have hsize : (s.materialize p.registry place.root).heap.size = s.heap.size := by
    rw [s.heap_materialize]
  refine Exec.yields_store (fun old new hold hnew => ?_) (fun _ _ => hC.idle hm) fun _ _ _ =>
    hC.idle hm
  exact hC.stored hm (hsize ▸ hplace) (hsize ▸ hv) hold hnew

theorem yields_enter (function : TypeHash) (resume : Resume)
    (hvs : ∀ v ∈ vs, v.Holds (C.allowed s.heap.size))
    (hresume : ∀ v, resume = .built v → v.Holds (C.allowed s.heap.size)) :
    Yields p s (enter function vs resume) (fun _ t => C.Guards t) fun _ t => C.Guards t.idle :=
  Exec.yields_enter (fun _ hm _ _ => hC.entered hs hm hvs hresume) fun _ _ => hC.idle hs

theorem yields_perform (hf : s.frames = f :: rest) {a : Action}
    (ha : C.Permits p f.method s.heap.size a) :
    Yields p s a.perform (fun _ t => C.Guards t) fun _ t => C.Guards t.idle := by
  have hm : ∀ root, C.Guards (s.materialize p.registry root) := hC.materialized hs
  have hpush : ∀ {t w}, C.Guards t → w.Holds (C.allowed t.heap.size) →
      Yields p t (push w) (fun _ t => C.Guards t) fun _ t => C.Guards t.idle :=
    fun ht hw => yields_push (hC.pushed ht (forall_mem_singleton.mpr hw))
  cases a with
  | push vs => exact yields_of_ok rfl (hC.pushed hs ha)
  | get root =>
    refine yields_fetch_bind (fun v w hv hw => ?_) (fun _ _ => hC.idle (hm root)) fun _ _ _ =>
      hC.idle (hm root)
    exact hpush (hm root) (((hm root).root hv).follow hw)
  | set root v => exact hC.yields_store hs ha.1 ha.2
  | load place accepts =>
    refine yields_fetch_bind (fun v w hv hw => ?_) (fun _ _ => hC.idle (hm _)) fun _ _ _ =>
      hC.idle (hm _)
    refine yields_checkWidth_bind (fun _ => ?_) (hC.idle (hm _))
    exact hpush (hm _) (((hm _).root hv).follow hw)
  | store place v => exact hC.yields_store hs ha.1 ha.2
  | copy source target =>
    refine yields_fetch_bind (fun v w hv hw => ?_) (fun _ _ => hC.idle (hm _)) fun _ _ _ =>
      hC.idle (hm _)
    refine yields_checkWidth_bind (fun _ => ?_) (hC.idle (hm _))
    refine hC.yields_store (hm _) ?_ (((hm _).root hv).follow hw)
    rwa [s.heap_materialize]
  | alloc type v => exact yields_alloc_bind type (hpush (hC.allocated hs type ha) (.ref _))
  | native native args constructs =>
    obtain ⟨⟨h, hnative⟩, hargs⟩ := ha
    obtain ⟨hafter, hres⟩ := hC.native hnative hs hargs
    refine yields_callNative_bind (fun v hv => ?_) fun _ _ => hC.idle hafter
    cases constructs with
    | true => exact hpush hafter (hres v hv)
    | false =>
      refine yields_pushResult (hC.pushed hafter fun w hw => ?_)
      split at hw
      · cases hw
      · rw [mem_singleton.mp hw]
        exact hres v hv
  | enter function args => exact hC.yields_enter hs function .caller ha fun v hv => by cases hv
  | construct type function args =>
    have hargs : ∀ w ∈ args, w.Holds (C.allowed (s.heap.size + 1)) :=
      fun w hw => (ha w hw).mono fun a => hC.mono (Nat.le_succ _)
    have hfresh : ∀ {v : Value} {id heap}, s.heap.alloc type v = (id, heap) →
      v.Holds (C.allowed s.heap.size) →
        C.Guards { s with heap } ∧ id = ⟨s.heap.size⟩ ∧ heap.size = s.heap.size + 1 := by
      rintro v id heap hheap hv
      have halloc := hC.allocated hs type hv
      rw [hheap] at halloc
      cases hheap
      exact ⟨halloc, rfl, Array.size_push ..⟩
    refine yields_constructOn (fun _ id heap hheap => ?_) fun _ id heap hheap => ?_
    · obtain ⟨halloc, rfl, hsize⟩ := hfresh hheap (.aggregate fun v hv => by
        obtain ⟨field, -, rfl⟩ := mem_map.mp hv
        exact holds_defaultWithin _ _ _ _)
      refine hC.yields_enter halloc function _ (forall_mem_cons.mpr ⟨.ref _, hsize ▸ hargs⟩)
        fun v hv => ?_
      cases hv
      exact .ref _
    · obtain ⟨halloc, rfl, hsize⟩ := hfresh hheap (holds_defaultWithin _ _ _ _)
      refine hC.yields_enter halloc function _
        (forall_mem_cons.mpr ⟨.address (hsize ▸ hC.cell hs.kept), hsize ▸ hargs⟩) fun v hv => ?_
      cases hv
  | goto n =>
    have hmoved := hC.moved hs hf (hs.operands f (by simp [hf])) ha
    refine yields_of_ok (exec_modify _) ?_
    have heq : (s.modifyTop fun f => { f with offset := n }) = s.moved f.stack n := by
      rw [s.moved_eq hf, State.modifyTop, hf]
    rwa [heq]

omit hC in
/-- What a caller gets has allowed addresses only. -/
theorem holds_given (hf : f ∈ s.frames) (hv : v.Holds (C.allowed s.heap.size))
    (h : f.resume.given s.heap v = .ok vs) : ∀ w ∈ vs, w.Holds (C.allowed s.heap.size) := by
  cases hresume : f.resume with rw [hresume] at h
  | host =>
    cases h
    exact forall_mem_nil _
  | caller =>
    cases h
    split
    · exact forall_mem_nil _
    · exact forall_mem_singleton.mpr hv
  | built x =>
    cases h
    exact forall_mem_singleton.mpr (hs.built f hf x hresume)
  | cell id =>
    unfold Resume.given at h
    dsimp only at h
    cases hget : s.heap.get id with rw [hget] at h
    | error e => cases h
    | ok o =>
      cases h
      exact forall_mem_singleton.mpr (hs.object hget)

/-- A call ends. The frame that goes may stand anywhere. -/
theorem yields_leave (hf : s.frames = f :: rest) (hv : v.Holds (C.allowed s.heap.size))
    (vs : List Value) (n : Nat) :
    Yields p (s.moved vs n) (leave v) (fun r t => C.Guards t ∧ ∀ w, r = .done w →
      w.Holds (C.allowed t.heap.size))
      fun _ t => C.Guards t.idle := by
  have htail := hC.tail hs hf
  rw [s.moved_eq hf]
  by_cases hhost : f.resume = .host
  · refine yields_leave_of_host rfl hhost ⟨htail, fun w hw => ?_⟩
    cases hw
    exact hv
  · refine Exec.yields_leave rfl hhost (fun ws hws => ⟨?_, fun w hw => ?_⟩) fun e _ => hC.idle htail
    · have hgiven : ∀ w ∈ ws, w.Holds (C.allowed s.heap.size) :=
        holds_given hs (f := f) (by simp [hf]) hv hws
      exact hC.pushed htail hgiven
    · cases hw

/-- A step leads from a guarded state to a guarded state. -/
theorem yields_step :
    Yields p s step (fun r t => C.Guards t ∧ ∀ w, r = .done w → w.Holds (C.allowed t.heap.size))
      fun _ t => C.Guards t.idle := by
  refine yields_step_of_parts (fun _ u u' hsame hu => hsame.idle_eq ▸ hu) (fun _ => hC.idle hs)
    (fun f rest v vs n hf hv => hC.yields_leave hs hf ?_ vs n)
    fun f rest i us vs a hf hfetch hstack hret hvoid ha => ?_
  · rcases hv with rfl | hv
    · exact .void
    · exact hs.operands f (by simp [hf]) v hv
  · have hmem : f ∈ s.frames := by simp [hf]
    have hboth := hs.operands f hmem
    rw [hstack] at hboth
    obtain ⟨hus, hvs⟩ := forall_mem_append.mp hboth
    have hstands := hs.stands f hmem
    have hpermit := hC.permits_action hs hus hstands hfetch ha
    have hdone : ∀ {t : State}, C.Guards t → C.Guards t ∧ ∀ w, Progress.running = .done w →
        w.Holds (C.allowed t.heap.size) := fun ht => ⟨ht, fun w hw => by cases hw⟩
    by_cases hjump : i.op = .jump
    · -- what stands behind a jump does not matter
      have hacts := Instr.acts ha
      rw [hjump] at hacts
      cases hacts
      have hmoved := hC.moved hs hf hvs hpermit
      rw [s.moved_eq hf] at hmoved ⊢
      exact yields_of_ok rfl (hdone hmoved)
    · have hfalls : i.op.isTerminator = false := by
        cases hop : i.op with
        | ret => exact absurd hop hret
        | retVoid => exact absurd hop hvoid
        | jump => exact absurd hop hjump
        | _ => rfl
      have hmoved := hC.moved hs hf hvs ((hC.fetch hstands hfetch).2.2 hfalls)
      have hsize : (s.moved vs i.next).heap.size = s.heap.size := by rw [s.moved_eq hf]
      have hperf := hC.yields_perform hmoved (s.frames_moved hf _ _) (hsize ▸ hpermit)
      exact ⟨fun _ t ht => hdone (hperf.ok _ t ht), hperf.error⟩

theorem guards_of_reaches (h : Reaches p s t) : C.Guards t := by
  induction h with
  | refl => exact hs
  | tail _ hstep ih => exact ((hC.yields_step ih).ok _ _ hstep).1

theorem guards_of_run (h : run p fuel s = some (result, t)) :
    C.Guards t.idle ∧ ∀ v, result = .ok v → v.Holds (C.allowed t.heap.size) := by
  induction fuel generalizing s with
  | zero => cases h
  | succ fuel ih =>
    have hstep := hC.yields_step hs
    unfold run at h
    rcases hout : step.exec p s with ⟨e | _ | v, u⟩ <;> rw [hout] at h
    · cases h
      exact ⟨hstep.error e _ hout, fun v hv => by cases hv⟩
    · exact ih (hstep.ok _ u hout).1 h
    · cases h
      obtain ⟨ht, hdone⟩ := hstep.ok _ _ hout
      refine ⟨hC.idle ht, fun w hw => ?_⟩
      cases hw
      exact hdone v rfl

omit hC hs in
theorem guards_of_invoke {m m' : Machine} (hC : C.Sound m.program) (hm : C.Guards m.state)
    (hidle : m.state.frames = []) (hvs : ∀ v ∈ vs, v.Holds (C.allowed m.state.heap.size))
    (h : m.invoke fuel function vs = some (result, m')) :
    m'.program = m.program ∧ m'.state.frames = [] ∧ C.Guards m'.state ∧
      ∀ v, result = .ok v → v.Holds (C.allowed m'.state.heap.size) := by
  cases hnative : m.program.natives[function]? with
  | some native =>
    rw [Machine.invoke_of_native hnative] at h
    cases h
    obtain ⟨hafter, hres⟩ := hC.native hnative hm hvs
    exact ⟨rfl, hidle, hafter, hres⟩
  | none =>
    rcases Machine.invoke_of_none hnative h with ⟨rfl, e, rfl, -⟩ | ⟨s, t, henter, hrun, rfl⟩
    · exact ⟨rfl, hidle, hm, fun v hv => by cases hv⟩
    · have hs := (hC.yields_enter hm function .host hvs fun v hv => by cases hv).ok _ s henter
      obtain ⟨ht, hres⟩ := hC.guards_of_run hs hrun
      rw [Machine.unwind_eq_idle hidle]
      exact ⟨rfl, rfl, ht, hres⟩

end Sound

end Custody

end StackCode
