import StackCode.Proofs.AddressSteps
import StackCode.Proofs.Scripts

/-!
# Runs of methods that consist of statements

Machines whose methods consist of statements never run out of operands and never meet malformed
code, as long as the host passes values and not `void`. Wherever a frame stands at a statement
boundary or a jump target, its operand stack is empty. A method returns a value exactly if its
function has a result.

Addresses do not matter here: this is the meaning of kinds where all of them are free, with faults
that have nothing to do with the stack or the form of code.
-/

namespace StackCode

open List Regime Listing Registry

variable {r : Registry} {κ : Type} {p : Program} {ks : List Kind} {native : Native}
  {args : List Value}

/-- A native function behaves as its declaration says: given clean values, or nothing for addresses,
it keeps the heap clean, fails only with faults of its own, and returns a value exactly if it is a
constructor or a function with a result. -/
structure Native.Proper (r : Registry) (h : TypeHash) (native : Native) : Prop where
  heap : ∀ heap args, heap.Clean → (∀ v ∈ args, Kind.loose.Fits v) → (native heap args).2.Clean
  fault : ∀ heap args e, heap.Clean → (∀ v ∈ args, Kind.loose.Fits v) →
    (native heap args).1 = .error e → e.Benign
  result : ∀ heap args v, heap.Clean → (∀ v ∈ args, Kind.loose.Fits v) →
    (native heap args).1 = .ok v → ∀ f, r.function? h = some f →
      if f.kind = .constructor ∨ f.returns.isVoid = false then v.Clean else v = .void

/-- The methods of a program consist of statements, for functions as they are registered. Nothing
but results is `void`, and native functions behave as they are declared. -/
structure Program.Disciplined (p : Program) : Prop where
  registered : p.registry.Registered
  voidFree : p.registry.VoidFree
  methods : ∀ (h : TypeHash) (m : Method), p.methods[h]? = some m →
    p.registry.function? h = some m.function ∧ m.OfStatements p.registry
  natives : ∀ (h : TypeHash) (native : Native), p.natives[h]? = some native →
    native.Proper p.registry h

/-- A machine between two calls from the host. -/
structure Machine.Disciplined (m : Machine) : Prop where
  program : m.program.Disciplined
  clean : m.state.Clean
  idle : m.state.frames = []

/-! ### All addresses are free -/

/-- Values may hold any addresses, and places need not be there. -/
def Regime.unbounded : Regime where
  free _ := True
  strict := False
  heap h := h.elim

theorem Value.Clean.within {v : Value} (h : v.Clean) : v.Within fun _ => True := by
  induction h with
  | lit l => exact .lit l
  | ref id => exact .ref id
  | address a => exact .address trivial
  | aggregate _ ih => exact .aggregate ih

namespace Regime

variable {v : Value} {s : State}

theorem unbounded_plain_iff : unbounded.Plain v ↔ v.Clean :=
  ⟨fun h => h.clean, fun h => ⟨h, h.within⟩⟩

theorem Means.fits {W : World} {k : Kind} (h : unbounded.Means r W k v) : k.Fits v := by
  cases k with
  | clean => exact h.clean
  | loose =>
    rcases h with rfl | h | ⟨a, rfl, -⟩
    · exact .inl rfl
    · exact .inr h.clean
    · exact .inr (.address a)

theorem loose_of_means {W : World} {vs : List Value} (h : Forall₂ (unbounded.Means r W) ks vs) :
    ∀ v ∈ vs, Kind.loose.Fits v := by
  induction h with
  | nil => simp
  | cons hv _ ih => exact forall_mem_cons.mpr ⟨hv.fits.loose, ih⟩

theorem unbounded_kept_iff : (unbounded.meaning r).Kept s ↔ s.Clean := by
  constructor
  · refine fun h => ⟨fun o ho => ?_, fun hash v hv => (h.static hash v hv).clean,
      fun hash vs hvs v hv => ?_⟩
    · obtain ⟨n, hn⟩ := Array.mem_iff_getElem?.mp ho
      exact (h.object ⟨n⟩ o hn).clean
    · obtain ⟨n, hn⟩ := Array.mem_iff_getElem?.mp hv
      exact (h.captured hash vs n v hvs hn).clean
  · exact fun h => ⟨fun hash v hv => unbounded_plain_iff.mpr (h.statics hash v hv),
      fun id o ho => unbounded_plain_iff.mpr (h.heap o (Array.mem_of_getElem? ho)),
      fun hash vs n v hvs hv => unbounded_plain_iff.mpr
        (h.captured hash vs hvs v (Array.mem_of_getElem? hv))⟩

end Regime

theorem Native.Proper.discreet {h : TypeHash} (hproper : native.Proper r h) {f : FunctionDecl}
    (hf : r.function? h = some f) : native.Discreet .unbounded r f := by
  have hclean {heap : Heap} (hheap : ∀ o ∈ heap.objects, Regime.unbounded.Plain o.value) :
    heap.Clean :=
    fun o ho => (hheap o ho).clean
  have hloose {args : List Value} (hargs : Regime.unbounded.Passed r f args) : ∀ v ∈ args,
    Kind.loose.Fits v := by
    obtain ⟨W, hargs | hargs⟩ := hargs <;> exact loose_of_means hargs
  refine ⟨fun heap args hheap hargs o ho => ?_, fun _ _ _ _ _ _ hstrict => hstrict.elim,
    fun heap args v hheap hargs hv => ?_⟩
  · exact unbounded_plain_iff.mpr (hproper.heap heap args (hclean hheap) (hloose hargs) o ho)
  · have hres := hproper.result heap args v (hclean hheap) (hloose hargs) hv f hf
    by_cases hkind : f.kind = .constructor
    · rw [if_pos (.inl hkind)] at hres
      rw [if_pos hkind]
      exact unbounded_plain_iff.mpr hres
    · rw [if_neg hkind]
      cases hvoid : f.returns.isVoid with
      | true =>
        rwa [if_neg (by simp [hkind, hvoid])] at hres
      | false =>
        rw [if_pos (.inr hvoid)] at hres
        exact ⟨hres.isVoid, means_of_plain (unbounded_plain_iff.mpr hres) _⟩

theorem Program.Disciplined.heeds (hp : p.Disciplined) : p.Heeds .unbounded where
  registered := hp.registered
  voidFree := hp.voidFree
  methods := hp.methods
  captures _ _ _ hstrict := hstrict.elim
  natives h native _ hnative hf := (hp.natives h native hnative).discreet hf
  cells := .inl fun _ => trivial

/-! ### Other faults -/

namespace Meaning

variable {S : Meaning κ} {s : State} {ks : List κ} {a : Action}

/-- The same meaning, where other faults are harmless. -/
def sparing (S : Meaning κ) (harmless : Fault → Prop) : Meaning κ := { S with Harmless := harmless }

variable {harmless : Fault → Prop} (hroots : ∀ (s : State) root e,
  s.root p.registry root = .error e → harmless e)
include hroots

theorem Meets.sparing (h : S.Meets p s ks a) (hnative : ∀ f args constructs,
    a = .native f args constructs →
      ∀ e, (f s.heap args).1 = .error e → harmless e) : (S.sparing harmless).Meets p s ks a := by
  have hfinds root : (S.sparing harmless).Finds p s root := fun e he => hroots _ root e he
  cases a with
  | push | alloc | enter | construct | goto => exact h
  | get root => exact ⟨hfinds root, h.2⟩
  | set root v => exact ⟨h.1, hfinds root, h.2.2⟩
  | load place => exact ⟨hfinds place.root, h.2⟩
  | store place v => exact ⟨h.1, hfinds place.root, h.2.2⟩
  | copy source target =>
    exact ⟨h.1, hfinds source.root, fun v w hv hw hacc =>
      ⟨hfinds target.root, (h.2.2 v w hv hw hacc).2⟩⟩
  | native f args constructs => exact ⟨hnative f args constructs rfl, h.2⟩

/-- Only faults have to be looked at again. -/
theorem Governs.sparing (hp : S.Governs p) (hordinary : ∀ e : Fault, e.Ordinary → harmless e)
    (hfault : ∀ {s f rest x i pops pushes us e}, S.Site p s f rest x i pops pushes us →
      i.action p f.method s.heap rest.length us = .error e → harmless e)
    (hnative : ∀ {s f rest x i pops pushes us native args constructs e},
      S.Site p s f rest x i pops pushes us →
      i.action p f.method s.heap rest.length us = .ok (.native native args constructs) →
        (native s.heap args).1 = .error e → harmless e) : (S.sparing harmless).Governs p := by
  have hsite {s f rest x i pops pushes us} (h : (S.sparing harmless).Site p s f rest x i pops pushes
    us) :
      S.Site p s f rest x i pops pushes us :=
    ⟨h.frames, h.fetch, h.encoded, h.argc, h.slots, h.effect, h.operands, h.stores.formed,
      h.stores.cells⟩
  exact {
    start := hp.start
    slots := hp.slots
    statics := hp.statics
    ordinary := hordinary
    pops := hp.pops
    jump := hp.jump
    ret := hp.ret
    retVoid := hp.retVoid
    fault := fun h he => hfault (hsite h) he
    meets := fun h hlabel ha => (hp.meets (hsite h) hlabel ha).sparing hroots
      fun f args constructs heq e he => hnative (hsite h) (heq ▸ ha) he }

end Meaning

/-- A native function is called with the operands. -/
theorem Instr.exists_native {m : Method} {i : Instr} {heap : Heap} {level : Nat} {us : List Value}
    {f : Native} {constructs : Bool} (h : i.action p m heap level us =
      .ok (.native f args constructs)) :
    (∃ hash : TypeHash, p.natives[hash]? = some f) ∧ args = us.reverse := by
  have hcall {function : TypeHash} (h : .native f args constructs =
    p.callAction function us.reverse) :
      (∃ hash : TypeHash, p.natives[hash]? = some f) ∧ args = us.reverse := by
    rcases p.callAction_cases function us.reverse with ⟨native, hnative, heq⟩ | ⟨-, heq⟩ <;>
      cases h.trans heq
    exact ⟨⟨function, hnative⟩, rfl⟩
  generalize heq : Action.native f args constructs = a at h
  have hacts := acts h
  generalize i.op = op at hacts
  cases hacts with
  | @localSlot _ x | @argument x | @staticField x | @element x => cases x <;> cases heq
  | @field x _ _ _ _ _ ha =>
    rcases Access.onField_eq_ok ha with ⟨_, -, -, rfl⟩ | ⟨_, -, rfl⟩
    · cases heq
    · cases x <;> cases heq
  | @new function _ _ ha =>
    rcases Program.constructAction_eq_ok ha with ⟨native, hnative, rfl⟩ | ⟨-, _, _, -, -, rfl⟩ <;>
      cases heq
    exact ⟨⟨function, hnative⟩, rfl⟩
  | call | callMethod => exact hcall heq
  | _ => cases heq

theorem Program.Disciplined.governs (hp : p.Disciplined) :
    ((Regime.unbounded.meaning p.registry).sparing Fault.Benign).Governs p := by
  refine hp.heeds.governs.sparing (fun s root e => State.benign_of_root) (fun e he => he.benign)
    (fun hsite he => ?_) fun hsite ha he => ?_
  · exact (Tame.action (Method.resolves_of_effect hsite.encoded hsite.effect.1) _ _ _ _ he).benign
  · obtain ⟨⟨hash, hnative⟩, rfl⟩ := Instr.exists_native ha
    refine (hp.natives hash _ hnative).fault _ _ _ (unbounded_kept_iff.mp hsite.stores.kept).heap
      (fun v hv => ?_) he
    exact loose_of_means hsite.operands v (mem_reverse.mp hv)

/-! ### Statement boundaries and jump targets -/

namespace StackRules

variable {C : StackRules κ}

/-- How much is on the stack before commands is decided by what they do. -/
theorem Passes.length_eq (effect? : Command → Option (List κ × List κ))
    (hC : ∀ {x pops pushes}, C.effect x pops pushes → effect? x = some (pops, pushes))
    {ks ls ks' ls' : List κ} {xs ys : List Command} (h : C.Passes ks xs ls) :
    C.Passes ks' ys ls' → xs.map effect? = ys.map effect? → ls.length = ls'.length →
    ks.length = ks'.length := by
  induction h generalizing ys ks' with
  | nil hks =>
    intro h' heq hls
    cases map_eq_nil_iff.mp heq.symm
    cases h' with
    | nil hks' => rw [hks.length_eq, hks'.length_eq, hls]
  | cons hx hks _ _ ih =>
    intro h' heq hls
    cases h' with
    | nil => cases heq
    | cons hy hks' _ hys =>
      obtain ⟨heff, heq⟩ := cons_eq_cons.mp heq
      rw [hC hx, hC hy] at heff
      cases heff
      have hlen := ih hys heq hls
      have hpops := hks.length_eq.trans hks'.length_eq.symm
      simp only [length_append] at hlen ⊢
      omega

end StackRules

namespace Regime

variable {G : Regime} {m : Method} {offset : Nat} {ls : List Kind}

/-- At a point of a method there is always as much on the stack. -/
theorem length_eq_of_points (h : (G.rules r m).Point m offset ks)
    (h' : (G.rules r m).Point m offset ls) :
    ks.length = ls.length := by
  obtain ⟨c, d, segs, pre, y, post, hbuilt, -, hsplit, hoff, hpasses⟩ := h
  obtain ⟨c', d', segs', pre', y', post', hbuilt', -, hsplit', hoff', hpasses'⟩ := h'
  have hlaid := hbuilt.holds.laid
  have hlaid' := hbuilt'.holds.laid
  have hcode := hbuilt.holds.unique hbuilt'.holds
  have henc := hbuilt.encoded
  have henc' := hbuilt'.encoded
  rw [hsplit, code_append] at hlaid
  rw [hsplit', code_append] at hlaid'
  rw [hsplit, hsplit', code_append, code_append] at hcode
  rw [hsplit] at henc
  rw [hsplit'] at henc'
  have hend : endOf 0 (code pre) = endOf 0 (code pre') := by
    rw [← hlaid.offset_mid.1, ← hlaid'.offset_mid.1]
    exact hoff.symm.trans hoff'
  rw [eq_of_endOf hcode hend] at hcode
  have heff {x : Command} {pops pushes : List Kind} (hx : (G.rules r m).effect x pops pushes) :
      (m.env r).effect? x = some (pops, pushes) := hx.1
  refine hpasses.length_eq (m.env r).effect? heff hpasses'
    (effects_eq _ (fun y hy => henc y ?_) (fun y hy => henc' y ?_) (append_cancel_left hcode)) rfl
  · exact mem_append_right _ hy
  · exact mem_append_right _ hy

theorem lt_of_point (h : (G.rules r m).Point m offset ks) : offset < m.chunk.size := by
  obtain ⟨c, d, segs, pre, y, post, hbuilt, -, hsplit, rfl, -⟩ := h
  have hmem : y.2 ∈ code segs.flatten := by simp [hsplit, code]
  have hlt := hbuilt.holds.laid.offset_lt_endOf hmem
  rw [Instr.length_bytes] at hlt
  rw [hbuilt.size]
  omega

/-- At a statement boundary and at a jump target the stack is empty. -/
theorem eq_nil_of_point (hr : r.Registered) (h : (unbounded.rules r m).Point m offset ks)
    (hplace : m.Boundary r offset ∨ m.JumpTarget offset) : ks = [] := by
  have hlt := lt_of_point h
  have hempty : (unbounded.rules r m).Point m offset [] → ks = [] := fun hpoint =>
    length_eq_zero_iff.mp (length_eq_of_points h hpoint)
  apply hempty
  rcases hplace with hplace | hplace
  · obtain ⟨c, segs, k, hbuilt, rfl, rfl⟩ := hplace.exists_cut
    refine StackRules.point_cut hbuilt (fun seg hseg => ?_) hlt
    obtain ⟨ts, hsegment, hts⟩ := hbuilt.segments seg hseg
    have hpasses := hsegment.passes hr hts
    rw [hbuilt.env] at hpasses
    exact passes_of_kinds hpasses fun hstrict => hstrict.elim
  · obtain ⟨c, d, segs, -, -, -, hbuilt, hsegs, -⟩ := h
    obtain ⟨k, rfl⟩ := hbuilt.exists_cut_of_jump hplace
    exact StackRules.point_cut hbuilt hsegs hlt

end Regime

/-- Every frame stands at a point whose operands it has, apart from what it waits for. -/
theorem Meaning.Stacked.mem {S : Meaning κ} {bottom : Method} {H : Holdings} {ks : List κ}
    {σ : List Outline} (h : S.Stacked p (.host bottom) H ks σ) {o : Outline} (ho : o ∈ σ) :
    ∃ W ks ls, (S.rules o.method).Point o.method o.offset (ks ++ ls) ∧
    Forall₂ (S.Means W) ls o.stack := by
  induction h with
  | host _ hpoint hstack =>
    rw [mem_singleton.mp ho]
    exact ⟨_, _, _, hpoint, hstack⟩
  | resting hground => cases hground
  | called _ hpoint hstack _ _ ih =>
    rcases mem_cons.mp ho with rfl | ho
    · exact ⟨_, _, _, hpoint, hstack⟩
    · exact ih ho

/-! ### Calls from the host -/

namespace Machine

theorem invoke_native {m : Machine} (hm : m.Disciplined) {function : TypeHash}
    (hargs : ∀ v ∈ args, v.Clean) (hnative : m.program.natives[function]? = some native)
    {fuel : Nat}
    {result : Except Fault Value} {m' : Machine}
    (h : m.invoke fuel function args = some (result, m')) :
    m'.Disciplined ∧ ∀ e, result = .error e → e.Benign := by
  have hproper := hm.program.natives function native hnative
  have hloose : ∀ v ∈ args, Kind.loose.Fits v := fun v hv => .inr (hargs v hv)
  rw [invoke_of_native hnative] at h
  cases h
  refine ⟨⟨hm.program, ⟨?_, hm.clean.statics, hm.clean.captured⟩, hm.idle⟩, fun e he => ?_⟩
  · exact hproper.heap _ _ hm.clean.heap hloose
  · exact hproper.fault _ _ e hm.clean.heap hloose he

/-- Whatever a machine runs whose methods consist of statements, it does not run out of operands and
does not meet malformed code, the operand stack is empty at statement boundaries and jump targets,
and a method returns `void` exactly if its function has no result. -/
theorem invoke_keeps_stack_discipline (m : Machine) (hm : m.Disciplined) (function : TypeHash)
    (args : List Value) (hargs : ∀ v ∈ args, v.Clean) :
    (∀ fuel result m', m.invoke fuel function args = some (result, m') → m'.Disciplined ∧
      (∀ e, result = .error e → e.Benign) ∧
      (m.program.natives[function]? = none → ∀ method, m.program.methods[function]? = some method →
        ∀ v, result = .ok v → (v = .void ↔ method.function.returns.isVoid))) ∧
    ∀ s s', (Exec.enter function args .host).exec m.program m.state = (.ok (), s) →
      Exec.Reaches m.program s s' → ∀ f ∈ s'.frames,
        f.method.Boundary m.program.registry f.offset ∨ f.method.JumpTarget f.offset →
          f.stack = [] := by
  have hp := hm.program.governs
  have hkept : ((Regime.unbounded.meaning m.program.registry).sparing Fault.Benign).Kept
    m.state := by
    have hkept := Regime.unbounded_kept_iff (r := m.program.registry).mpr hm.clean
    exact ⟨hkept.static, hkept.object, hkept.captured⟩
  have hmeans : ∀ method, m.program.methods[function]? = some method →
      args.length = method.function.stackArity → ∀ (n : Nat) v, args[n]? = some v →
      Regime.unbounded.Means m.program.registry ⟨fun _ => none, [method]⟩
        ((method.env m.program.registry).argumentKind n) v := fun _ _ _ n v hv =>
    Regime.means_of_plain (Regime.unbounded_plain_iff.mpr (hargs v (List.mem_of_getElem? hv))) _
  refine ⟨fun fuel result m' h => ?_, fun s s' henter hreaches f hf hplace => ?_⟩
  · cases hnative : m.program.natives[function]? with
    | some native =>
      obtain ⟨hm', hbenign⟩ := invoke_native hm hargs hnative h
      exact ⟨hm', hbenign, nofun⟩
    | none =>
      obtain ⟨hprogram, hidle, hkept', hresult, hbenign⟩ := hp.invoke hkept hm.idle hmeans hnative h
      have hclean : (Regime.unbounded.meaning m.program.registry).Kept m'.state :=
        ⟨hkept'.static, hkept'.object, hkept'.captured⟩
      refine ⟨⟨hprogram ▸ hm.program, Regime.unbounded_kept_iff.mp hclean, hidle⟩, hbenign,
        fun _ method hmethod v hv => ?_⟩
      · obtain ⟨method', hmethod', hreturned⟩ := hresult v hv
        cases hmethod.symm.trans hmethod'
        have hreturned : Regime.unbounded.Returned method.function v := hreturned
        unfold Regime.Returned at hreturned
        split at hreturned
        · simp [*]
        · simp [*, hreturned.clean.ne_void]
  · obtain ⟨method, -, hexpects⟩ := (hp.yields_enter_host hkept hm.idle hmeans).ok _ _ henter
    obtain ⟨W, ks, ls, hpoint, hstack⟩ :=
      (hp.reaches hexpects hreaches).stacked.mem (List.mem_map_of_mem hf)
    obtain ⟨-, rfl⟩ := List.append_eq_nil_iff.mp
      (Regime.eq_nil_of_point hm.program.registered hpoint hplace)
    exact List.forall₂_nil_left_iff.mp hstack

end Machine

/-! ### A statement that discards a result -/

namespace Discard

/-- A function that returns its argument. -/
def identity : FunctionDecl := .free "identity" [⟨"x", .plain .int32, .byValue⟩] (.plain .int32)

/-- A function that calls it and discards the result. -/
def discard : FunctionDecl := .free "discard" [⟨"x", .plain .int32, .byValue⟩] .void

def registry : Registry := Request.registry [.function identity, .function discard]

def scripts : List (FunctionDecl × List Direction) :=
  [(identity, [.make (.argument 0), .returnValue (some 0)]),
   (discard, [.make (.argument 0), .make (.call identity.hash none [0]), .statement 1,
     .returnValue none])]

/-- A machine with both functions. -/
def machine : Machine := ⟨.ofScripts registry scripts, .initial⟩

theorem evaluation : registry.VoidFree ∧ Program.Scripted registry scripts .statements ∧
    (machine.invoke 10 discard.hash [.void]).map Prod.fst = some (.error (.stackUnderflow 7)) ∧
    (machine.invoke 10 discard.hash [.int32 5]).any (fun outcome => outcome.1.toBool) = true := by
  decide +kernel

theorem disciplined_program : machine.program.Disciplined where
  registered := registered_of_requests _
  voidFree := evaluation.1
  methods h m hm := by
    obtain ⟨hmem, rfl⟩ := Program.mem_of_ofMethods hm
    exact evaluation.2.1.ofStatements hmem
  natives h native hnative := by
    rw [machine, Program.ofScripts, Program.natives_ofMethods] at hnative
    cases hnative

theorem disciplined_machine : machine.Disciplined :=
  ⟨disciplined_program, State.clean_initial, rfl⟩

end Discard

namespace Machine

/-- A host that passes `void` lets a method that consists of statements run out of operands: the
call in its statement gives nothing, and the statement discards one value nevertheless. -/
theorem void_argument_underflows :
    Discard.machine.Disciplined ∧
      ∃ m', Discard.machine.invoke 10 Discard.discard.hash [.void] =
        some (.error (.stackUnderflow 7), m') := by
  obtain ⟨-, -, hresult, -⟩ := Discard.evaluation
  obtain ⟨⟨result, m'⟩, hinvoke, rfl⟩ := Option.map_eq_some_iff.mp hresult
  exact ⟨Discard.disciplined_machine, m', hinvoke⟩

/-- With a number in place of `void` the same call ends well. -/
theorem discard_keeps_stack_discipline :
    ∃ v m', Discard.machine.invoke 10 Discard.discard.hash [.int32 5] = some (.ok v, m') ∧
      m'.Disciplined ∧ v = .void := by
  obtain ⟨-, hscripts, -, hok⟩ := Discard.evaluation
  have hclean : ∀ v ∈ [Value.int32 5], v.Clean := List.forall_mem_singleton.mpr (.lit _)
  obtain ⟨hruns, -⟩ := invoke_keeps_stack_discipline Discard.machine Discard.disciplined_machine
    Discard.discard.hash [.int32 5] hclean
  match hinvoke : Discard.machine.invoke 10 Discard.discard.hash [.int32 5], hok with
  | some (.ok v, m'), _ =>
    obtain ⟨hm', -, hreturned⟩ := hruns 10 _ m' hinvoke
    have hmethod := hscripts.methods (.tail _ (.head _))
    exact ⟨v, m', rfl, hm', (hreturned (Program.natives_ofMethods ..) _ hmethod v rfl).mpr rfl⟩

end Machine

end StackCode
