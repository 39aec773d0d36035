import StackCode.Proofs.Places

/-!
# Spilling

A symbol is in place if the address of its own storage can be taken, or it is declared to hold an
address. This predicts what becomes of a load of its address: without temporaries it is refused
exactly for other symbols, and with temporaries it pushes the address of one exactly for other
symbols. So neither a store nor a copy of a block, which use no temporaries for the destination,
ever changes a temporary.
-/

namespace StackCode

open List Session Track State StackCode.Symbol StackCode.Frame Regime

variable {r : Registry} {n : Nat} {s st t : State} {x : Symbol} {σ : List Value} {p : Program}
  {m : Method} {rest : List Frame} {P : Root → Prop} {ts : List Temporary} {xs : List Command}
  {slots : List UInt16}

/-! ### Symbols in slots -/

/-- The storage of a symbol is in a slot of the frame, or the slot leads to it. -/
def Symbol.InSlot : Symbol → Prop
  | .localSlot _ _ _ | .argument _ _ _ => True
  | .field _ holder _ => holder.InSlot
  | _ => False

/-- A piece for a symbol in a slot. -/
def Piece.InSlot : Piece → Prop
  | .access x _ | .load x _ => x.InSlot
  | .arguments _ _ => False

/-- The code of a symbol in a slot uses no temporaries. -/
theorem Code.temporaries_of_inSlot {p : Piece} (h : Code r p ts xs) (hslot : p.InSlot) :
    ts = [] := by
  induction h with
  | localSlot | argument | staticField | capturedValue | capturedAddress | literal | noArguments
  | noParameters => rfl
  | field _ _ ih | referred _ _ _ ih | value _ _ ih | held _ _ ih | placed _ _ _ _ ih | target _ ih
  | parameter _ ih => exact ih hslot
  | @spilled x _ _ _ _ hcannot =>
    have hslot : x.InSlot := hslot
    cases x with
    | localSlot | argument | field => cases hcannot
    | _ => exact hslot.elim
  | _ => exact hslot.elim

theorem Symbol.spared_of_inSlot (h : x.InSlot → ∀ root, P root) : x.Spared n P s := by
  induction x using fieldInduction with
  | step x ih =>
    cases x with
    | localSlot | argument => exact ⟨h trivial _, fun v _ a _ => h trivial _⟩
    | field c holder f => exact ih c holder f rfl h
    | _ => trivial

/-- What stored addresses lead to, and a variable that is none of certain slots. -/
theorem Symbol.spared_of_closed (hclosed : s.Closed r (Root.Outside n slots))
    (huses : ∀ slot, x.Uses slot → slot ∉ slots) :
    x.Spared n (Root.Outside n slots) s := by
  have hleads : ∀ {root v}, root.Outside n slots → s.root r root = .ok v →
    v.Leads (Root.Outside n slots) := by
    rintro root v houtside hv a rfl
    exact (hclosed root _ houtside hv).root
  induction x using fieldInduction with
  | step x ih =>
    cases x with
    | localSlot c slot type =>
      have houtside : (Root.localSlot n slot).Outside n slots := by
        rintro t ht heq
        cases heq
        exact huses slot .slot ht
      refine ⟨houtside, fun v hv => hleads houtside ?_⟩
      have hv : (s.frame? n).bind (fun f => f.locals[slot.toNat]?) = some v := hv
      simp only [root, bind, hv]
    | argument c slot type =>
      have houtside : (Root.argument n slot).Outside n slots := fun t ht heq => by cases heq
      refine ⟨houtside, fun v hv => hleads houtside ?_⟩
      have hv : (s.frame? n).bind (fun f => f.args[slot.toNat]?) = some v := hv
      simp only [root, bind, hv]
    | field c holder f =>
      exact ih c holder f rfl fun slot hslot => huses slot (.part (by simp [parts]) hslot)
    | _ => trivial

/-! ### Programs -/

/-- Methods are for functions as registered, and native functions neither keep nor return addresses
of slots. -/
structure Program.Confined (p : Program) : Prop where
  registered : p.registry.Registered
  voidFree : p.registry.VoidFree
  functions : ∀ (h : TypeHash) m, p.methods[h]? = some m → p.registry.function? h = some m.function
  natives : ∀ (h : TypeHash) native f, p.natives[h]? = some native →
    p.registry.function? h = some f →
    native.Discreet .lasting p.registry f
  results : p.Reticent

/-- The methods that consist of statements are a program of their own. -/
theorem Program.Confined.exists_part (hp : p.Confined) : ∃ q : Program,
    q.Heeds .lasting ∧ q.Reticent ∧ q.Part (fun m => m.OfStatements p.registry) p := by
  classical
  let q : Program := { p with methods := p.methods.filter fun _ m => m.OfStatements p.registry }
  have hmeths : ∀ (h : TypeHash) m, q.methods[h]? = some m ↔
      p.methods[h]? = some m ∧ m.OfStatements p.registry := by
    intro h m
    rw [show q.methods[h]? = _ from Std.TreeMap.getElem?_filter', Option.filter_eq_some_iff,
      decide_eq_true_iff]
  refine ⟨q, ⟨hp.registered, hp.voidFree, fun h m hm => ?_, fun _ _ _ hstrict => hstrict.elim,
    hp.natives, .inl fun _ => rfl⟩, hp.results, rfl, rfl, rfl,
    fun h m hm hQ => (hmeths h m).mpr ⟨hm, hQ⟩⟩
  obtain ⟨hm, hstatements⟩ := (hmeths h m).mp hm
  exact ⟨hp.functions h m hm, hstatements⟩

/-! ### Loads, stores and copies -/

theorem Code.inPlace_of_set (h : Code r (.access x .set) ts xs) : x.inPlace r := by
  cases h with
  | field hset => exact hset rfl
  | staticField => rfl
  | localSlot | argument | element => simp [inPlace, capabilities, Capabilities.storage]

/-- The place that an action writes to. -/
def Action.target? : Action → Option Address
  | .set root _ => some (.ofRoot root)
  | .store place _ => some place
  | .copy _ target => some target
  | _ => none

/-- The frame with a number is the innermost one, and its next instruction, the last one before an
offset, writes to a place. -/
def State.Writes (p : Program) (n o : Nat) (place : Address) (s : State) : Prop :=
  ∃ f rest i us vs act, s.frames = f :: rest ∧ rest.length = n ∧ f.method.fetch? f.offset = some i ∧
    i.next = o ∧ f.stack = us ++ vs ∧ us.length = i.pops ∧
    i.action p f.method s.heap n us = .ok act ∧ act.target? = some place

/-- A value is the address of a place in one of certain local slots of a frame. -/
def Value.PointsInto (n : Nat) (slots : List UInt16) (v : Value) : Prop :=
  ∃ a, v = .address a ∧ ∃ slot ∈ slots, a.root = .localSlot n slot

/-- A symbol with a value, made by factories of symbols with values. -/
def Session.HasValue (s : Session) (x : Symbol) : Prop :=
  s.setting.Made .statements s.body.locals x ∧ x.dataType.hash ≠ .void

/-- A run to the end of some code in a frame, in which methods of statements are called. -/
def Exec.RunsThrough (p : Program) (n e : Nat) : State → State → Prop :=
  Crosses p (fun m => m.OfStatements p.registry) n e

/-- A frame of a method runs through the code between two offsets. Before, values in storage hold no
addresses of slots. -/
structure Exec.Traverses (p : Program) (m : Method) (o e : Nat) (f : Frame) (rest : List Frame)
    (s t : State) : Prop where
  start : s.At m o f rest
  stores : (Regime.lasting.meaning p.registry).Stores s
  through : RunsThrough p rest.length e s t

namespace Track

open Exec

/-- The track of a frame over others, up to where the code in question ends. -/
def ofFrame (p q : Program) (c : Setting) (m : Method) (f : Frame) (rest : List Frame) (stop : Nat)
    (P : Root → Prop) : Track :=
  ⟨p, q, fun m => m.OfStatements p.registry, c, m, f.resume, rest.map Frame.outline, stop, P⟩

variable {q : Program} {c : Setting} {f : Frame} {stop o : Nat}

theorem rests_ofFrame (hreg : q.registry = p.registry) (h : Traverses p m o stop f rest st t) :
    (ofFrame p q c m f rest stop P).Rests f.stack o st := by
  refine ⟨?_, hreg ▸ h.stores⟩
  rw [outlines, h.start.frames, map_cons, ← h.start.method, ← h.start.offset]
  rfl

theorem proper_ofFrame (hq : q.Heeds .lasting) (hres : q.Reticent)
    (hpart : q.Part (fun m => m.OfStatements p.registry) p) (hreg : c.registry = p.registry)
    (hfun : c.function = m.function) (slots : List UInt16) :
    (ofFrame p q c m f rest stop (Root.Outside rest.length slots)).Proper := by
  refine ⟨hq, hpart, hres, hreg.trans hpart.registry.symm, hfun.symm, ?_⟩
  rintro root hroot slot - rfl
  cases hroot

theorem spared_ofFrame (hclosed : st.Closed r (Root.Outside rest.length slots))
    (huses : ∀ slot, x.Uses slot → slot ∉ slots) :
    x.Spared (rest.map outline).length (Root.Outside rest.length slots) st := by
  rw [length_map]
  exact spared_of_closed hclosed huses

theorem via_ofFrame {R : State → Prop} (h : (ofFrame p q c m f rest stop P).Via st R)
    (ht : RunsThrough p rest.length stop st t) : ∃ u, R u ∧ RunsThrough p rest.length stop u t := by
  have hlen : (rest.map outline).length = rest.length := length_map _
  have ht : Crosses p (fun m => m.OfStatements p.registry) (rest.map outline).length stop st t :=
    hlen ▸ ht
  obtain ⟨u, hu, hut⟩ := h t ht
  exact ⟨u, hu, hlen ▸ hut⟩

theorem via_end {R : Value → Prop} (h : (ofFrame p q c m f rest stop P).Via st fun u => ∃ v,
      (ofFrame p q c m f rest stop P).Rests (v :: σ) stop u ∧ R v)
    (ht : RunsThrough p rest.length stop st t) :
    ∃ v g below, t.frames = g :: below ∧ g.stack = v :: σ ∧ R v := by
  obtain ⟨u, ⟨v, hu, hv⟩, hut⟩ := via_ofFrame h ht
  obtain ⟨g, below, hg, hout, -, hlen⟩ := Meaning.Rests.exists_frame hu
  obtain ⟨method, args, locals, stack, offset, resume⟩ := g
  cases hout
  cases hut.eq ⟨_, below, hg, hlen.trans (length_map _), rfl⟩
  exact ⟨v, _, below, hg, rfl, hv⟩

/-- A run to the end of some code performs its last instruction. -/
theorem exists_writes {u : State} {us : List Value} {i : Instr}
    (hu : (ofFrame p q c m f rest stop P).Rests (us ++ σ) o u) (hfetch : m.fetch? o = some i)
    (hnext : i.next = stop) (hus : us.length = i.pops) (hstays : i.op.stays)
    (hact : ∀ act, i.action p m u.heap (rest.map outline).length us = .ok act →
      ∃ place, act.target? = some place ∧ P place.root) (ht : RunsThrough p rest.length stop u t) :
    ∃ place, u.Writes p rest.length stop place ∧ P place.root := by
  have hlt := Method.lt_next hfetch
  have hlen : (rest.map outline).length = rest.length := length_map _
  have hat : ¬u.Stands rest.length stop := by
    rw [← hlen]
    intro hstands
    have heq : o = stop := (Meaning.Rests.stands_iff hu).mp hstands
    omega
  obtain ⟨w, hstep, -⟩ := ht.head hat
  obtain ⟨g, below, hg, hout, -, hbelow⟩ := Meaning.Rests.exists_frame hu
  obtain ⟨method, args, locals, stack, offset, resume⟩ := g
  cases hout
  have hbelow : below.length = rest.length := hbelow.trans hlen
  obtain ⟨act, haction, -⟩ :=
    (step_iff_perform hg hfetch (Opcode.ne_ret hstays) (Opcode.ne_retVoid hstays)
    rfl hus).mp hstep.step
  obtain ⟨place, htgt, hplace⟩ := hact act (by rwa [hlen, ← hbelow])
  exact ⟨place, ⟨_, below, i, us, σ, act, hg, hbelow, hfetch, hnext, rfl, hus, hbelow ▸ haction,
    htgt⟩, hplace⟩

end Track

namespace Session

open Exec

variable {f : Frame} {s s' : Session}

theorem Performs.locals_grow {op : Operation} (h : s.Performs r m op s') :
    s.body.locals.toList <+: m.locals.toList := by
  have hstep : Step (fun _ => True) s (s.after op) := ⟨op, h.permitted, trivial, rfl⟩
  rw [h.locals_eq]
  exact locals_of_steps (.head hstep h.continued)

theorem Performs.via_load (hp : p.Confined) (hfields : p.registry.FieldsPlain)
    (h : s.Performs p.registry m (.load x (.reference true)) s') (hx : s.HasValue x)
    (ht : Traverses p m s.offset (s.after (.load x (.reference true))).offset f rest st t) :
    ∃ v g below, t.frames = g :: below ∧ g.stack = v :: f.stack ∧
      (v.PointsInto rest.length (s.acquired (.load x (.reference true))) ↔
        x.dataType.isByRef = false ∧ x.inPlace p.registry = false) := by
  obtain ⟨ts, xs, hcode, hacquired, -, hleaves⟩ := h.load
  obtain ⟨-, -, -, -, hreg, hfun⟩ := h.inv
  rw [hacquired]
  generalize hslots : (ts.map Temporary.slot).reverse = slots
  obtain ⟨q, hq, hres, hpart⟩ := hp.exists_part
  let T := Track.ofFrame p q s.setting m f rest (s.after (.load x (.reference true))).offset
    (Root.Outside rest.length slots)
  have hT : T.Proper := proper_ofFrame hq hres hpart hreg hfun _
  have hready : (Piece.load x (.reference true)).Ready s.setting m.locals :=
    Piece.ready_load (hx.1.mono h.locals_grow) hx.2
  have hlays : T.Lays (.load x (.reference true)) ts xs s.offset
    (s.after (.load x (.reference true))).offset :=
    ⟨hreg.symm ▸ hcode, hready, hleaves.typed, hleaves.carries, Nat.le_refl _⟩
  have hs : T.Rests f.stack s.offset st := rests_ofFrame hpart.registry ht
  by_cases hplace : x.dataType.isByRef ∨ x.inPlace s.setting.registry
  · -- a symbol in a slot has no temporaries, and others lead to no slot
    have hspared : x.Spared T.below.length T.roots st := by
      refine spared_of_inSlot fun hslot root slot hmem => ?_
      rw [← hslots, hcode.temporaries_of_inSlot hslot] at hmem
      cases hmem
    obtain ⟨v, g, below, hg, hstack, hv⟩ :=
      via_end (hT.addresses x _ _ _ _ _ _ _ hlays hplace hspared hs) ht.through
    refine ⟨v, g, below, hg, hstack, iff_of_false ?_ ?_⟩
    · rintro ⟨a, rfl, slot, hslot, hroot⟩
      exact hv a rfl slot hslot hroot
    · rintro ⟨hplain, hin⟩
      rw [hreg, hplain, hin] at hplace
      simp at hplace
  · obtain ⟨hplain, hin⟩ := not_or.mp hplace
    have hplain : x.dataType.isByRef = false := by simpa using hplain
    have hin : x.inPlace s.setting.registry = false := by simpa using hin
    have hspills := hT.spills (hreg.symm ▸ hfields) x _ _ _ _ _ _ hlays hplain hin hs
    have hvia : T.Via st fun u => ∃ v, T.Rests (v :: f.stack) T.stop u ∧
      v.PointsInto rest.length slots := by
      refine hspills.mono fun u hu => ?_
      obtain ⟨a, hu, t, ht, hroot⟩ := hu
      refine ⟨_, hu, a, rfl, t.slot, ?_, ?_⟩
      · rw [← hslots]
        exact mem_reverse.mpr (mem_map_of_mem ht)
      · rw [hroot, show T.below.length = rest.length from length_map _]
    obtain ⟨v, g, below, hg, hstack, hv⟩ := via_end hvia ht.through
    exact ⟨v, g, below, hg, hstack, iff_of_true hv ⟨hplain, hreg ▸ hin⟩⟩

theorem Gives.via_store (hp : p.Confined) (h : s.Gives p.registry m x .set) (hx : s.HasValue x)
    (ht : Traverses p m s.offset (s.accessing x .set).offset f rest st t) {w : Value}
    (hstack : f.stack = w :: σ)
    (hclosed : st.Closed p.registry (Root.Outside rest.length (s.accessing x .set).temporaries)) :
    ∃ u place, u.Writes p rest.length (s.accessing x .set).offset place ∧
      place.root.Outside rest.length (s.accessing x .set).temporaries ∧
      RunsThrough p rest.length (s.accessing x .set).offset u t := by
  obtain ⟨ts, xs, hcode, hlive, hcarry⟩ := h.emits
  obtain ⟨hsane, hreg, hfun⟩ := h.sane
  have hafter := hsane.call h.grants
  obtain ⟨q, hq, hres, hpart⟩ := hp.exists_part
  let T := Track.ofFrame p q s.setting m f rest (s.accessing x .set).offset
    (Root.Outside rest.length (s.accessing x .set).temporaries)
  have hT : T.Proper := proper_ofFrame hq hres hpart hreg hfun _
  have htyped : ∀ t ∈ ts, m.locals[t.slot.toNat]? = some t.type := by
    intro t ht
    refine h.typed_live ?_
    rw [hlive]
    exact mem_append_left _ (mem_reverse.mpr ht)
  have hlays : T.Lays (.access x .set) ts xs s.offset (s.accessing x .set).offset :=
    ⟨hreg.symm ▸ hcode, ⟨hx.1.mono h.locals_grow, hx.2⟩, htyped, hcarry, Nat.le_refl _⟩
  have hs : T.Rests ([w] ++ σ) s.offset st := by
    have hs : T.Rests f.stack s.offset st := rests_ofFrame hpart.registry ht
    rwa [hstack] at hs
  have hspared : x.Spared T.below.length T.roots st := by
    refine spared_ofFrame hclosed fun slot huses hslot => ?_
    have hsize := hafter.parted.few
    have hlimit := (s.accessing x .set).setting.options.maxLocals.toNat_lt
    exact ((mem_temporaries (hsize.trans hlimit.le)).mp hslot).2 (h.mem_variableSlots huses)
  have hplace : x.inPlace s.setting.registry := hreg ▸ hcode.inPlace_of_set
  obtain ⟨u, ⟨o, i, us, hu, hfetch, hnext, hus, hstays, hdoes⟩, hut⟩ := via_ofFrame
    (hlays.via_before hT (by simp) hplace hspared (fun _ holder _ _ => hT.addresses holder) rfl hs)
      ht.through
  have hact : ∀ act, i.action p m u.heap (rest.map outline).length us = .ok act →
      ∃ place, act.target? = some place ∧ place.root.Outside rest.length
        (s.accessing x .set).temporaries := by
    intro act hact
    obtain ⟨place, v, hroot, hdoes⟩ := hdoes act hact
    refine ⟨place, ?_, hroot⟩
    rcases hdoes with rfl | ⟨root, rfl, rfl⟩ <;> rfl
  obtain ⟨place, hwrites, hroot⟩ := exists_writes hu hfetch hnext hus hstays hact hut
  exact ⟨u, place, hwrites, hroot, hut⟩

theorem Performs.via_copy (hp : p.Confined) {force : Bool} {dest source : Symbol}
    (h : s.Performs p.registry m (.assigning force dest source) s')
    (hdirect : s.setting.copyPath dest source force = .direct) (hdest : s.HasValue dest)
    (hsrc : s.HasValue source)
    (ht : Traverses p m s.offset (s.after (.assigning force dest source)).offset f rest st t)
    (hclosed : st.Closed p.registry (Root.Outside rest.length s'.temporaries)) :
    ∃ u place, u.Writes p rest.length (s.after (.assigning force dest source)).offset place ∧
      place.root.Outside rest.length s'.temporaries ∧
      RunsThrough p rest.length (s.after (.assigning force dest source)).offset u t := by
  obtain ⟨ts, xs, hcode, hheld, -, -, hleaves⟩ := h.assign
  obtain ⟨-, -, -, -, hreg, hfun⟩ := h.inv
  obtain ⟨q, hq, hres, hpart⟩ := hp.exists_part
  let T := Track.ofFrame p q s.setting m f rest (s.after (.assigning force dest source)).offset
    (Root.Outside rest.length s'.temporaries)
  have hT : T.Proper := proper_ofFrame hq hres hpart hreg hfun _
  have hplace : dest.inPlace s.setting.registry := by
    have hsuits := s.setting.suits_copyPath dest source force
    rw [hdirect] at hsuits
    exact hsuits.1
  rw [hdirect] at hcode
  cases hcode with
  | @direct ts ts' xs xs' hd hs =>
    obtain ⟨htyped, htyped'⟩ := forall_mem_append.mp hleaves.typed
    obtain ⟨o₁, hcarry, hrest⟩ := hleaves.carries.split
    obtain ⟨o₂, hcarry', hlast⟩ := hrest.split
    obtain ⟨i, hfetch, hx, hnext⟩ := hlast.single
    have hle := hlast.le
    have hle' := hcarry'.le
    have hlays : T.Lays (.load dest (.reference false)) ts xs s.offset o₁ :=
      ⟨hreg.symm ▸ hd, Piece.ready_load (hdest.1.mono h.locals_grow) hdest.2, htyped, hcarry,
        hle'.trans hle⟩
    have hlays' : T.Lays (.load source (.reference false)) ts' xs' o₁ o₂ :=
      ⟨hreg.symm ▸ hs, Piece.ready_load (hsrc.1.mono h.locals_grow) hsrc.2, htyped', hcarry', hle⟩
    have hrests : T.Rests f.stack s.offset st := rests_ofFrame hpart.registry ht
    have hspared : dest.Spared T.below.length T.roots st :=
      spared_ofFrame hclosed (hleaves.apart dest hheld)
    -- the address of the source comes on top of that of the destination, which stays as it is
    have hvia : T.Via st fun u => ∃ v w, T.Rests ([w, v] ++ f.stack) o₂ u ∧ v.Leads T.roots := by
      refine (hT.addresses dest _ _ _ _ _ _ _ hlays (.inr hplace) hspared hrests).trans fun u hu =>
        ?_
      obtain ⟨v, hu, hv⟩ := hu
      refine (hlays'.via_moves hT (hlays'.moves hT) hu).mono fun t ht => ?_
      obtain ⟨ws, ht, hws⟩ := ht
      obtain ⟨w, _, -, hnil, rfl⟩ := forall₂_cons_left_iff.mp hws
      cases forall₂_nil_left_iff.mp hnil
      exact ⟨v, w, ht, hv⟩
    obtain ⟨u, ⟨v, w, hu, hv⟩, hut⟩ := via_ofFrame hvia ht.through
    have hpops : [w, v].length = i.pops := by
      rw [Instr.pops, hx.1]
      rfl
    have hstays : i.op.stays := by
      rw [hx.1]
      rfl
    have hact : ∀ act, i.action p m u.heap (rest.map outline).length [w, v] = .ok act →
        ∃ place, act.target? = some place ∧ place.root.Outside rest.length s'.temporaries := by
      intro act hact
      have hacts := Instr.acts hact
      rw [hx.1] at hacts
      cases hacts
      rename_i _ hb
      exact ⟨_, rfl, hv _ hb⟩
    obtain ⟨place, hwrites, hroot⟩ := exists_writes hu hfetch hnext hpops hstays hact hut
    exact ⟨u, place, hwrites, hroot, hut⟩

/-- In-place addressability predicts spilling. A load of an address without temporaries is refused
for a symbol exactly if it is neither by reference nor in place; a load with temporaries pushes an
address inside of a temporary of its own exactly for such symbols; and what a store or a copy of a
block writes to is in no temporary, if no address in storage is. -/
theorem in_place_predicts_spilling {p : Program} (hp : p.Confined)
    (hfields : p.registry.FieldsPlain) :
    (∀ (c : Setting) (b : Body) (x : Symbol), x.context = c.id →
      (((Emission.load x (.reference false)).outcome c b).1 =
          .error (.missingCapability (c.registry.describe x.dataType) .justAddress) ↔
        x.dataType.isByRef = false ∧ x.inPlace c.registry = false)) ∧
    (∀ (m : Method) (s s' : Session) (x : Symbol),
      s.Performs p.registry m (.load x (.reference true)) s' →
      s.HasValue x → ∀ f rest st t,
      Traverses p m s.offset (s.after (.load x (.reference true))).offset f rest st t →
        ∃ v g below, t.frames = g :: below ∧ g.stack = v :: f.stack ∧
          (v.PointsInto rest.length (s.acquired (.load x (.reference true))) ↔
            x.dataType.isByRef = false ∧ x.inPlace p.registry = false)) ∧
    (∀ (m : Method) (s : Session) (x : Symbol), s.Gives p.registry m x .set → s.HasValue x →
      ∀ f rest st t w σ, Traverses p m s.offset (s.accessing x .set).offset f rest st t →
      f.stack = w :: σ →
      st.Closed p.registry (Root.Outside rest.length (s.accessing x .set).temporaries) →
        ∃ u place, u.Writes p rest.length (s.accessing x .set).offset place ∧
          place.root.Outside rest.length (s.accessing x .set).temporaries ∧
          RunsThrough p rest.length (s.accessing x .set).offset u t) ∧
    ∀ (m : Method) (s s' : Session) (force : Bool) (dest source : Symbol),
      s.Performs p.registry m (.assigning force dest source) s' →
      s.setting.copyPath dest source force = .direct → s.HasValue dest → s.HasValue source →
      ∀ f rest st t,
      Traverses p m s.offset (s.after (.assigning force dest source)).offset f rest st t →
      st.Closed p.registry (Root.Outside rest.length s'.temporaries) →
        ∃ u place, u.Writes p rest.length (s.after (.assigning force dest source)).offset place ∧
          place.root.Outside rest.length s'.temporaries ∧
          RunsThrough p rest.length (s.after (.assigning force dest source)).offset u t :=
  ⟨fun _ _ _ hcontext => Emission.load_refused_iff hcontext,
    fun _ _ _ _ h hx _ _ _ _ ht => h.via_load hp hfields hx ht,
    fun _ _ _ h hx _ _ _ _ _ _ ht hstack hclosed => h.via_store hp hx ht hstack hclosed,
    fun _ _ _ _ _ _ h hdirect hdest hsource _ _ _ _ ht hclosed =>
      h.via_copy hp hdirect hdest hsource ht hclosed⟩

end Session

/-! ### Runs that are computed -/

instance (n o : Nat) (s : State) : Decidable (s.Stands n o) :=
  decidable_of_iff (∃ f ∈ s.frames.head?, s.frames.length = n + 1 ∧ f.offset = o) (by
    unfold State.Stands
    cases s.frames <;> simp)

namespace Exec

variable {Q : Method → Prop} {e depth : Nat}

/-- The machine runs until a frame comes to an offset, with so many steps and frames at most. -/
def walk (p : Program) (n e depth : Nat) : Nat → State → Option State
  | 0, _ => none
  | fuel + 1, s =>
    if s.Stands n e then some s else
    match step.exec p s with
    | (.ok .running, t) => if t.depth ≤ depth then walk p n e depth fuel t else none
    | _ => none

theorem crosses_of_walk (hQ : depth ≤ n + 1 ∨ ∀ m, Q m) {fuel : Nat}
    (h : walk p n e depth fuel s = some t) : Crosses p Q n e s t := by
  induction fuel generalizing s with
  | zero => cases h
  | succ fuel ih =>
    unfold walk at h
    split at h
    · rename_i hstands
      cases h
      exact ⟨.refl, hstands⟩
    · rename_i hbefore
      split at h
      · rename_i u hstep
        split at h
        · rename_i hdepth
          obtain ⟨hrun, hstands⟩ := ih h
          refine ⟨.head ⟨hbefore, hstep, fun k f hk hf => ?_⟩ hrun, hstands⟩
          rcases hQ with hfew | hQ
          · have hlt := lt_of_frame? hf
            omega
          · exact hQ _
        · cases h
      · cases h

end Exec

theorem Regime.stores_of_plain {G : Regime} (hformed : ∀ f ∈ s.frames, f.Formed)
    (hframes : ∀ f ∈ s.frames, ∀ v, v ∈ f.args ∨ v ∈ f.locals → G.Plain v)
    (hheap : ∀ o ∈ s.heap.objects, G.Plain o.value) (hstatics : s.statics = ∅)
    (hcapt : s.captured = ∅) :
    (G.meaning r).Stores s := by
  have hslots : ∀ {k f}, s.frame? k = some f → (s.world (G.meaning r).holdings).methods[k]? =
    some f.method :=
    fun hf => (s.methods_getElem? _).trans (hf ▸ rfl)
  refine ⟨hformed, fun c v hv => ?_⟩
  cases c with
  | localSlot k n =>
    obtain ⟨f, hf, hv⟩ := Option.bind_eq_some_iff.mp hv
    exact ⟨_, hslots hf,
      means_of_plain (hframes f (mem_of_frame? hf) v (.inr (Array.mem_of_getElem? hv))) _⟩
  | argument k n =>
    obtain ⟨f, hf, hv⟩ := Option.bind_eq_some_iff.mp hv
    exact ⟨_, hslots hf,
      means_of_plain (hframes f (mem_of_frame? hf) v (.inl (Array.mem_of_getElem? hv))) _⟩
  | static => simp [cell?, hstatics] at hv
  | object id =>
    obtain ⟨o, ho, rfl⟩ := Option.map_eq_some_iff.mp hv
    exact hheap o (Array.mem_of_getElem? ho)
  | captured => simp [cell?, hcapt] at hv

/-- Instance fields and static fields are declared without indirection, as can be seen from the
entries. -/
theorem Registry.fieldsPlain_of_entries (h : ∀ e ∈ r.fields.toList, e.2.type.isByRef = false) :
    r.FieldsPlain :=
  fun hash f hf => h (hash, f) (Std.TreeMap.mem_toList_iff_getElem?_eq_some.mpr hf)

/-! ### A place that is found by way of a temporary -/

namespace Detour

/-- A value type with one field. -/
def single : TypeDecl := (TypeDecl.named "Single" (.value 4 4)).withField "a" (.plain .int32) false

/-- A reference type whose instances hold such a value. -/
def node : TypeDecl := (TypeDecl.named "Node" .reference).withField "p" (.plain single.hash) false

/-- A native function that is given an integer by reference and finds an object. -/
def find : FunctionDecl := .free "find" [⟨"k", .plain .int32, .inOut⟩] (.plain node.hash)

/-- A function that hands back what it is given by reference. -/
def handBack : FunctionDecl := .free "open" [⟨"k", .plain .int32, .inOut⟩] (.byRef .int32)

def look : FunctionDecl := .free "look" [⟨"y", .plain single.hash, .byValue⟩] .void

@[irreducible] def registry : Registry := Request.registry [.primitives, .type single, .type node,
  .function find, .function handBack, .function look]

/-- The argument, the number five, the object that is found with it, what this holds, and its field.
Also what is handed back if the number is given. -/
def directions : List Direction :=
  [.make (.argument 0), .make (.literal (.int32 5)), .make (.call find.hash none [1]),
    .make (.field 2 "p"),
   .make (.field 3 "a"), .make (.call handBack.hash none [1])]

/-- The session that the directions lead to. -/
def session : Session := Method.script registry look directions

/-- The symbols of the session, the last one first. -/
def symbol (n : Nat) : Symbol := session.symbols.getD n default

def program : Program := ⟨registry, ∅, Std.TreeMap.empty.insert find.hash (.constant (.ref ⟨0⟩)), 2⟩

/-- The frame of a call, with one slot for a temporary. -/
def frame (m : Method) (stack : List Value) : Frame :=
  ⟨m, #[.aggregate [.int32 7]], #[.int32 0], stack, 0, .host⟩

/-- The frame over a heap with one node, which holds a value. -/
def state (m : Method) (stack : List Value) : State where
  frames := [frame m stack]
  heap := ⟨#[⟨node.hash, .aggregate [.aggregate [.int32 3]]⟩]⟩
  statics := ∅
  captured := ∅

/-- The method that is finished after an operation. -/
def method (op : Operation) : Method := (session.after op).method

/-- The method that is finished after a store to the field. -/
def storing : Method := (session.accessing (symbol 1) .set).method

/-- The address of a symbol is loaded, with temporaries. -/
def loading (n : Nat) : Operation := .load (symbol n) (.reference true)

/-- The argument is copied to the object. -/
def copying : Operation := .assigning false (symbol 2) (symbol 5)

theorem evaluation_session :
    registry.VoidFree ∧ (∀ e ∈ registry.fields.toList, e.2.type.isByRef = false) ∧
    (registry.function? find.hash = some find ∧ find.returns.isVoid = false) ∧
    (Session.start ⟨0⟩ registry look .default).Follows Discipline.statements.Allows directions ∧
    session.symbols.length = 6 ∧ session.offset = 0 ∧
    (∀ n < 6, (symbol n).dataType.hash ≠ .void ∧ (symbol n).context = ⟨0⟩) ∧
    session.setting.copyPath (symbol 2) (symbol 5) false = .direct ∧
    (∀ n < 6, ((symbol n).dataType.isByRef = false ∧ (symbol n).inPlace registry = false) ↔ n = 3 ∨
      n = 4) := by
  decide +kernel

theorem evaluation_operations : (∀ op ∈ [loading 0, loading 2, loading 4, copying],
      (session.perform op).1.toBool = true ∧ (session.after op).context.finish.toBool = true ∧
        (method op).locals.size = 1 ∧ (session.after op).temporaries = [0]) ∧
    (∀ op ∈ [loading 2, loading 4, copying],
      (Exec.walk program 0 (session.after op).offset 1 20 (state (method op) [])).isSome) ∧
    ∀ n ∈ [0, 2, 4], session.acquired (loading n) = [0] := by
  decide +kernel

theorem evaluation_storing :
    (session.accessing (symbol 1) .set).context.finish.toBool = true ∧ storing.locals.size = 1 ∧
    (session.accessing (symbol 1) .set).body.locals.toList <+: storing.locals.toList ∧
    (session.call (.access (symbol 1) .set)).1.toBool = true ∧
    (session.accessing (symbol 1) .set).temporaries = [0] ∧
    storing.chunk.code.toList =
      (session.accessing (symbol 1) .set).body.emitter.chunk.code.toList ++
      storing.chunk.code.toList.drop (session.accessing (symbol 1) .set).offset ∧
    (session.accessing (symbol 1) .set).body.emitter.constants.constants.toList <+:
      storing.constants.constants.toList ∧
    (Exec.walk program 0 (session.accessing (symbol 1) .set).offset 1 20
      (state storing [.int32 9])).isSome := by
  decide +kernel

theorem confined_program : program.Confined := by
  obtain ⟨hvoid, -, ⟨hfind, hres⟩, -⟩ := evaluation_session
  have hnatives : ∀ (h : TypeHash) native f, program.natives[h]? = some native →
      registry.function? h = some f → native = .constant (.ref ⟨0⟩) ∧ f = find := by
    intro h native f hnative hf
    rw [program, Std.TreeMap.getElem?_insert] at hnative
    split at hnative
    · rename_i heq
      cases Std.LawfulEqOrd.eq_of_compare heq
      cases hnative
      exact ⟨rfl, Option.some.inj (hf.symm.trans hfind)⟩
    · simp at hnative
  have hreg : registry.Registered := by
    unfold registry
    exact Registry.registered_of_requests _
  refine ⟨hreg, hvoid, fun h m hm => ?_, fun h native f hnative hf => ?_,
    fun h native f hnative hf heap args v _ _ hv => ?_⟩
  · simp [program] at hm
  · obtain ⟨rfl, rfl⟩ := hnatives h native f hnative hf
    refine ⟨fun heap args hheap _ => hheap, fun heap args e _ _ he => (by cases he),
      fun heap args v _ _ hv => ?_⟩
    cases hv
    rw [if_neg (by decide), if_neg (by rw [hres]; decide)]
    exact ⟨rfl, means_of_plain (.ref _) _⟩
  · obtain ⟨rfl, rfl⟩ := hnatives h native f hnative hf
    cases hv
    exact .ref _

theorem stores_state (hfun : m.function = look) (hlocs : m.locals.size = 1) (stack : List Value) :
    (lasting.meaning registry).Stores (state m stack) := by
  have hint (n : Int) : lasting.Plain (.int32 n) := .lit _
  have hsingle (n : Int) : lasting.Plain (.aggregate [.int32 n]) :=
    .aggregate (forall_mem_singleton.mpr (hint n))
  refine stores_of_plain (forall_mem_singleton.mpr ⟨hlocs.symm, ?_⟩)
    (forall_mem_singleton.mpr fun v hv => ?_) (fun o ho => ?_) rfl rfl
  · exact (congrArg FunctionDecl.stackArity hfun).symm
  · simp only [frame, mem_toArray, mem_singleton] at hv
    rcases hv with rfl | rfl
    · exact hsingle _
    · exact hint _
  · simp only [state, mem_toArray, mem_singleton] at ho
    subst ho
    exact .aggregate (forall_mem_singleton.mpr (hsingle _))

theorem steps_session :
    Session.Steps Discipline.statements.Allows (Session.start ⟨0⟩ registry look .default)
    session := by
  obtain ⟨-, -, -, hfollows, -⟩ := evaluation_session
  exact steps_enact hfollows

theorem mem_symbols (hn : n < 6) : symbol n ∈ session.symbols := by
  obtain ⟨-, -, -, -, hlen, -⟩ := evaluation_session
  rw [symbol, getD_eq_getElem?_getD, getElem?_eq_getElem (hlen ▸ hn), Option.getD_some]
  exact getElem_mem _

theorem setting_session : session.setting = (Session.start ⟨0⟩ registry look .default).setting := by
  obtain ⟨-, -, -, hsetting⟩ := (inv_start ⟨0⟩ registry look .default _).steps steps_session
  exact hsetting

theorem hasValue (hn : n < 6) : session.HasValue (symbol n) := by
  obtain ⟨-, -, -, -, -, -, htys, -⟩ := evaluation_session
  obtain ⟨segs, hinv, -, -⟩ := (inv_start ⟨0⟩ registry look .default _).steps steps_session
  exact ⟨hinv.symbols _ (mem_symbols hn), (htys n hn).1⟩

theorem performs (op : Operation) (hsyms : ∀ x ∈ op.symbols, x ∈ session.symbols)
    (hlabels : op.labels = []) (hscopes : op.scopes = [])
    (hok : (session.perform op).1.toBool = true)
    (hfin : (session.after op).context.finish.toBool = true) :
    session.Performs registry (method op) op (session.after op) ∧ (method op).function = look := by
  have hsteps : Session.Steps (fun _ => True) (Session.start ⟨0⟩ registry look .default)
    session := by
    refine steps_session.lift (fun s => s) fun s s' hstep => ?_
    obtain ⟨op, hpermit, -, hperf⟩ := hstep
    exact ⟨op, hpermit, trivial, hperf⟩
  refine ⟨performs_of_steps hsteps hsyms hlabels hscopes hok hfin, ?_⟩
  rw [method, function_method (finish_method hfin), setting_after, setting_session]
  rfl

theorem performs_loading (hn : n ∈ [0, 2, 4]) :
    session.Performs registry (method (loading n)) (loading n) (session.after (loading n)) ∧
      (method (loading n)).function = look ∧ (method (loading n)).locals.size = 1 := by
  obtain ⟨hops, -⟩ := evaluation_operations
  have hmem : loading n ∈ [loading 0, loading 2, loading 4, copying] :=
    mem_append_left [copying] (mem_map_of_mem hn)
  have hlt : n < 6 := by
    simp only [mem_cons, not_mem_nil, or_false] at hn
    omega
  obtain ⟨hok, hfin, hsize, -⟩ := hops _ hmem
  obtain ⟨hperf, hfun⟩ := performs (loading n)
    (by simpa [loading, Operation.symbols] using mem_symbols hlt) rfl rfl hok hfin
  exact ⟨hperf, hfun, hsize⟩

/-- A frame that runs through the code of an operation. -/
theorem traverses (hfun : m.function = look) (hlocs : m.locals.size = 1) {e : Nat}
    {stack : List Value} (hwalk : (Exec.walk program 0 e 1 20 (state m stack)).isSome) :
    ∃ t, Exec.Traverses program m session.offset e (frame m stack) [] (state m stack) t := by
  obtain ⟨-, -, -, -, -, hoff, -⟩ := evaluation_session
  obtain ⟨t, ht⟩ := Option.isSome_iff_exists.mp hwalk
  exact ⟨t, ⟨rfl, rfl, hlocs.symm, hoff.symm⟩, stores_state hfun hlocs stack,
    Exec.crosses_of_walk (.inl le_rfl) ht⟩

theorem gives : session.Gives registry storing (symbol 1) .set ∧ storing.function = look := by
  obtain ⟨hfinish, -, hlocs, hacc, -, hbytes, hconsts, -⟩ := evaluation_storing
  obtain ⟨-, -, -, -, -, hoff, -⟩ := evaluation_session
  have hfin := finish_method hfinish
  have hgrants : session.Grants (.access (symbol 1) .set) := by
    simp only [Session.Grants, Call.symbols, mem_singleton, forall_eq]
    exact .inl (mem_symbols (by decide))
  have hcalls : Session.Calls (Session.start ⟨0⟩ registry look .default) session := by
    refine steps_session.lift (fun s => s) fun s s' hstep => ?_
    obtain ⟨op, hpermit, -, hperf⟩ := hstep
    exact ⟨.operation op, hpermit.symbols, hperf⟩
  obtain ⟨hsane, -⟩ := (sane_start _ _ _ _).calls hcalls
  have hfun : storing.function = look := by
    rw [storing, function_method hfin, setting_call, setting_session]
    rfl
  have hvalid : storing.constants.Valid := by
    have hpool := (hsane.call hgrants).owned.pool
    obtain ⟨-, ⟨-, -, hm⟩ | ⟨-, hm⟩⟩ := Context.finish_ok hfin <;> (rw [storing, hm]; exact hpool)
  refine ⟨⟨⟨⟨0⟩, .default, hfun ▸ hcalls⟩, mem_symbols (by decide), exists_of_toBool hacc,
    ⟨[], storing.chunk.code.toList.drop (session.accessing (symbol 1) .set).offset, hoff.symm, ?_⟩,
    hconsts, hvalid, hlocs⟩, hfun⟩
  rwa [hoff]

theorem closed_state (m : Method) (stack : List Value) (T : List UInt16) :
    (state m stack).Closed registry (Root.Outside 0 T) :=
  closed_of_values rfl rfl rfl (by simp [frame, Value.int32])
    (by simp [frame, Value.int32]) (by simp [state, Value.int32])

/-- A method that returns the address it is given. No statement does this. -/
def handsBack : Method := let s := Method.script registry handBack [.make (.argument 0)]
  let t := s.after (.load (s.symbols.headD default) (.reference false))
  ⟨handBack, t.body.emitter.chunk.writeOp .ret 1, t.body.emitter.constants, t.body.locals⟩

/-- The program with this method. -/
def handing : Program :=
  { program with methods := Std.TreeMap.empty.insert handBack.hash handsBack }

theorem evaluation_handing :
    (symbol 0).dataType.isByRef = true ∧ (symbol 0).inPlace registry = true ∧
    (Exec.walk handing 0 (session.after (loading 0)).offset 2 20
      (state (method (loading 0)) [])).map (fun t => t.frames.map stack) =
        some [[.address (.ofRoot (.localSlot 0 0))]] := by
  decide +kernel

/-- The place of the value in the object that is found is loaded by way of a temporary, and so it is
when something is stored to its field or the whole is copied. The number that is given spills. -/
theorem detour_spills_the_number :
    (∀ n < 6,
      ((Emission.load (symbol n) (.reference false)).outcome session.setting session.body).1 =
      .error (.missingCapability (session.setting.registry.describe (symbol n).dataType)
        .justAddress) ↔
        n = 3 ∨ n = 4) ∧
    (∀ n ∈ [2, 4], ∃ t v g below,
      Exec.RunsThrough program 0 (session.after (loading n)).offset (state (method (loading n)) [])
        t ∧
      t.frames = g :: below ∧ g.stack = [v] ∧ (v.PointsInto 0 [0] ↔ n = 4)) ∧
    (∃ (u : State) (place : Address), u.Writes program 0 (session.accessing (symbol 1) .set).offset
      place ∧
      place.root.Outside 0 [0]) ∧
    ∃ (u : State) (place : Address), u.Writes program 0 (session.after copying).offset place ∧
      place.root.Outside 0 [0] := by
  obtain ⟨-, hfields, -, -, -, -, htypes, hdirect, hspills⟩ := evaluation_session
  obtain ⟨hops, hwalks, hacquired⟩ := evaluation_operations
  obtain ⟨-, hlocals, -, -, htemporaries, -, -, hwalk⟩ := evaluation_storing
  have hregistry : session.setting.registry = registry := by rw [setting_session]; rfl
  obtain ⟨hrefused, hload, hstore, hcopy⟩ :=
    Session.in_place_predicts_spilling confined_program (Registry.fieldsPlain_of_entries hfields)
  refine ⟨fun n hn => ?_, fun n hn => ?_, ?_, ?_⟩
  · rw [hrefused _ _ _ ((htypes n hn).2.trans (by rw [setting_session]; rfl)), hregistry]
    exact hspills n hn
  · have hcases : n = 2 ∨ n = 4 := by simpa using hn
    have hmem : n ∈ [0, 2, 4] := List.mem_cons_of_mem _ hn
    obtain ⟨hperforms, hfunction, hsize⟩ := performs_loading hmem
    obtain ⟨t, ht⟩ := traverses hfunction hsize
      (hwalks (loading n) (List.mem_append_left [copying] (List.mem_map_of_mem hn)))
    obtain ⟨v, g, below, hg, hstack, hv⟩ := hload _ _ _ _ hperforms (hasValue (by omega)) _ _ _ _ ht
    have hv : v.PointsInto 0 (session.acquired (loading n)) ↔ _ := hv
    rw [hacquired n hmem] at hv
    refine ⟨t, v, g, below, ht.through, hg, hstack, hv.trans ((hspills n (by omega)).trans ?_)⟩
    omega
  · obtain ⟨hgives, hfunction⟩ := gives
    obtain ⟨t, ht⟩ := traverses hfunction hlocals hwalk
    obtain ⟨u, place, hwrites, hroot, -⟩ :=
      hstore _ _ _ hgives (hasValue (by decide)) _ _ _ _ _ _ ht rfl
      (closed_state _ _ _)
    exact ⟨u, place, hwrites, htemporaries ▸ hroot⟩
  · obtain ⟨hok, hfinish, hsize, htemporaries⟩ := hops copying (by simp)
    obtain ⟨hperforms, hfunction⟩ := performs copying
      (by simpa [copying, Operation.assigning, Operation.symbols] using
        ⟨mem_symbols (by decide), mem_symbols (by decide)⟩) rfl rfl hok hfinish
    obtain ⟨t, ht⟩ := traverses hfunction hsize (hwalks copying (by simp))
    obtain ⟨u, place, hwrites, hroot, -⟩ :=
      hcopy _ _ _ _ _ _ hperforms hdirect (hasValue (by decide))
      (hasValue (by decide)) _ _ _ _ ht (closed_state _ _ _)
    exact ⟨u, place, hwrites, htemporaries ▸ hroot⟩

/-- A method may hand back the address that it is given. What it returns is declared to be an
address, and yet this is the address of the temporary that holds the number. -/
theorem handed_back_address_is_the_temporary :
    ((symbol 0).dataType.isByRef = true ∧ (symbol 0).inPlace registry = true ∧
      session.HasValue (symbol 0)) ∧
    session.Performs registry (method (loading 0)) (loading 0) (session.after (loading 0)) ∧
    (Regime.lasting.meaning registry).Stores (state (method (loading 0)) []) ∧
    ∃ t g, Exec.Crosses handing (fun _ => True) 0 (session.after (loading 0)).offset
      (state (method (loading 0)) []) t ∧ t.frames = [g] ∧
      ∃ v, g.stack = [v] ∧ v.PointsInto 0 (session.acquired (loading 0)) := by
  obtain ⟨-, -, hacquired⟩ := evaluation_operations
  obtain ⟨hbyRef, hplace, hwalk⟩ := evaluation_handing
  obtain ⟨hperforms, hfunction, hsize⟩ := performs_loading (n := 0) (by simp)
  obtain ⟨t, ht, hstacks⟩ := Option.map_eq_some_iff.mp hwalk
  obtain ⟨g, hg, hstack⟩ := List.map_eq_singleton_iff.mp hstacks
  refine ⟨⟨hbyRef, hplace, hasValue (by decide)⟩, hperforms, stores_state hfunction hsize [], t, g,
    Exec.crosses_of_walk (.inr fun _ => trivial) ht, hg, _, hstack, _, rfl, 0, ?_, rfl⟩
  rw [hacquired 0 (by simp)]
  exact List.mem_singleton_self 0

end Detour

end StackCode
