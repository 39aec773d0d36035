import StackCode.Proofs.Assignment
import StackCode.Proofs.Temporaries

/-!
# Address, value and store

A symbol that stands for storage has three pieces of code: one pushes its address, one pushes what
it holds, one pops a value into it. They are emitted one by one, at any time and in any order, and
all three find the same place.
-/

namespace StackCode

open Emission List Session Boxed StackCode.Symbol

variable {x : Symbol} {xs : List Command} {p : Program} {s : Session} {κ : Literal → Literal}
  {ts : List Temporary}

/-! ### Sessions of all calls -/

namespace Session

variable {s' : Session} {k : Call}

/-- The symbols that a call is given are held by the user, or they belong to other contexts. -/
def Grants (s : Session) (k : Call) : Prop :=
  ∀ x ∈ k.symbols, x ∈ s.symbols ∨ x.context ≠ s.setting.id

/-- Calls one after the other, whatever comes of them. -/
abbrev Calls : Session → Session → Prop :=
  Relation.ReflTransGen fun s s' => ∃ k, s.Grants k ∧ s' = (s.call k).2

/-- What is known of a context whatever was asked of it. -/
structure Sane (s : Session) : Prop where
  made : ∀ x ∈ s.symbols, s.setting.Made .free s.body.locals x
  knows : s.Knows
  parted : s.Parted
  owned : s.body.emitter.Owned s.setting.id

theorem sane_start (id : ContextId) (r : Registry) (function : FunctionDecl)
    (options : EmitOptions) :
    (start id r function options).Sane where
  made x hx := by cases hx
  knows := knows_start id r function options
  parted := parted_start id r function options
  owned := (owned_start id r function options).emitter

theorem locals_call (s : Session) (k : Call) :
    s.body.locals.toList <+: (s.call k).2.body.locals.toList := by
  by_cases hk : k.Declares
  · obtain ⟨type, rfl⟩ := hk
    rcases s.call_declare type with ⟨hslots, -⟩ | ⟨-, hslots, -⟩ <;>
      rw [show (s.call _).2.body.locals = _ from congrArg Slots.locals hslots]
    · exact prefix_refl _
    · simp [Slots.declare, Body.slots]
  · obtain ⟨m, -, hdraws, hslots, -⟩ := s.call_slots hk
    have hlocs : (s.call k).2.body.locals = m.locals := by
      rcases hslots with hslots | hslots <;> exact congrArg Slots.locals hslots
    rw [hlocs]
    exact hdraws.grows.1

/-- A symbol that is handed out was made, and its slots are known or new. -/
theorem Sane.handed_out (h : s.Sane) (hgrants : s.Grants k) {b : Body}
    (hout : k.emission.outcome s.setting s.body = (.ok (.symbol x), b))
    (hlocs : s.body.locals.toList <+: b.locals.toList) :
    s.setting.Made .free b.locals x ∧ ∀ slot, x.Uses slot → (∃ y ∈ s.symbols, y.Uses slot) ∨
      (∃ c type, x = .localSlot c slot type) ∧ slot.toNat = s.body.locals.size := by
  cases k with
  | operation op =>
    refine ⟨?_, fun slot huses => ?_⟩
    · rcases handed_out_cases hout with ⟨f, rfl, hx⟩ | ⟨slot, type, rfl, hslot, hpush⟩
      · obtain ⟨-, -, hctx⟩ := Factory.make_ok hx
        refine .factory hx trivial fun p hp => (h.made p ?_).mono hlocs
        exact (hgrants p hp).resolve_right fun hne => hne (hctx p hp)
      · refine .declared ?_
        rw [hpush, hslot]
        simp
    · exact uses_handed_out hgrants hout huses
  | _ =>
    obtain ⟨_, _, -, hpure⟩ := bind_ok hout
    cases hpure

theorem Sane.call (h : s.Sane) (hgrants : s.Grants k) : (s.call k).2.Sane := by
  have hlocs := s.locals_call k
  have howned := k.loyal s.setting s.body s.setting.id h.owned
  have hkept : ∀ x ∈ s.symbols, s.setting.Made .free (s.call k).2.body.locals x :=
    fun x hx => (h.made x hx).mono hlocs
  rcases s.call_cases k with ⟨e, b, hout, hcall⟩ | ⟨a, b, hout, hcall⟩
  · rw [hout] at howned
    have hparted := h.parted.call k
    rw [hcall] at hparted hkept ⊢
    exact ⟨hkept, h.knows, hparted, howned⟩
  · rw [hout] at howned
    have hbody : (s.call k).2.body = b := by
      rw [hcall]
      cases a <;> rfl
    have hsetting := s.setting_call k
    rw [hbody] at hkept hlocs
    have hsyms : (s.call k).2.symbols = s.symbols ∨ ∃ x, a = .symbol x ∧
        (s.call k).2.symbols = x :: s.symbols := by
      rw [hcall]
      cases a with
      | symbol x => exact .inr ⟨x, rfl, rfl⟩
      | _ => exact .inl rfl
    refine ⟨?_, h.knows.extend ?_, h.parted.call k, by rwa [hbody, hsetting]⟩
    · rw [hbody, hsetting]
      rcases hsyms with hsame | ⟨x, rfl, hnew⟩
      · rwa [hsame]
      · rw [hnew]
        exact forall_mem_cons.mpr ⟨(h.handed_out hgrants hout hlocs).1, hkept⟩
    · rcases hsyms with hsame | ⟨x, rfl, hnew⟩
      · exact .inl hsame
      · exact .inr ⟨x, hnew, (h.handed_out hgrants hout hlocs).2⟩

theorem Sane.calls (h : s.Sane) (hcalls : s.Calls s') : s'.Sane ∧ s'.setting = s.setting := by
  induction hcalls with
  | refl => exact ⟨h, rfl⟩
  | tail _ hstep ih =>
    obtain ⟨k, hgrants, rfl⟩ := hstep
    exact ⟨ih.1.call hgrants, (setting_call _ k).trans ih.2⟩

end Session

/-! ### Code in a method -/

theorem Method.carries_of_bytes {m : Method} {before after : List UInt8} {code : List Instr}
    (hbytes : m.chunk.code.toList = before ++ (code.flatMap Instr.bytes ++ after))
    (hlaid : Laid before.length code) (henc : Forall₂ (Command.Encoded m.constants) xs code) :
    m.Carries before.length xs (endOf before.length code) := by
  induction henc generalizing before with
  | nil => exact .nil
  | @cons x i xs code hx hrest ih =>
    obtain ⟨hoff, hfits, hlaid⟩ := hlaid
    rw [flatMap_cons, append_assoc] at hbytes
    have hfetch := Method.fetch?_of_bytes before _ hbytes hoff.symm hfits
    have hnext : (before ++ i.bytes).length = i.next := by
      rw [length_append, Instr.length_bytes, Instr.next, hoff]
      omega
    have hbytes' : m.chunk.code.toList = before ++ i.bytes ++
      (code.flatMap Instr.bytes ++ after) := by
      rw [hbytes, append_assoc]
    have hcarry := ih hbytes' (by rwa [hnext])
    rw [hnext] at hcarry
    rw [endOf_cons _ i code hoff]
    exact .cons (hoff ▸ hfetch) hx hcarry

namespace Session

/-- The call for the code of a symbol by itself. -/
abbrev accessing (s : Session) (x : Symbol) (a : Access) : Session := (s.call (.access x a)).2

theorem symbols_accessing (s : Session) (x : Symbol) (a : Access) :
    (s.accessing x a).symbols = s.symbols := by
  rcases s.call_cases (.access x a) with ⟨e, b, -, hcall⟩ | ⟨answer, b, hout, hcall⟩ <;>
    rw [accessing, hcall]
  obtain ⟨_, _, -, hpure⟩ := bind_ok (x := Emission.emitAccess x a) hout
  cases hpure
  rfl

/-- The offset at which code is emitted next. -/
def offset (s : Session) : Nat := s.body.emitter.offset

/-- The slots of the temporaries that the code of an access uses. -/
def taken (s : Session) (x : Symbol) (a : Access) : List UInt16 :=
  ((s.accessing x a).body.live.take ((s.accessing x a).body.live.length - s.body.live.length)).map
    Temporary.slot

/-- The user of a context holds a symbol, and the code of an access to it is accepted. A method has
this code at the same offsets, with the constants and the slots that were there. -/
structure Gives (s : Session) (r : Registry) (m : Method) (x : Symbol) (a : Access) : Prop where
  started : ∃ id options, Calls (start id r m.function options) s
  held : x ∈ s.symbols
  accepted : ∃ answer, (s.call (.access x a)).1 = .ok answer
  bytes : ∃ before after, before.length = s.offset ∧ m.chunk.code.toList =
    before ++ ((s.accessing x a).body.emitter.chunk.code.toList.drop s.offset ++ after)
  constants : (s.accessing x a).body.emitter.constants.Extends m.constants
  valid : m.constants.Valid
  locals : (s.accessing x a).body.locals.toList <+: m.locals.toList

namespace Gives

variable {r : Registry} {m : Method} {a : Access}

section

variable (h : s.Gives r m x a)
include h

theorem sane : s.Sane ∧ s.setting.registry = r ∧ s.setting.function = m.function := by
  obtain ⟨id, options, hcalls⟩ := h.started
  obtain ⟨hsane, hsetting⟩ := (sane_start id r m.function options).calls hcalls
  exact ⟨hsane, by rw [hsetting]; rfl, by rw [hsetting]; rfl⟩

/-- The code stands in the method, and its temporaries are live. -/
theorem emits : ∃ ts xs, Code r (.access x a) ts xs ∧ (s.accessing x a).body.live = ts.reverse ++
    s.body.live ∧
    m.Carries s.offset xs (s.accessing x a).offset := by
  obtain ⟨hsane, hreg, -⟩ := h.sane
  obtain ⟨answer, hacc⟩ := h.accepted
  obtain ⟨b, hout, hbody⟩ := call_ok hacc
  obtain ⟨u, b', haccess, hpure⟩ := bind_ok (x := Emission.emitAccess x a) hout
  cases hpure
  obtain ⟨-, hemits⟩ := emits_access s.setting x a s.body hsane.owned.pool
  rw [haccess] at hemits
  obtain ⟨ts, xs, hcode, hemit⟩ := hemits u rfl
  rw [hreg] at hcode
  have hbody : (s.accessing x a).body = b := hbody
  refine ⟨ts, xs, hcode, hbody ▸ hemit.live, ?_⟩
  obtain ⟨code, hlaid, hchunk, henc⟩ := hemit.appends.commands
  obtain ⟨before, after, hlen, hbytes⟩ := h.bytes
  have hdrop : b.emitter.chunk.code.toList.drop s.offset = code.flatMap Instr.bytes := by
    have hsize : s.offset = s.body.emitter.chunk.code.toList.length := Array.length_toList.symm
    rw [hchunk, Chunk.code_writeBytes, hsize, drop_left]
  have hconsts := h.constants
  rw [hbody] at hbytes hconsts
  rw [hdrop] at hbytes
  have hlaid : Laid before.length code := by rwa [hlen]
  have hcarry :=
    Method.carries_of_bytes hbytes hlaid (henc.imp fun _ _ hx => Command.Encoded.mono hconsts hx)
  have hend : endOf before.length code = (s.accessing x a).offset := by
    rw [offset, hbody, Emitter.offset, hchunk, Chunk.size_writeBytes, endOf, hlen]
    rfl
  rwa [hend, hlen] at hcarry

theorem code : ∃ ts xs, Code r (.access x a) ts xs ∧ s.taken x a = (ts.map Temporary.slot).reverse ∧
    m.Carries s.offset xs (s.accessing x a).offset := by
  obtain ⟨ts, xs, hcode, hlive, hcarry⟩ := h.emits
  refine ⟨ts, xs, hcode, ?_, hcarry⟩
  rw [taken, hlive]
  simp

theorem grants : s.Grants (.access x a) := by
  simp only [Grants, Call.symbols, mem_singleton, forall_eq]
  exact .inl h.held

theorem locals_grow : s.body.locals.toList <+: m.locals.toList :=
  (s.locals_call (.access x a)).trans h.locals

theorem typed_live {t : Temporary} (ht : t ∈ (s.accessing x a).body.live) :
    m.locals[t.slot.toNat]? = some t.type := by
  have htyped : (s.accessing x a).body.locals[t.slot.toNat]? = some t.type :=
    (h.sane.1.call h.grants).parted.typed t (mem_append_right _ ht)
  obtain ⟨more, hmore⟩ := h.locals
  rw [← Array.getElem?_toList] at htyped ⊢
  rwa [← hmore, List.getElem?_append_left (List.getElem?_eq_some_iff.mp htyped).1]

theorem mem_variableSlots {slot : UInt16} (huses : x.Uses slot) :
    slot ∈ (s.accessing x a).variableSlots := by
  obtain ⟨-, -, -, -, hvars⟩ := s.call_slots (k := .access x a) (by rintro ⟨_, ⟨⟩⟩)
  rw [accessing, hvars]
  exact h.sane.1.knows x h.held slot huses

end

/-- The scene on which the code is run. -/
def scene (p : Program) (m : Method) (s : Session) (x : Symbol) (a : Access) (level : Nat) :
    Scene :=
  ⟨p, m, s.setting, .free, level, s.taken x a, fun _ => True, m.constants.kept⟩

/-- The temporaries of the code are declared, and the symbol does not use them. -/
theorem taken_apart (h : s.Gives r m x a) :
    ∀ t ∈ s.taken x a, t.toNat < m.locals.size ∧ ¬x.Uses t := by
  obtain ⟨hsane, -, -⟩ := h.sane
  have hafter := hsane.call h.grants
  intro t ht
  obtain ⟨u, hu, rfl⟩ := mem_map.mp ht
  have hlive : u ∈ (s.accessing x a).body.slots.pooled ++ (s.accessing x a).body.slots.live :=
    mem_append_right _ (mem_of_mem_take hu)
  have hslot :=
    mem_append_right (s.accessing x a).variableSlots (mem_map_of_mem (f := Temporary.slot) hlive)
  refine ⟨?_, fun huses => ?_⟩
  · have hlt := hafter.parted.lt_size hslot
    have hle := h.locals.length_le
    exact Nat.lt_of_lt_of_le hlt hle
  · have hdist := (nodup_append.mp hafter.parted.distinct).2.2
    exact hdist u.slot (h.mem_variableSlots huses) u.slot (mem_map_of_mem hlive) rfl

theorem ready (h : s.Gives r m x a) (hx : x.Evaluable (fun _ => True) False) {st : State}
    (htyped : x.Typed m.constants.kept p st) (n : Nat) : (scene p m s x a n).Ready x st := by
  obtain ⟨hsane, -, -⟩ := h.sane
  exact ⟨(hsane.made x h.held).mono h.locals_grow, hx.boxing, htyped,
    fun slot huses hslot => (h.taken_apart slot hslot).2 huses⟩

end Gives

end Session

/-! ### One place -/

namespace Exec

variable {α : Type} {T U : List UInt16} {o o' : Nat} {x : Exec α} {y : Exec Unit} {s s' : State}
  {L : Array Value} {vs : List Value} {Q : α → Array Value → List Value → Prop} {e : Fault}

end Exec

namespace Session

end Session

/-! ### A field of a pair that is passed by reference -/

namespace PairField

/-- A function that is given a pair by reference. -/
def writer : FunctionDecl := .free "write" [⟨"pair", .plain Boxed.pair.hash, .inOut⟩] .void

/-- The pair that is passed by reference. -/
def pair : Symbol := .argument ⟨0⟩ 0 (.byRef Boxed.pair.hash)

/-- The second field of the pair. -/
def second : Symbol := .field ⟨0⟩ pair Boxed.second

/-- A context whose user holds some symbols. -/
def holding (symbols : List Symbol) : Session :=
  { Session.start ⟨0⟩ Boxed.registry writer .default with symbols }

/-- The address is emitted first, then the value, then the store. -/
def session : Access → Session
  | .address => holding [second, pair]
  | .get => (holding [second, pair]).accessing second .address
  | .set => ((holding [second, pair]).accessing second .address).accessing second .get

/-- The method that is finished after the store. -/
def method : Method := ((session .set).accessing second .set).method

def program : Program := ⟨Boxed.registry, ∅, ∅, 1⟩

/-- The frame of a call with the address of an object. -/
def frame : Frame := ⟨method, #[.address (.ofRoot (.heap ⟨0⟩))], #[], [], 0, .host⟩

/-- The pair is in an object of its own. -/
def state : State where
  frames := [frame]
  heap := ⟨#[⟨Boxed.pair.hash, .aggregate [.int32 3, .int32 5]⟩]⟩
  statics := ∅
  captured := ∅

theorem evaluation_registry : registry.field? pair.valueType.hash "b" = some Boxed.second ∧
    registry.kind? pair.valueType.hash = some (.value 8 4) ∧
    registry.kind? second.valueType.hash = some (.primitive (.int .int32)) := by
  decide +kernel

theorem evaluation_code (a : Access) :
    ((session .set).accessing second .set).context.finish.toBool = true ∧
    method.locals = #[] ∧ ((session a).accessing second a).body.locals = #[] ∧
    ((session a).call (.access second a)).1.toBool = true ∧
    (session a).taken second a = [] ∧
    (session a).offset ≤ method.chunk.code.toList.length ∧
    method.chunk.code.toList = method.chunk.code.toList.take (session a).offset ++
      (((session a).accessing second a).body.emitter.chunk.code.toList.drop (session a).offset ++
        method.chunk.code.toList.drop ((session a).accessing second a).offset) ∧
    ((session a).accessing second a).body.emitter.constants.constants.toList <+:
      method.constants.constants.toList := by
  cases a <;> decide +kernel

theorem calls_holding : Session.Calls (Session.start ⟨0⟩ registry writer .default)
    (holding [second, pair]) := by
  obtain ⟨hfield, -⟩ := evaluation_registry
  have hpair : (holding []).perform (.make (.argument 0)) = (.ok (.symbol pair), holding [pair]) :=
    perform_make rfl
  have hsecond : (holding [pair]).perform (.make (.field pair "b")) =
      (.ok (.symbol second), holding [second, pair]) :=
    perform_make (Setting.field_eq rfl hfield rfl)
  have hcalls : Session.Calls (Session.start ⟨0⟩ registry writer .default) (holding [pair]) :=
    .single ⟨.operation (.make (.argument 0)),
      by simp [Session.Grants, Call.symbols, Operation.symbols, Factory.parts],
      (congrArg Prod.snd hpair).symm⟩
  exact hcalls.tail ⟨.operation (.make (.field pair "b")),
    by simp [Session.Grants, Call.symbols, Operation.symbols, Factory.parts, holding],
    (congrArg Prod.snd hsecond).symm⟩

theorem held (a : Access) : second ∈ (session a).symbols := by
  cases a <;> simp [session, symbols_accessing, holding]

theorem calls_session (a : Access) :
    Session.Calls (Session.start ⟨0⟩ registry writer .default) (session a) := by
  have hgrants (a b : Access) : (session a).Grants (.access second b) := by
    simp only [Session.Grants, Call.symbols, mem_singleton, forall_eq]
    exact .inl (held a)
  have haddr : Session.Calls _ (session .get) :=
    .tail calls_holding ⟨.access second .address, hgrants .address .address, rfl⟩
  cases a with
  | address => exact calls_holding
  | get => exact haddr
  | set => exact .tail haddr ⟨.access second .get, hgrants .get .get, rfl⟩

theorem gives (a : Access) : (session a).Gives registry method second a := by
  obtain ⟨hfinish, hlocs, hlocs', hacc, -, hle, hbytes, hconsts⟩ := evaluation_code a
  have hfin := finish_method hfinish
  obtain ⟨hsane, hsetting⟩ := (sane_start _ _ _ _).calls (calls_session .set)
  have hafter := hsane.call (k := .access second .set) (by
    simp only [Session.Grants, Call.symbols, mem_singleton, forall_eq]
    exact .inl (held .set))
  have hfun : method.function = writer := by
    rw [method, function_method hfin, setting_call, hsetting]
    rfl
  have hvalid : method.constants.Valid := by
    have hpool := hafter.owned.pool
    obtain ⟨-, ⟨-, -, hm⟩ | ⟨-, hm⟩⟩ := Context.finish_ok hfin <;> (rw [method, hm]; exact hpool)
  refine ⟨⟨⟨0⟩, .default, hfun ▸ calls_session a⟩, held a, exists_of_toBool hacc,
    ⟨_, _, ?_, hbytes⟩, hconsts, hvalid, ?_⟩
  · rw [length_take]
    exact Nat.min_eq_left hle
  · rw [hlocs, hlocs']

theorem closed_state (T : List UInt16) : state.Closed registry (Root.Outside 0 T) :=
  State.closed_of_values rfl rfl rfl (by simp [frame, Address.ofRoot])
    (by simp [frame]) (by simp [state, Value.int32])

end PairField

namespace Session

end Session

end StackCode
