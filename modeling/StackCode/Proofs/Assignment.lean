import StackCode.Proofs.Loading
import StackCode.Proofs.Storage

/-!
# Assigning to a place

The code of an assignment finds the place of the destination and the value of the source, in an
order that depends on how it copies, and then stores once. Neither the order nor the temporaries
matter for symbols without calls: what is stored where is what both sides denote before.
-/

namespace StackCode

open List StackCode.Symbol MonadExcept CopyPath Constant Registry Exec

variable {α β : Type} {literals : Literal → Prop} {dest source : Symbol} {U : List UInt16}
  {o o' : Nat}
  {L : Array Value} {vs : List Value} {S : Scene} {r : Registry} {force : Bool} {path : CopyPath}
  {slot : UInt16} {ts : List Temporary} {xs : List Command} {k : Indirect}

/-! ### Constants in the place of literals -/

namespace Pool

variable {k : Pool} {l : Literal}

/-- The constant that a pool has for a literal. It is the literal, or a floating-point number that
counts as equal. -/
def kept (k : Pool) (l : Literal) : Literal :=
  (k.index[(Constant.literal l).key]?.bind k.literal?).getD l

theorem Valid.key_kept (h : k.Valid) (l : Literal) :
    (literal (k.kept l)).key = (literal l).key := by
  unfold kept
  cases hidx : k.index[(literal l).key]? with
  | none => rfl
  | some i =>
    obtain ⟨c, hc, hkey⟩ := (h _ i).mp hidx
    obtain ⟨l', rfl⟩ := eq_literal_of_key hkey
    simpa [literal?, get?, hc] using hkey

/-- A literal that is no floating-point number stands for itself. -/
theorem Valid.kept_eq (h : k.Valid) (hl : ¬l.IsFloat) : k.kept l = l := eq_of_key hl (h.key_kept l)

theorem Valid.represents_kept (h : k.Valid) : k.Represents (fun _ => True) k.kept where
  null := h.kept_eq (by simp [Literal.IsFloat])
  bool b := h.kept_eq (by simp [Literal.IsFloat])
  constant l l' i _ hl' hkey := by
    have hget : k.constants[i]? = some (.literal l') := by
      unfold literal? at hl'
      split at hl'
      · rename_i hget
        cases hl'
        exact hget
      · cases hl'
    have hidx := (h _ i).mpr ⟨_, hget, hkey⟩
    rw [kept, hidx, Option.bind_some, hl', Option.getD_some]

end Pool

/-! ### Where a symbol is stored -/

namespace Exec

variable {p : Program} {s : State} {Q : β → State → Prop}

theorem After.bind {x : Exec α} {f : α → Exec β}
    (h : ∀ a s', x.exec p s = (.ok a, s') → (f a).After p s' Q) : (x >>= f).After p s Q := by
  intro b s'' hout
  rw [exec_bind] at hout
  rcases hx : x.exec p s with ⟨e | a, s'⟩ <;> rw [hx] at hout
  · cases hout
  · exact h a s' hx b s'' hout

theorem After.pure {b : β} (h : Q b s) : (pure b : Exec β).After p s Q := by
  rintro _ _ ⟨⟩
  exact h

theorem After.map {x : Exec α} {g : α → β} (h : x.After p s fun a s' => Q (g a) s') :
    (g <$> x).After p s Q := by
  rw [map_eq_pure_bind]
  exact .bind fun a s' hx => .pure (h a s' hx)

end Exec

/-- The place that an address leads to. -/
def Value.asAddress : Value → Except Fault Address
  | .address a => .ok a
  | v => .error (.mismatch "address" v)

theorem Exec.popAddress_eq (o : Nat) : popAddress o = pop o >>= fun v => ofExcept v.asAddress := by
  refine bind_congr fun v => ?_
  cases v <;> rfl

/-- The address of a spot that is a place. -/
def Spot.asAddress : Spot → Except Fault Address
  | .place a => .ok a
  | .inHand v _ => .error (.mismatch "address" v)

/-- The place that an item stands for. -/
def Item.asAddress : Item → Except Fault Address
  | .value v => v.asAddress
  | .spot s => s.asAddress

namespace Symbol

open Exec

variable {κ : Literal → Literal} {p : Program} {x : Symbol} {s s' : State}

/-- The place that a symbol denotes: where it is, or where the address leads that it holds. -/
def place (κ : Literal → Literal) (x : Symbol) : Exec Address := do
  MonadExcept.ofExcept (← x.reference κ).asAddress

/-- The place where a symbol is itself. -/
def site (κ : Literal → Literal) (x : Symbol) : Exec Address := do
  MonadExcept.ofExcept (← x.spot κ).asAddress

theorem place_of_plain (hx : x.dataType.isByRef = false) : x.place κ = x.site κ := by
  simp [place, site, reference, hx, Item.asAddress]

theorem place_of_byRef (hx : x.dataType.isByRef = true) :
    x.place κ = x.held κ >>= fun w => ofExcept w.asAddress := by
  simp [place, reference, hx, Item.asAddress]

theorem steady_place (hx : x.Evaluable literals False) : Steady p (x.place κ) :=
  (steady_reference x hx).bind fun _ => steady_ofExcept _

/-- An instance is at a place, if it stands for the address of a field in its own storage. -/
theorem after_target {c : ContextId} {holder : Symbol} {f : FieldDecl}
    (hfield : (field c holder f).inPlace p.registry = true)
    (hhold : holder.inPlace p.registry = true → holder.dataType.isByRef = false →
      (holder.spot κ).After p s fun spot _ => ∃ a, spot = .place a) :
    (holder.target κ).After p s fun item _ => ∀ at_, item = .spot at_ → ∃ a, at_ = .place a := by
  refine .bind fun q s' hq => ?_
  cases hq
  by_cases hval : p.registry.isValueType holder.valueType.hash = true
  · rw [if_pos hval]
    have hin : holder.inPlace p.registry = true := by simpa [inPlace, hval] using hfield
    unfold reference
    split
    · exact .map fun _ _ _ at_ heq => by cases heq
    · rename_i hplain
      refine .map fun spot s'' hspot at_ heq => ?_
      cases heq
      exact hhold hin (by simpa using hplain) spot s'' hspot
  · rw [if_neg hval]
    exact .map fun _ _ _ at_ heq => by cases heq

theorem after_spot_field {c : ContextId} {holder : Symbol} {f : FieldDecl}
    (hfield : (field c holder f).inPlace p.registry = true)
    (hhold : holder.inPlace p.registry = true → holder.dataType.isByRef = false →
      (holder.spot κ).After p s fun spot _ => ∃ a, spot = .place a) :
    ((field c holder f).spot κ).After p s fun spot _ => ∃ a, spot = .place a := by
  rw [spot_field]
  refine .bind fun item s' hitem => ?_
  cases item with
  | value v => exact .bind fun a _ _ => .pure ⟨_, rfl⟩
  | spot at_ =>
    obtain ⟨a, rfl⟩ := after_target hfield hhold _ _ hitem _ rfl
    exact .pure ⟨_, rfl⟩

/-- A symbol in its own storage is at a place. -/
theorem after_spot_of_inPlace {x : Symbol} (hx : x.inPlace p.registry = true)
    (hplain : x.dataType.isByRef = false) (s : State) :
    (x.spot κ).After p s fun spot _ => ∃ a, spot = .place a := by
  cases x with
  | localSlot | argument => exact .bind fun _ _ _ => .pure ⟨_, rfl⟩
  | staticField | captured => exact .pure ⟨_, rfl⟩
  | field c holder f =>
    exact after_spot_field hx fun hin hplain => after_spot_of_inPlace hin hplain s
  | element c array index t =>
    exact .bind fun a _ _ => .bind fun i _ _ => .bind fun a _ _ => .pure ⟨_, rfl⟩
  | literal | binary | unary | arrayLength | converted =>
    simp [inPlace, hplain, capabilities, Capabilities.justValue] at hx
  | call | callOn | construct | newArray => exact fun _ _ h => by cases h
termination_by sizeOf x

end Symbol

/-! ### What is computed before the store -/

namespace Exec

variable {p : Program} {s : State}

/-- The results of computations one after the other are found in the state before them. -/
theorem Steady.result_bind {x : Exec α} {f : α → Exec β} (hx : Steady p x)
    (hf : ∀ a, Steady p (f a))
    {b : β} : (x >>= f).result p s = .ok b ↔ ∃ a, x.result p s = .ok a ∧
    (f a).result p s = .ok b := by
  have hsettle := hx.settles s
  rw [result, exec_bind, result]
  rcases hout : x.exec p s with ⟨e | a, s'⟩ <;> rw [hout] at hsettle
  · constructor
    · intro h
      cases h
    · rintro ⟨a, ⟨⟩, -⟩
  · have hsame : (f a).result p s' = (f a).result p s := (hf a).same s s' hsettle
    simp only [hsame, Except.ok.injEq, exists_eq_left']

@[simp] theorem result_ofExcept (x : Except Fault α) : (ofExcept x : Exec α).result p s = x := by
  rw [result, exec_ofExcept]

@[simp] theorem result_pure (a : α) : (pure a : Exec α).result p s = .ok a := rfl

/-- Store a value at an address, both of which were computed before. -/
def storeAt (operands : Address × Value) : Exec Unit := store operands.1 operands.2

end Exec

namespace Symbol

open Exec

variable {κ : Literal → Literal} {p : Program} {x : Symbol} {s : State}

/-- The value of a symbol in its own storage is fetched from its place. -/
theorem exec_value_of_inPlace (hx : x.inPlace p.registry = true) :
    (x.value κ).exec p s = (x.reference κ >>= fun item =>
      ofExcept item.asAddress >>= fetch).exec p s := by
  rw [value_eq]
  by_cases href : x.dataType.isByRef = true
  · simp only [reference, href, if_true, bind_map_left]
    refine congrArg (exec · p s) (bind_congr fun w => ?_)
    cases w <;> rfl
  · have hplain : x.dataType.isByRef = false := by simpa using href
    have hplace := after_spot_of_inPlace (κ := κ) hx hplain s
    simp only [reference, hplain, Bool.false_eq_true, if_false, bind_map_left, bind_pure, held]
    rw [exec_bind, exec_bind]
    rcases hspot : (x.spot κ).exec p s with ⟨e | spot, s'⟩
    · rfl
    · obtain ⟨a, rfl⟩ := hplace spot s' hspot
      rfl

end Symbol

namespace CopyPath

open Exec

variable {κ : Literal → Literal} {p : Program} {s : State}

/-- The place to copy to, and the value at the place to copy from. -/
def blockOperands (i j : Item) : Exec (Address × Value) := do
  let b ← MonadExcept.ofExcept j.asAddress
  let a ← MonadExcept.ofExcept i.asAddress
  return (a, ← fetch b)

/-- The place and the value, in the order in which code computes them. -/
def operands (κ : Literal → Literal) (dest source : Symbol) : CopyPath → Exec (Address × Value)
  | .direct => do blockOperands (← dest.reference κ) (← source.reference κ)
  | .indirect => do
    let w ← dest.held κ
    let v ← source.value κ
    return (← MonadExcept.ofExcept w.asAddress, v)
  | .stack => do
    let v ← source.value κ
    return (← dest.place κ, v)

@[simp] theorem steady_blockOperands (i j : Item) : Steady p (blockOperands i j) :=
  (steady_ofExcept _).bind fun _ => (steady_ofExcept _).bind fun _ =>
    (steady_fetch _).bind fun _ => steady_pure _

@[simp] theorem result_blockOperands {i j : Item} {a : Address} {v : Value} :
    (blockOperands i j).result p s = .ok (a, v) ↔
      i.asAddress = .ok a ∧ ∃ b, j.asAddress = .ok b ∧ (fetch b).result p s = .ok v := by
  cases hj : j.asAddress with
  | error e => simp [blockOperands, hj, result, exec_bind, exec_ofExcept]
  | ok b =>
    cases hi : i.asAddress with
    | error e => simp [blockOperands, hi, hj, result, exec_bind, exec_ofExcept]
    | ok a' =>
      rcases hout : (fetch b).exec p s with ⟨e | w, s'⟩ <;>
        simp [blockOperands, hi, hj, hout, result, exec_bind, exec_ofExcept, -bind_pure_comp]

section Operands

variable (hdest : dest.Evaluable literals False) (hsource : source.Evaluable literals False)
include hdest hsource

theorem steady_operands (path : CopyPath) : Steady p (path.operands κ dest source) := by
  cases path with
  | direct =>
    exact (steady_reference dest hdest).bind fun i =>
      (steady_reference source hsource).bind (steady_blockOperands i)
  | indirect =>
    exact (steady_held dest hdest).bind fun w => (steady_value source hsource).bind fun v => by simp
  | stack => exact (steady_value source hsource).bind fun v => by simp [steady_place hdest]

/-- On every way the place and the value are those that both sides denote in the state before. -/
theorem result_operands (hpath : path.Suits p.registry dest source) (a : Address) (v : Value) :
    (path.operands κ dest source).result p s = .ok (a, v) ↔
      (dest.place κ).result p s = .ok a ∧ (source.value κ).result p s = .ok v := by
  cases path with
  | direct =>
    have hto : Steady p (dest.reference κ) := steady_reference dest hdest
    have hof : Steady p (source.reference κ) := steady_reference source hsource
    have hval := congrArg Prod.fst (exec_value_of_inPlace (κ := κ) (s := s) hpath.2.1)
    rw [← result, ← result] at hval
    rw [operands, hto.result_bind fun i => hof.bind (steady_blockOperands i), Symbol.place,
      hto.result_bind fun _ => steady_ofExcept _, hval,
      hof.result_bind fun _ => (steady_ofExcept _).bind steady_fetch]
    simp only [hof.result_bind (steady_blockOperands _), result_blockOperands, result_ofExcept,
      (steady_ofExcept _).result_bind steady_fetch]
    constructor
    · rintro ⟨i, hi, j, hj, ha, hb⟩
      exact ⟨⟨i, hi, ha⟩, j, hj, hb⟩
    · rintro ⟨⟨i, hi, ha⟩, j, hj, hb⟩
      exact ⟨i, hi, j, hj, ha, hb⟩
  | indirect =>
    have hto : Steady p (dest.held κ) := steady_held dest hdest
    have hof : Steady p (source.value κ) := steady_value source hsource
    have hlast : ∀ w v, Steady p (ofExcept (Value.asAddress w) >>= fun a =>
        pure (a, v) : Exec (Address × Value)) := fun w v => (steady_ofExcept _).bind fun a =>
          steady_pure _
    rw [operands, hto.result_bind fun w => hof.bind (hlast w), place_of_byRef hpath,
      hto.result_bind fun _ => steady_ofExcept _]
    simp only [hof.result_bind (hlast _), (steady_ofExcept _).result_bind fun _ => steady_pure _,
      result_ofExcept, result_pure]
    constructor
    · rintro ⟨w, hw, v, hv, a, ha, ⟨⟩⟩
      exact ⟨⟨w, hw, ha⟩, hv⟩
    · rintro ⟨⟨w, hw, ha⟩, hv⟩
      exact ⟨w, hw, v, hv, a, ha, rfl⟩
  | stack =>
    have hto : Steady p (dest.place κ) := steady_place hdest
    rw [operands, (steady_value source hsource).result_bind fun v => hto.bind fun a =>
      steady_pure _]
    simp only [hto.result_bind fun _ => steady_pure _, result_pure]
    constructor
    · rintro ⟨v, hv, a, ha, ⟨⟩⟩
      exact ⟨ha, hv⟩
    · rintro ⟨ha, hv⟩
      exact ⟨v, hv, a, ha, rfl⟩

end Operands

end CopyPath

/-! ### Code that ends with a store -/

namespace Exec

variable {p : Program} {T : List UInt16} {o₁ : Nat} {s : State}

/-- A stretch of code ends a statement. It uses up its operands, and outside certain slots the state
is the one that the computation leads to; or the fault of the computation occurs. -/
structure Ends (p : Program) (T : List UInt16) (o o' : Nat) (x : Exec Unit) (s : State)
    (L : Array Value) (vs : List Value) : Prop where
  ok : ∀ s', x.exec p s = (.ok (), s') → ∀ σ, ∃ L',
    Reaches p (s.standing L (vs ++ σ) o) (s'.standing L' σ o') ∧ s'.Like T L'
  error : ∀ e s', x.exec p s = (.error e, s') → ∀ σ, ∃ t L' σ' k,
    Reaches p (s.standing L (vs ++ σ) o) t ∧ step.exec p t = (.error e, s'.standing L' σ' k) ∧
      s'.Like T L'

theorem Ends.congr {x y : Exec Unit} (h : Ends p T o o' x s L vs) (hxy : y.exec p s = x.exec p s) :
    Ends p T o o' y s L vs :=
  ⟨fun s' ha => h.ok s' (hxy ▸ ha), fun e s' he => h.error e s' (hxy ▸ he)⟩

/-- A stretch of code, and then one that ends the statement. -/
theorem Runs.ends {x : Exec α} {f : α → Exec Unit} {Q : α → Array Value → List Value → Prop}
    (hx : Runs p U o o₁ x s L vs Q) (hL : s.Like T L) (hU : U ⊆ T)
    (hgrows : s.Extends p.registry (x.exec p s).2)
    (hf : ∀ a s' L' ws, x.exec p s = (.ok a, s') → Agree U L L' → Q a L' ws →
      Ends p T o₁ o' (f a) s' L' ws) : Ends p T o o' (x >>= f) s L vs where
  ok s'' hb σ := by
    rw [exec_bind] at hb
    rcases ha : x.exec p s with ⟨e | a, s'⟩ <;> rw [ha] at hb
    · cases hb
    · obtain ⟨L', ws, hreach, hagree, hws⟩ := hx.ok a s' ha σ
      obtain ⟨L'', hreach', hlike⟩ := (hf a s' L' ws ha hagree hws).ok s'' hb σ
      exact ⟨L'', hreach.trans hreach', hlike⟩
  error e s'' he σ := by
    rw [exec_bind] at he
    rcases ha : x.exec p s with ⟨e' | a, s'⟩ <;> rw [ha] at he hgrows
    · cases he
      obtain ⟨t, L', σ', k, hreach, hstep, hagree⟩ := hx.error e s'' ha σ
      exact ⟨t, L', σ', k, hreach, hstep, (hL.congr hgrows.frames).agree hagree hU⟩
    · obtain ⟨L', ws, hreach, hagree, hws⟩ := hx.ok a s' ha σ
      obtain ⟨t, L'', σ', k, hreach', hstep, hlike⟩ :=
        (hf a s' L' ws ha hagree hws).error e s'' he σ
      exact ⟨t, L'', σ', k, hreach.trans hreach', hstep, hlike⟩

/-- A stretch of code that only moves values, and then one that ends the statement. -/
theorem Runs.then_ends {x : Exec Unit} {Q : Unit → Array Value → List Value → Prop}
    (h : Runs p U o o₁ (pure ()) s L vs Q) (hL : s.Like T L) (hU : U ⊆ T)
    (hx : ∀ L' ws, Agree U L L' → Q () L' ws → Ends p T o₁ o' x s L' ws) :
    Ends p T o o' x s L vs := by
  refine (h.ends (f := fun _ => x) hL hU (.refl _ s) fun _ s' L' ws heq hagree hws => ?_).congr ?_
  · cases heq
    exact hx L' ws hagree hws
  · rw [pure_bind]

/-- A slot that a stretch of code does not write keeps its value. -/
theorem Runs.keeps {x : Exec α} {Q : α → Array Value → List Value → Prop}
    (h : Runs p U o o' x s L vs Q)
    (hslot : slot ∉ U) :
    Runs p U o o' x s L vs fun a L' ws => Q a L' ws ∧ L'[slot.toNat]? = L[slot.toNat]? where
  ok a s' ha σ := by
    obtain ⟨L', ws, hreach, hagree, hws⟩ := h.ok a s' ha σ
    refine ⟨L', ws, hreach, hagree, hws, hagree.2 _ fun t ht heq => hslot ?_⟩
    rwa [← UInt16.toNat_inj.mp heq]
  error := h.error

end Exec

namespace Scene

open Exec

variable {s : State}

/-- An instruction that computes a place and a value from its operands and stores. It may find that
an operand is no address. -/
theorem Stage.ends_store (h : S.Stage s L) {c : Command} {x : Exec (Address × Value)}
    (hcarry : S.method.Carries o [c] o') (hfalls : c.op.isTerminator = false)
    (hquiet : S.Quiet x fun operands => operands.1.root.Outside S.level S.slots)
    (heff : ∀ i, c.Encoded S.method.constants i → ∀ σ k,
      (effect S.method i).exec S.program (s.standing L (vs ++ σ) k) =
        (x >>= storeAt).exec S.program (s.standing L σ k) ∨
      ∃ e σ', (effect S.method i).exec S.program (s.standing L (vs ++ σ) k) =
        (.error e, s.standing L σ' k) ∧ x.exec S.program s = (.error e, s)) :
    Ends S.program S.slots o o' (x >>= storeAt) s L vs := by
  cases hcarry with
  | cons hfetch hc hrest =>
  cases hrest
  rename_i i
  rw [← hc.1] at hfalls
  have hat := hquiet s h.calm
  -- The store sees the same state, but for the operand stack and the temporaries.
  have hstore : ∃ L', ((x >>= storeAt).exec S.program s).2.Like S.slots L' ∧ ∀ σ k,
      (x >>= storeAt).exec S.program (s.standing L σ k) = (((x >>= storeAt).exec S.program s).1,
        ((x >>= storeAt).exec S.program s).2.standing L' σ k) := by
    have hcalm := hat.calm h.calm
    have hlike := h.like.congr hat.grows.frames
    simp only [exec_bind, fun σ k => hat.standing L σ k h.like]
    rcases hx : x.exec S.program s with ⟨e | operands, s'⟩ <;> rw [hx] at hcalm hlike
    · exact ⟨L, hlike, fun _ _ => rfl⟩
    · exact store_standing hcalm.depth hlike (hat.answer operands (by rw [hx])) operands.2
  obtain ⟨L', hlike, hstand⟩ := hstore
  refine ⟨fun s' hok σ => ?_, fun e s' herror σ => ?_⟩
  · rw [hok] at hlike hstand
    rcases heff i hc σ i.next with heq | ⟨e, σ', -, hx⟩
    · refine ⟨L', .single ?_, hlike⟩
      rw [exec_step h.hosts hfetch hfalls, heq, hstand]
      rfl
    · rw [exec_bind_of_error hx] at hok
      cases hok
  · rw [herror] at hlike hstand
    rcases heff i hc σ i.next with heq | ⟨e', σ', heq, hx⟩
    · refine ⟨_, L', σ, i.next, .refl, ?_, hlike⟩
      rw [exec_step h.hosts hfetch hfalls, heq, hstand]
      rfl
    · rw [exec_bind_of_error hx] at herror
      cases herror
      refine ⟨_, L, σ', i.next, .refl, ?_, h.like⟩
      rw [exec_step h.hosts hfetch hfalls, heq]
      rfl

theorem Stage.runs_get (h : S.Stage s L) {v : Value} (hv : L[slot.toNat]? = some v)
    (hcarry : S.method.Carries o [.onLocal .get slot] o') :
    Runs S.program U o o' (pure () : Exec Unit) s L [] fun _ L' ws => L' = L ∧ ws = [v] := by
  refine h.runs hcarry rfl (quiet_pure (Q := fun _ => True) trivial) (fun _ => v) fun i hi σ k => ?_
  rw [effect_local hi, exec_bind_of_ok (h.exec_level L _ k)]
  simp only [accessRoot, Address.ofRoot, nil_append]
  rw [exec_bind_of_ok (exec_fetch_local h.hosts h.calm.depth hv []), pure_bind]

end Scene

/-! ### Storing in a destination -/

namespace Scene

open Exec

variable {s s' : State} {v w : Value} {item : Item}

theorem quiet_asAddress_value (hv : v.Within S.Outside) :
    S.Quiet (ofExcept v.asAddress : Exec Address) fun a => a.root.Outside S.level S.slots := by
  cases hv with
  | address ha => exact quiet_pure ha
  | _ => exact quiet_throw _

theorem quiet_asAddress_spot {spot : Spot} (hspot : spot.Within S.Outside) :
    S.Quiet (ofExcept spot.asAddress : Exec Address) fun a => a.root.Outside S.level S.slots := by
  cases spot with
  | place a => exact quiet_pure hspot
  | inHand v path => exact quiet_throw _

/-- A value is stored at a root that is found by a computation. -/
theorem Stage.ends_root (h : S.Stage s L) (root : Exec Root)
    (hroot : S.Quiet root fun r => r.Outside S.level S.slots)
    (hspot : dest.spot S.constant = root >>= fun r => pure (.place (.ofRoot r))) {c : Command}
    (hcarry : S.method.Carries o [c] o') (hfalls : c.op.isTerminator = false)
    (heff : ∀ i, c.Encoded S.method.constants i → ∀ σ k,
      (effect S.method i).exec S.program (s.standing L (v :: σ) k) =
        (root >>= fun r => store (.ofRoot r) v).exec S.program (s.standing L σ k)) :
    Ends S.program S.slots o o' (dest.site S.constant >>= fun a => store a v) s L [v] := by
  have heq : dest.site S.constant >>= (fun a => store a v) =
      (root >>= fun r => pure (Address.ofRoot r, v)) >>= storeAt := by
    simp [Symbol.site, hspot, Spot.asAddress, ofExcept, storeAt]
  rw [heq]
  refine h.ends_store hcarry hfalls (hroot.bind fun r hr => quiet_pure hr) fun i hi σ k => .inl ?_
  rw [singleton_append, heff i hi]
  simp [storeAt]

/-- A value is stored in a field, through the operand that stands for the instance. -/
theorem Stage.ends_field (h : S.Stage s L) {f : FieldDecl}
    (hf : S.program.registry.fieldByHash? f.hash = some f) (hitem : item.Within S.Outside)
    (hplace : ∀ at_, item = .spot at_ → ∃ a, at_ = .place a) (hshows : item.Shows S.level U L w)
    (hcarry : S.method.Carries o [⟨.field .set, .hash f.hash⟩] o') :
    Ends S.program S.slots o o' (item.member f.index >>= fun spot =>
      ofExcept spot.asAddress >>= fun a => store a v) s L [w, v] := by
  have haddr : item.member f.index >>= (fun spot => ofExcept spot.asAddress >>= fun a =>
      store a v) = (memberAddress w f.index >>= fun a => pure (a, v)) >>= storeAt := by
    cases item with
    | value u =>
      cases hshows
      simp [Item.member, Spot.asAddress, ofExcept, storeAt]
    | spot at_ =>
      obtain ⟨a, rfl⟩ := hplace at_ rfl
      cases hshows
      simp [Item.member, Spot.member, Spot.asAddress, ofExcept, storeAt, memberAddress]
  have hw : w.Within S.Outside := by
    cases item with
    | value u =>
      cases hshows
      exact hitem
    | spot at_ =>
      obtain ⟨a, rfl⟩ := hplace at_ rfl
      cases hshows
      exact .address hitem
  rw [haddr]
  refine h.ends_store hcarry rfl ((quiet_memberAddress hw f.index).bind fun a ha => quiet_pure ha)
    fun i hi σ k => .inl ?_
  obtain ⟨hop, -, hhash⟩ := hi
  unfold effect
  rw [hop]
  simp only [cons_append, nil_append]
  rw [hashOperand_bind hhash, exec_bind_of_ok (exec_fieldIndex hf _), accessField,
    exec_pop_bind h.hosts, exec_pop_bind h.hosts]
  simp [storeAt]

theorem Stage.ends_element (h : S.Stage s L) (array index : Value)
    (hcarry : S.method.Carries o [.plain (.element .set)] o') :
    Ends S.program S.slots o o' (elementAddress array index >>= fun a => store a v) s L
      [index, array, v] := by
  have heq : elementAddress array index >>= (fun a => store a v) =
      (elementAddress array index >>= fun a => pure (a, v)) >>= storeAt := by simp [storeAt]
  rw [heq]
  refine h.ends_store hcarry rfl ((quiet_elementAddress array index).bind fun a ha => quiet_pure ha)
    fun i hi σ k => .inl ?_
  have hop : i.op = .element .set := hi.1
  unfold effect
  rw [hop]
  simp only [cons_append, nil_append, accessElement]
  rw [exec_pop_bind h.hosts, exec_pop_bind h.hosts, exec_pop_bind h.hosts]
  simp [storeAt]

/-- The code that stores the topmost operand where a destination is. -/
theorem ends_set (hS : S.Proper) (hcode : Code S.program.registry (.access dest .set) ts xs)
    (h : S.Stage s L) (hready : S.Ready dest s) (hts : ts.map Temporary.slot ⊆ S.slots)
    (hcarry : S.method.Carries o xs o') :
    Ends S.program S.slots o o' (dest.site S.constant >>= fun a => store a v) s L [v] := by
  cases hcode with
  | @localSlot c slot t =>
    have hslot : slot ∉ S.slots := hready.apart slot .slot
    have hroot : S.Quiet ((Root.localSlot · slot) <$> Exec.level) fun r =>
      r.Outside S.level S.slots := by
      refine Quiet.map quiet_level _ fun n hn t ht heq => ?_
      cases heq
      exact hslot ht
    refine h.ends_root _ hroot (by simp [Symbol.spot]) hcarry rfl fun i hi σ k => ?_
    rw [effect_local hi, bind_map_left, exec_bind_of_ok (h.exec_level L _ k),
      exec_bind_of_ok (h.exec_level L _ k), accessRoot, exec_pop_bind h.hosts]
  | @argument c slot t =>
    have hroot : S.Quiet ((Root.argument · slot) <$> Exec.level) fun r =>
      r.Outside S.level S.slots :=
      Quiet.map (Q := fun n => n = S.level) quiet_level _ fun n _ t _ heq => by cases heq
    refine h.ends_root _ hroot (by simp [Symbol.spot]) hcarry rfl fun i hi σ k => ?_
    rw [effect_argument hi, bind_map_left, exec_bind_of_ok (h.exec_level L _ k),
      exec_bind_of_ok (h.exec_level L _ k), accessRoot, exec_pop_bind h.hosts]
  | @staticField c f =>
    refine h.ends_root (pure (.static f.hash)) (quiet_pure fun t _ heq => by cases heq)
      (by simp [Symbol.spot]) hcarry rfl fun i hi σ k => ?_
    obtain ⟨hop, -, hhash⟩ := hi
    unfold effect
    rw [hop]
    simp only [accessStatic, pure_bind]
    rw [exec_pop_bind h.hosts, hashOperand_bind hhash]
  | @field c holder f _ ts xs hset hhold =>
    obtain ⟨o₁, hxs, hlast⟩ := hcarry.split
    have hpart : S.Ready holder s := hready.part hready.evaluable hready.typed.1
    obtain ⟨name, hfield, -⟩ := hready.made.checked
    rw [hS.registry] at hfield
    obtain ⟨hf, -⟩ := hS.registered.field hfield
    have hload : Runs S.program _ o o₁ (holder.target S.constant) s L [] _ :=
      simulates_code hS hhold h hpart hts hxs
    have hquiet := hpart.quiet_target
    have hplace : (holder.target S.constant).After S.program s fun item _ =>
        ∀ at_, item = .spot at_ → ∃ a, at_ = .place a :=
      after_target (hset rfl) fun hin hplain => after_spot_of_inPlace hin hplain s
    have heq : (Symbol.field c holder f).site S.constant >>= (fun a => store a v) =
        holder.target S.constant >>= fun item => item.member f.index >>= fun spot =>
          ofExcept spot.asAddress >>= fun a => store a v := by
      simp [Symbol.site, spot_field]
    rw [heq]
    refine (hload.frame [v]).ends h.like hts (hquiet s h.calm).grows
      fun item s' L' ws hx hagree hws => ?_
    obtain ⟨us, rfl, w, rfl, hshows⟩ := hws
    exact (h.after hquiet hx hagree hts).ends_field hf ((hquiet s h.calm).answer item (by rw [hx]))
      (hplace item s' hx) hshows hlast
  | @element c array index t _ ts ts' xs xs' harray hidx =>
    obtain ⟨o₁, hxs, hcarry⟩ := hcarry.split
    obtain ⟨o₂, hxs', hlast⟩ := hcarry.split
    rw [map_append] at hts
    obtain ⟨hts, hts'⟩ := append_subset.mp hts
    have hfirst : S.Ready array s := hready.part hready.evaluable.1 hready.typed.1
    have hload : Runs S.program _ o o₁ (array.value S.constant) s L [] _ :=
      simulates_code hS harray h hfirst hts hxs
    have heq : (Symbol.element c array index t).site S.constant >>= (fun a => store a v) =
        array.value S.constant >>= fun a => index.value S.constant >>= fun i =>
          elementAddress a i >>= fun a => store a v := by
      simp [Symbol.site, spot_element, Spot.asAddress, ofExcept]
    rw [heq]
    refine (hload.frame [v]).ends h.like hts (hfirst.quiet_value s h.calm).grows
      fun a s₁ L₁ ws ha hagree hws => ?_
    obtain ⟨us, rfl, rfl⟩ := hws
    have hstage := h.after hfirst.quiet_value ha hagree hts
    have hsecond : S.Ready index s₁ := hready.part hready.evaluable.2 (hready.typed.2.1 a s₁ ha)
    have hload' : Runs S.program _ o₁ o₂ (index.value S.constant) s₁ L₁ [] _ :=
      simulates_code hS hidx hstage hsecond hts' hxs'
    refine (hload'.frame [a, v]).ends hstage.like hts' (hsecond.quiet_value s₁ hstage.calm).grows
      fun i s₂ L₂ ws hi hagree' hws => ?_
    obtain ⟨us, rfl, rfl⟩ := hws
    exact (hstage.after hsecond.quiet_value hi hagree' hts').ends_element a i hlast

end Scene

/-! ### The ways of copying -/

/-- How values are accepted when they are stored through an address. -/
def Indirect.acceptsStored : Indirect → Value → String × Bool
  | .scalar w => w.stored.accepts
  | .block _ => Value.acceptedAsBlock

theorem Indirect.acceptsStored_of_accepts {v : Value} (h : (k.accepts v).2 = true) :
    (k.acceptsStored v).2 = true := by
  cases k with
  | block => exact h
  | scalar w =>
    have h : (w.accepts v).2 = true := h
    cases w <;> simp only [LoadWidth.accepts] at h <;> split at h <;> first | rfl | cases h

/-- What may be assigned has values of the type of the destination. -/
theorem Setting.admits_of_compatible {c : Setting} {v : Value} (h : c.compatible dest source = true)
    (hv : c.registry.Admits source.valueType.hash v) :
    c.registry.Admits dest.valueType.hash v := by
  rcases Bool.or_eq_true .. ▸ h with hsame | hassign
  · rwa [← eq_of_beq hsame]
  · unfold assignable at hassign
    rcases Bool.or_eq_true .. ▸ hassign with hsame | hbase
    · rwa [← eq_of_beq hsame]
    · simp only [Bool.and_eq_true] at hbase
      exact (admits_reference hbase.1.2).mpr ((admits_reference hbase.1.1).mp hv)

namespace Scene

open Exec

variable {s s' : State} {x : Symbol} {v w w' : Value} {i j : Item}

theorem Ready.settles (h : S.Ready x s) (hx : x.Evaluable S.literals False)
    (hs : s.Settles S.program.registry s') : S.Ready x s' :=
  ⟨h.made, h.evaluable, h.typed.settles hx hs, h.apart⟩

theorem asAddress_of_shows (hshows : i.Shows S.level U L w)
    (hplace : ∀ at_, i = .spot at_ → ∃ a, at_ = .place a) : i.asAddress = w.asAddress := by
  cases i with
  | value u =>
    cases hshows
    rfl
  | spot at_ =>
    obtain ⟨a, rfl⟩ := hplace at_ rfl
    cases hshows
    rfl

theorem after_reference (hx : x.inPlace S.program.registry = true) (s : State) :
    (x.reference S.constant).After S.program s fun item _ =>
      ∀ at_, item = .spot at_ → ∃ a, at_ = .place a := by
  unfold Symbol.reference
  split
  · exact .map fun _ _ _ at_ heq => by cases heq
  · rename_i hplain
    refine .map fun spot s' hspot at_ heq => ?_
    cases heq
    exact after_spot_of_inPlace hx (by simpa using hplain) s spot s' hspot

theorem quiet_asAddress (hi : i.Within S.Outside) : S.Quiet (ofExcept i.asAddress : Exec Address)
      fun a => a.root.Outside S.level S.slots := by
  cases i with
  | value u => exact quiet_asAddress_value hi
  | spot at_ => exact quiet_asAddress_spot hi

theorem quiet_blockOperands (hi : i.Within S.Outside) (hj : j.Within S.Outside) :
    S.Quiet (blockOperands i j) fun operands => operands.1.root.Outside S.level S.slots :=
  (quiet_asAddress hj).bind fun _ hb => (quiet_asAddress hi).bind fun _ ha =>
    (quiet_fetch hb).bind fun _ _ => quiet_pure ha

/-- A block is copied between the places that two operands stand for. -/
theorem Stage.ends_block (h : S.Stage s L) (hi : i.Within S.Outside) (hj : j.Within S.Outside)
    (hiw : i.asAddress = w.asAddress) (hjw : j.asAddress = w'.asAddress)
    (hblock : ∀ b, j.asAddress = .ok b → (fetch b).After S.program s fun v _ => ∃ items,
      v = .aggregate items)
    {type : TypeHash} (hcarry : S.method.Carries o [⟨.copyObject, .hash type⟩] o') :
    Ends S.program S.slots o o' (blockOperands i j >>= storeAt) s L [w', w] := by
  refine h.ends_store hcarry rfl (quiet_blockOperands hi hj) fun i' hi' σ k => ?_
  have hop : i'.op = .copyObject := hi'.1
  unfold effect
  rw [hop]
  simp only [cons_append, nil_append, copyBlock, popAddress_eq, bind_assoc]
  rw [exec_pop_bind h.hosts, ← hjw]
  cases hb : j.asAddress with
  | error e =>
    refine .inr ⟨e, w :: σ, exec_bind_of_error (exec_ofExcept _), ?_⟩
    rw [blockOperands, hb]
    rfl
  | ok b =>
    rw [exec_bind_of_ok (exec_ofExcept _), exec_pop_bind h.hosts, ← hiw]
    cases ha : i.asAddress with
    | error e =>
      refine .inr ⟨e, σ, exec_bind_of_error (exec_ofExcept _), ?_⟩
      rw [blockOperands, hb, ha]
      rfl
    | ok a =>
      have hroot := (quiet_asAddress hj s h.calm).answer b (by rw [exec_ofExcept, hb])
      have hfetch := (quiet_fetch (p := S.program) hroot s h.calm).standing L σ k h.like
      refine .inl ?_
      rw [exec_bind_of_ok (exec_ofExcept _), blockOperands, hb, ha]
      simp only [ofExcept, pure_bind, bind_assoc, storeAt]
      rw [exec_bind, exec_bind, hfetch]
      rcases hv : (fetch b).exec S.program s with ⟨e | v, s'⟩
      · rfl
      · obtain ⟨items, rfl⟩ := hblock b hb v s' hv
        rfl

/-- A value is stored through an address, as its type says. -/
theorem Stage.ends_through (h : S.Stage s L) (hw : w.Within S.Outside)
    (hacc : (k.acceptsStored v).2 = true) (hcarry : S.method.Carries o [k.storeCommand] o') :
    Ends S.program S.slots o o' ((ofExcept w.asAddress >>= fun a => pure (a, v)) >>= storeAt) s L
      [v, w] := by
  have hfalls : k.storeCommand.op.isTerminator = false := by cases k <;> rfl
  refine h.ends_store hcarry hfalls ((quiet_asAddress_value hw).bind fun a ha => quiet_pure ha)
    fun i hi σ k' => .inl ?_
  have hstore : effect S.method i = storeThrough i k.acceptsStored := by
    unfold effect
    rw [hi.1]
    cases k <;> rfl
  rw [hstore, storeThrough]
  simp only [cons_append, nil_append, popAddress_eq, bind_assoc]
  rw [exec_pop_bind h.hosts, exec_pop_bind h.hosts]
  simp [checkWidth, hacc, storeAt]

/-- The code of an assignment: the place and the value are found, then the value is stored. -/
theorem ends_copy (hS : S.Proper) (hcode : CopyCode S.program.registry dest source path ts xs)
    (hpath : path.Suits S.program.registry dest source)
    (hadm : ∀ v, S.program.registry.Admits source.valueType.hash v →
      S.program.registry.Admits dest.valueType.hash v) (h : S.Stage s L) (hdest : S.Ready dest s)
    (hsource : S.Ready source s) (hd : dest.Evaluable S.literals False)
    (hs : source.Evaluable S.literals False) (hdist : (ts.map Temporary.slot).Nodup)
    (hts : ts.map Temporary.slot ⊆ S.slots) (hcarry : S.method.Carries o xs o') :
    Ends S.program S.slots o o' (path.operands S.constant dest source >>= storeAt) s L [] := by
  cases hcode with
  | @direct ts ts' xs xs' hcode hcode' =>
    obtain ⟨hinDest, hinSource, hagg⟩ := hpath
    obtain ⟨o₁, hxs, hcarry⟩ := hcarry.split
    obtain ⟨o₂, hxs', hlast⟩ := hcarry.split
    rw [map_append] at hts
    obtain ⟨hts, hts'⟩ := append_subset.mp hts
    have hfirst : Runs S.program _ o o₁ (dest.reference S.constant) s L [] _ :=
      simulates_code hS hcode h hdest hts hxs
    rw [operands, bind_assoc]
    refine hfirst.ends h.like hts (hdest.quiet_reference s h.calm).grows
      fun i s₁ L₁ ws hi hagree hws => ?_
    obtain ⟨w, rfl, hshows⟩ := hws
    have hstage := h.after hdest.quiet_reference hi hagree hts
    have hsettle := (steady_reference (κ := S.constant) (p := S.program) dest hd).settles s
    rw [hi] at hsettle
    have hsource := hsource.settles hs hsettle
    have hsecond : Runs S.program _ o₁ o₂ (source.reference S.constant) s₁ L₁ [] _ :=
      simulates_code hS hcode' hstage hsource hts' hxs'
    rw [bind_assoc]
    refine (hsecond.frame [w]).ends hstage.like hts' (hsource.quiet_reference s₁ hstage.calm).grows
      fun j s₂ L₂ ws hj hagree' hws => ?_
    obtain ⟨us, rfl, w', rfl, hshows'⟩ := hws
    refine (hstage.after hsource.quiet_reference hj hagree' hts').ends_block
      ((hdest.quiet_reference s h.calm).answer i (by rw [hi]))
      ((hsource.quiet_reference s₁ hstage.calm).answer j (by rw [hj]))
      (asAddress_of_shows hshows (after_reference hinDest s i s₁ hi))
      (asAddress_of_shows hshows' (after_reference hinSource s₁ j s₂ hj))
        (fun b hb v s₃ hv => ?_) hlast
    -- what is fetched is the value of the source, which has the type of the destination
    have hval : (source.value S.constant).exec S.program s₁ = (.ok v, s₃) := by
      rwa [exec_value_of_inPlace hinSource, exec_bind_of_ok hj, hb]
    exact (admits_aggregate hagg).mp (hadm v (hsource.typed.hasType.1 v s₃ hval))
  | @indirect k pointer value ts ts' xs xs' hk hcode hcode' =>
    obtain ⟨o₁, hxs, hcarry⟩ := hcarry.split
    obtain ⟨o₂, hparkPointer, hcarry⟩ := hcarry.split_cons
    obtain ⟨o₃, hxs', hcarry⟩ := hcarry.split
    obtain ⟨o₄, hparkValue, hcarry⟩ := hcarry.split_cons
    obtain ⟨o₅, hgetPointer, hcarry⟩ := hcarry.split_cons
    obtain ⟨o₆, hgetValue, hlast⟩ := hcarry.split_cons
    simp only [map_cons, map_append, nodup_cons, mem_cons, mem_append, not_or] at hdist
    obtain ⟨⟨hne, -, hptr⟩, -, -⟩ := hdist
    simp only [map_cons, map_append, cons_subset, append_subset] at hts
    obtain ⟨hpointerSlot, hvalueSlot, hts, hts'⟩ := hts
    have hpointerSub : [pointer] ⊆ S.slots := by simpa using hpointerSlot
    have hvalueSub : [value] ⊆ S.slots := by simpa using hvalueSlot
    have hheld : Runs S.program _ o o₁ (dest.held S.constant) s L [] _ :=
      simulates_code hS hcode h hdest hts hxs
    rw [operands, bind_assoc]
    refine hheld.ends h.like hts (hdest.quiet_held s h.calm).grows
      fun w s₁ L₁ ws hw hagree hws => ?_
    subst hws
    have hstage := h.after hdest.quiet_held hw hagree hts
    have hwithin := (hdest.quiet_held s h.calm).answer w (by rw [hw])
    have hsettle := (steady_held (κ := S.constant) (p := S.program) dest hd).settles s
    rw [hw] at hsettle
    have hsource := hsource.settles hs hsettle
    -- The address is parked, and the source leaves it alone.
    refine (hstage.runs_park (U := [pointer]) hS hpointerSlot (mem_singleton_self _) w
      hparkPointer).then_ends hstage.like hpointerSub
      fun L₂ ws hagree hws => ?_
    obtain ⟨rfl, rfl⟩ := hws
    have hstage₂ := hstage.congr hagree hpointerSub
    have hval : Runs S.program _ o₂ o₃ (source.value S.constant) s₁ _ [] _ :=
      simulates_code hS hcode' hstage₂ hsource hts' hxs'
    rw [bind_assoc]
    refine (hval.keeps hptr).ends hstage₂.like hts' (hsource.quiet_value s₁ hstage.calm).grows
      fun v s₂ L₃ ws hv hagree' hws => ?_
    obtain ⟨rfl, hkept⟩ := hws
    have hstage₃ := hstage₂.after hsource.quiet_value hv hagree' hts'
    have hpointerSize := hstage.lt_size hS hpointerSlot
    have hvalueSize := hstage₃.lt_size hS hvalueSlot
    -- The value is parked in another slot, and both are read again.
    refine (hstage₃.runs_park (U := [value]) hS hvalueSlot (mem_singleton_self _) v
      hparkValue).then_ends hstage₃.like hvalueSub
      fun L₄ ws hagree hws => ?_
    obtain ⟨rfl, rfl⟩ := hws
    have hstage₄ := hstage₃.congr hagree hvalueSub
    have hpointerValue : (L₃.setIfInBounds value.toNat v)[pointer.toNat]? = some w := by
      rw [Array.getElem?_setIfInBounds_ne fun heq => hne (UInt16.toNat_inj.mp heq).symm, hkept]
      simp [hpointerSize]
    have hvalueValue : (L₃.setIfInBounds value.toNat v)[value.toNat]? = some v := by
      simp [hvalueSize]
    refine (hstage₄.runs_get (U := []) hpointerValue hgetPointer).then_ends hstage₄.like
      (nil_subset _) fun _ ws _ hws => ?_
    obtain ⟨rfl, rfl⟩ := hws
    refine ((hstage₄.runs_get (U := []) hvalueValue hgetValue).frame [w]).then_ends hstage₄.like
      (nil_subset _) fun _ ws _ hws => ?_
    obtain ⟨us, rfl, rfl, rfl⟩ := hws
    have hadmitted := hadm v (hsource.typed.hasType.1 v s₂ hv)
    exact hstage₄.ends_through hwithin
      (Indirect.acceptsStored_of_accepts (Indirect.accepts_of_admits hk hadmitted)) hlast
  | @stack ts ts' xs xs' hcode hcode' =>
    obtain ⟨o₁, hxs, hxs'⟩ := hcarry.split
    rw [map_append] at hts
    obtain ⟨hts, hts'⟩ := append_subset.mp hts
    have hfirst : Runs S.program _ o o₁ (source.value S.constant) s L [] _ :=
      simulates_code hS hcode h hsource hts hxs
    rw [operands, bind_assoc]
    refine hfirst.ends h.like hts (hsource.quiet_value s h.calm).grows
      fun v s₁ L₁ ws hv hagree hws => ?_
    subst hws
    have hsettle := (steady_value (κ := S.constant) (p := S.program) source hs).settles s
    rw [hv] at hsettle
    refine (ends_set hS hcode' (h.after hsource.quiet_value hv hagree hts)
      (hdest.settles hd hsettle) hts' hxs').congr ?_
    have hplain : dest.dataType.isByRef = false := hpath
    simp [storeAt, place_of_plain hplain]

end Scene

/-! ### Assignments in a session -/

/-- Assign a source to a destination, in one of the two ways that a user can ask for. -/
def Operation.assigning (force : Bool) (dest source : Symbol) : Operation :=
  if force then .assignStackMediated dest source else .assign dest source

namespace Session

variable {m : Method} {s s' : Session}

theorem Performs.assign (h : s.Performs r m (.assigning force dest source) s') :
    ∃ ts xs, CopyCode r dest source (s.setting.copyPath dest source force) ts xs ∧
      dest ∈ s.symbols ∧ source ∈ s.symbols ∧ s.setting.compatible dest source = true ∧
      s.Leaves m (.assigning force dest source) s' ts xs := by
  obtain ⟨segs, hinv, -, -, hreg, -⟩ := h.inv
  obtain ⟨a, hok⟩ := h.succeeds
  have hassign : (Operation.assigning force dest source).emission.outcome s.setting s.body =
      (Emission.assignBy force dest source >>= fun _ => pure Answer.done).outcome s.setting
        s.body := by
    cases force <;> rfl
  have hsyms : (Operation.assigning force dest source).symbols = [dest, source] := by
    cases force <;> rfl
  rw [perform_eq, hassign, Emission.outcome_bind] at hok
  rcases Emission.assignBy_cases hinv.body.sound force dest source with ⟨e, b, hout, -⟩ |
      ⟨b, ts, xs, hout, hcopy, hdest, hsource, hacc, hcode, hgrows, hemit⟩
  · rw [hout] at hok
    cases hok
  have hafter : s.after (.assigning force dest source) =
      { s with context := ⟨s.setting, b.release s.setting.options⟩ } := by
    rw [after, perform_eq, hassign, Emission.outcome_bind, hout]
    rfl
  have hheld : ∀ x ∈ [dest, source], x.context = s.setting.id → x ∈ s.symbols := fun x hx hctx =>
    (h.permitted.symbols x (hsyms ▸ hx)).resolve_right fun hne => hne hctx
  have hdest := hheld dest (by simp) hdest
  have hsource := hheld source (by simp) hsource
  have hdraws : Slots.Draws s.setting.options s.body.slots b.slots := by
    have hdraws := ((Emission.covers_draws s.setting).copy dest source
      (s.setting.copyPath dest source force)).atomically s.body
    rwa [hcopy] at hdraws
  exact ⟨ts, xs, hreg ▸ hcode, hdest, hsource, hacc.2, h.leaves hinv hdraws hgrows hemit
    (.copy (hinv.symbols dest hdest) (hinv.symbols source hsource) ⟨trivial, trivial⟩ hacc hcode)
    hcode.straight (.inr hafter)⟩

/-- The constants of a finished method are found by their keys. -/
theorem Performs.valid {op : Operation} (h : s.Performs r m op s') : m.constants.Valid := by
  obtain ⟨segs, hinv, -⟩ := h.inv
  have hstep : Step (fun _ => True) s (s.after op) := ⟨op, h.permitted, trivial, rfl⟩
  obtain ⟨segs', hinv', -⟩ := hinv.steps (steps_free (.head hstep h.continued))
  have hpool := hinv'.body.sound.pool
  obtain ⟨-, ⟨-, -, rfl⟩ | ⟨-, rfl⟩⟩ := Context.finish_ok h.finished <;> exact hpool

end Session

/-- In a state the destination denotes a place and the source a value, and storing the value there
leads to another state. -/
def Symbol.Assigns (κ : Literal → Literal) (p : Program) (dest source : Symbol) (s s' : State) :
    Prop :=
  ∃ a v, (dest.place κ).result p s = .ok a ∧ (source.value κ).result p s = .ok v ∧
    (Exec.store a v).exec p s = (.ok (), s')

namespace CopyPath

open Exec

variable {κ : Literal → Literal} {p : Program} {s s' : State}

/-- If the assignment can be done, it is done, but static fields may have got their defaults. -/
theorem exec_of_assigns (hpath : path.Suits p.registry dest source)
    (hdest : dest.Evaluable literals False) (hsource : source.Evaluable literals False)
    (h : Symbol.Assigns κ p dest source s s') :
    ∃ s'', (path.operands κ dest source >>= storeAt).exec p s = (.ok (), s'') ∧
    s'.Settles p.registry s'' := by
  obtain ⟨a, v, ha, hv, hstore⟩ := h
  have hres := (result_operands hdest hsource hpath a v).mpr ⟨ha, hv⟩
  have hsettle := (steady_operands (κ := κ) (p := p) hdest hsource path).settles s
  rcases hout : (path.operands κ dest source).exec p s with ⟨outcome, t⟩
  rw [result, hout] at hres
  rw [hout] at hsettle
  cases hres
  have hstored := store_settles hsettle a v
  rw [result, result, hstore] at hstored
  refine ⟨_, ?_, hstored.2⟩
  rw [exec_bind_of_ok hout]
  exact Prod.ext hstored.1 rfl

/-- If it cannot be done, there is a fault, and nothing has changed but that static fields may have
got their defaults. -/
theorem exec_of_not_assigns (hpath : path.Suits p.registry dest source)
    (hdest : dest.Evaluable literals False) (hsource : source.Evaluable literals False)
    (h : ∀ s', ¬Symbol.Assigns κ p dest source s s') :
    ∃ e s'', (path.operands κ dest source >>= storeAt).exec p s = (.error e, s'') ∧
    s.Settles p.registry s'' := by
  have hsettle := (steady_operands (κ := κ) (p := p) hdest hsource path).settles s
  rcases hout : (path.operands κ dest source).exec p s with ⟨e | ⟨a, v⟩, t⟩ <;> rw [hout] at hsettle
  · exact ⟨e, t, exec_bind_of_error hout, hsettle⟩
  · have hres : (path.operands κ dest source).result p s = .ok (a, v) := by rw [result, hout]
    obtain ⟨ha, hv⟩ := (result_operands hdest hsource hpath a v).mp hres
    have hstored := store_settles hsettle a v
    rw [exec_bind_of_ok hout]
    rcases hlast : (store a v).exec p t with ⟨e | _, t'⟩
    · exact ⟨e, t', hlast, hsettle.trans (settles_of_store_error hlast)⟩
    · -- the store would have succeeded in the state before
      rw [result, result, hlast] at hstored
      exact absurd ⟨a, v, ha, hv, Prod.ext hstored.1.symm rfl⟩ (h ((store a v).exec p s).2)

end CopyPath

namespace Session

/-- The code of an assignment in a state that runs the method, wherever it stands in its code. -/
theorem Performs.ends (hr : r.Registered) {m : Method} {s s' : Session}
    (hassign : s.Performs r m (.assigning force dest source) s')
    (hdest : dest.Evaluable (fun _ => True) False)
    (hsource : source.Evaluable (fun _ => True) False)
    {p : Program} (hp : p.registry = r) {st : State} {n : Nat} (hhosts : st.Hosts m)
    (hcalm : st.Calm r n s'.temporaries) (hlike : st.Like s'.temporaries L)
    (htyped : dest.Typed m.constants.kept p st) (htyped' : source.Typed m.constants.kept p st) :
    (s.setting.copyPath dest source force).Suits r dest source ∧
    Exec.Ends p s'.temporaries s.body.emitter.offset
      (s.after (.assigning force dest source)).body.emitter.offset
      ((s.setting.copyPath dest source force).operands m.constants.kept dest source >>= storeAt)
      st L [] := by
  subst hp
  obtain ⟨ts, xs, hcode, hheld, hheld', hcompatible, hleaves⟩ := hassign.assign
  obtain ⟨segs, hinv, -, -, hreg, hfun⟩ := hassign.inv
  let S : Scene := ⟨p, m, s.setting, .free, n, s'.temporaries, fun _ => True, m.constants.kept⟩
  have hS : S.Proper := ⟨hreg, hr, hfun.symm, hassign.valid.represents_kept, hleaves.declared⟩
  have hready : S.Ready dest st :=
    ⟨hleaves.made dest hheld, hdest.boxing, htyped, hleaves.apart dest hheld⟩
  have hready' : S.Ready source st :=
    ⟨hleaves.made source hheld', hsource.boxing, htyped', hleaves.apart source hheld'⟩
  have hpath := s.setting.suits_copyPath dest source force
  rw [hreg] at hpath
  exact ⟨hpath, Scene.ends_copy hS hcode hpath
    (fun v => hreg ▸ Setting.admits_of_compatible hcompatible) ⟨hcalm, hhosts, hlike⟩ hready hready'
    hdest hsource hleaves.distinct hleaves.temporary hleaves.carries⟩

/-- An assignment updates one place. Let both sides be without calls and boxes. If the destination
denotes a place and the source a value, and the value can be stored there, the machine comes to the
end of the code with its operand stack as it was, and outside the temporaries the state is the one
in which that value was stored in that place: it is found there, and elsewhere is what was there
before. If not, a fault occurs, and outside the temporaries the state is as it was. In both cases
static fields that were read for the first time have got their defaults. Literals are the constants
that the method has for them. -/
theorem assignment_updates_one_place {r : Registry} (hr : r.Registered) {m : Method}
    {s s' : Session}
    {force : Bool} {dest source : Symbol}
    (hassign : s.Performs r m (.assigning force dest source) s')
    (hdest : dest.Evaluable (fun _ => True) False)
    (hsource : source.Evaluable (fun _ => True) False)
    {p : Program} (hp : p.registry = r) {st : State} {f : Frame} {rest : List Frame}
    (hat : st.At m s.body.emitter.offset f rest)
    (hclosed : st.Closed r (Root.Outside rest.length s'.temporaries))
    (htyped : dest.Typed m.constants.kept p st) (htyped' : source.Typed m.constants.kept p st) :
    (∀ a v stu, (dest.place m.constants.kept).result p st = .ok a →
      (source.value m.constants.kept).result p st = .ok v →
      (Exec.store a v).exec p st = (.ok (), stu) →
      (Exec.fetch a).result p stu = .ok v ∧
      (∀ b, a.Apart b → (Exec.fetch b).result p stu = (Exec.fetch b).result p st) ∧
      ∃ st' L, stu.Settles r st' ∧ stu.Like s'.temporaries L ∧ Exec.Reaches p st
        (st'.standing L f.stack (s.after (.assigning force dest source)).body.emitter.offset)) ∧
    ((∀ stu, ¬Symbol.Assigns m.constants.kept p dest source st stu) →
      ∃ e st' L σ k t, st.Settles r st' ∧ st.Like s'.temporaries L ∧ Exec.Reaches p st t ∧
        Exec.step.exec p t = (.error e, st'.standing L σ k)) := by
  obtain ⟨hpath, hends⟩ := hassign.ends hr hdest hsource hp hat.hosts ⟨hat.depth, hclosed⟩
    (hat.like s'.temporaries) htyped htyped'
  subst hp
  refine ⟨fun a v stu ha hv hstore => ?_, fun hnot => ?_⟩
  · obtain ⟨st', hexec, hsettles⟩ :=
      CopyPath.exec_of_assigns hpath hdest hsource ⟨a, v, ha, hv, hstore⟩
    obtain ⟨L, hreaches, hlike⟩ := hends.ok st' hexec f.stack
    rw [List.nil_append, hat.standing] at hreaches
    exact ⟨Exec.fetch_store hstore, fun b hb => Exec.fetch_store_apart hstore hb, st', L, hsettles,
      hlike.congr hsettles.frames.symm, hreaches⟩
  · obtain ⟨e, st', hexec, hsettles⟩ := CopyPath.exec_of_not_assigns hpath hdest hsource hnot
    obtain ⟨t, L, σ, k, hreaches, hstep, hlike⟩ := hends.error e st' hexec f.stack
    rw [List.nil_append, hat.standing] at hreaches
    exact ⟨e, st', L, σ, k, t, hsettles, hlike.congr hsettles.frames.symm, hreaches, hstep⟩

end Session

/-! ### An integer that is passed by reference -/

namespace Boxed

/-- The second field of the boxed pair is assigned to the integer. -/
def assignment : Operation := .assigning false target part

theorem typed_target {κ : Literal → Literal}
    (hkind : registry.kind? target.valueType.hash = some (.primitive (.int .int32)))
    (hval : (target.value κ).result program (state assignment) = .ok (.int32 0))
    (hheld : (target.held κ).result program (state assignment) =
      .ok (.address (.ofRoot (.heap ⟨1⟩)))) : target.Typed κ program (state assignment) := by
  have hadm : registry.Admits target.valueType.hash (.int32 0) := by
    rw [Registry.Admits, hkind]
    exact ⟨_, rfl⟩
  refine ⟨fun v s' hv => ?_, fun _ w s' hw items => ?_⟩
  · rw [result, hv] at hval
    cases hval
    exact hadm
  · rw [result, hw] at hheld
    cases hheld
    simp

/-- The literals that the method keeps. -/
def kept : Literal → Literal := (method assignment).constants.kept

theorem evaluation_assignment : (session.after assignment).temporaries = [0, 1, 2] ∧
    (session.perform assignment).1.toBool = true ∧
    (session.after assignment).context.finish.toBool = true ∧
    registry.kind? target.valueType.hash = some (.primitive (.int .int32)) ∧
    (target.place kept).result program (state assignment) = .ok (.ofRoot (.heap ⟨1⟩)) ∧
    (target.value kept).result program (state assignment) = .ok (.int32 0) ∧
    (target.held kept).result program (state assignment) = .ok (.address (.ofRoot (.heap ⟨1⟩))) ∧
    (box.value kept).result program (state assignment) = .ok (.ref ⟨0⟩) ∧
    (content.value kept).result program (state assignment) = .ok (.aggregate [.int32 3, .int32 5]) ∧
    (part.value kept).result program (state assignment) = .ok (.int32 5) ∧
    (store (.ofRoot (.heap ⟨1⟩)) (.int32 5)).result program (state assignment) = .ok () := by
  decide +kernel

end Boxed

namespace Session

/-- The value goes through two temporaries and a third one that holds the pair. -/
theorem assigning_boxed_field_stores_five :
    Boxed.target.dataType.isByRef = true ∧
      (Boxed.session.after Boxed.assignment).temporaries = [0, 1, 2] ∧
      ∃ stu st' L, (Exec.fetch (.ofRoot (.heap ⟨1⟩))).result Boxed.program stu = .ok (.int32 5) ∧
        stu.Settles Boxed.registry st' ∧ stu.Like [0, 1, 2] L ∧
        Exec.Reaches Boxed.program (Boxed.state Boxed.assignment) (st'.standing L []
          (Boxed.session.after Boxed.assignment).body.emitter.offset) := by
  obtain ⟨htemporaries, hdone, hfinish, hkind, hplace, hzero, hheld, hbox, hcontent, hvalue,
    hstore⟩ :=
    Boxed.evaluation_assignment
  have hperforms := Boxed.performs Boxed.assignment
    (by
      simp [Boxed.assignment, Operation.assigning, Operation.symbols, Boxed.session, Boxed.holding])
    rfl rfl hdone hfinish
  obtain ⟨hok, -⟩ := assignment_updates_one_place Boxed.registered_registry hperforms trivial
    ⟨trivial, trivial⟩ rfl (p := Boxed.program) (Boxed.at_state _) (Boxed.closed_state _ _)
    (Boxed.typed_target hkind hzero hheld) (Boxed.typed_part hbox hcontent hvalue)
  obtain ⟨hthere, -, st', L, hsettles, hlike, hreaches⟩ :=
    hok _ _ _ hplace hvalue (Prod.ext hstore rfl)
  rw [htemporaries] at hlike
  exact ⟨rfl, htemporaries, _, st', L, hthere, hsettles, hlike, hreaches⟩

end Session

/-! ### A literal that is not kept -/

namespace SignedZero

def zero : Literal := .float .float64 0

def negativeZero : Literal := .float .float64 (BitVec.ofNat 64 0x8000000000000000)

def function : FunctionDecl := .free "zeros" [] zero.dataType

/-- The variables of the function. -/
def variable_ (slot : UInt16) : Symbol := .localSlot ⟨0⟩ slot zero.dataType

/-- Zero is assigned to one variable and negative zero to another one, which is returned. -/
def operations : List Operation :=
  [.declare zero.dataType, .declare zero.dataType, .make (.literal zero),
    .make (.literal negativeZero), .assign (variable_ 0) (.literal ⟨0⟩ zero),
    .assign (variable_ 1) (.literal ⟨0⟩ negativeZero), .returnValue (some (variable_ 1))]

def session : Session := (Session.start ⟨0⟩ .withPrimitives function .default).performAll operations

/-- A machine with the function that assigns both zeros. -/
def machine : Machine where
  program :=
    { registry := .withPrimitives
      methods := (∅ : Std.TreeMap TypeHash Method).insert function.hash session.method
      natives := ∅
      maxDepth := Machine.defaultMaxDepth }
  state := .initial

theorem evaluation : session.context.finish.toBool = true ∧
    (machine.invoke 10 function.hash []).map Prod.fst = some (.ok (.lit zero)) := by
  decide +kernel

end SignedZero

namespace Session

/-- The method has one constant for both zeros, so the second variable gets the wrong one. -/
theorem negative_zero_is_assigned_as_zero :
    SignedZero.session.context.finish = .ok SignedZero.session.method ∧
      (SignedZero.machine.invoke 10 SignedZero.function.hash []).map Prod.fst =
        some (.ok (.lit SignedZero.zero)) ∧ SignedZero.zero ≠ SignedZero.negativeZero := by
  obtain ⟨hfinish, hinvoke⟩ := SignedZero.evaluation
  exact ⟨finish_method hfinish, hinvoke, by decide⟩

end Session

end StackCode
