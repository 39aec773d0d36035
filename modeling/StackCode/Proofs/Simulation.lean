import StackCode.Proofs.Registered
import StackCode.Proofs.Stretch

/-!
# The code of a symbol computes the symbol

The code of a symbol, whatever it is loaded for, computes what the symbol is evaluated to: its value
for a value, and for an address the place it has, or a temporary that holds its value. This is
proved along the code, for all intents at once.
-/

namespace StackCode

open List StackCode.Symbol Spot State MonadExcept

variable {x : Symbol} {m : Method} {slot : UInt16} {cid : ContextId} {f : FieldDecl} {S : Scene}
  {α : Type} {s s' : State} {L L' : Array Value} {U : List UInt16} {o o' o₁ : Nat} {c : Command}
  {a : Access} {vs : List Value} {t : DataType} {xs : List Command}

/-! ### What stands for a symbol -/

/-- The operand for a spot that is a place. -/
def Spot.shown : Spot → Value
  | .place a => .address a
  | .inHand v _ => v

/-- What a symbol is evaluated to: a value, or where the value is. -/
inductive Item
  | value (v : Value)
  | spot (where_ : Spot)

namespace Item

/-- An operand stands for an item: the value itself, the address of a place, or an address below a
temporary that holds what is stored nowhere. -/
def Shows (n : Nat) (U : List UInt16) (L : Array Value) : Item → Value → Prop
  | .value v, w => w = v
  | .spot (.place a), w => w = .address a
  | .spot (.inHand v path), w =>
    ∃ t ∈ U, w = .address ⟨.localSlot n t, path⟩ ∧ L[t.toNat]? = some v

/-- Where a member of an instance is. -/
def member (index : UInt16) : Item → Exec Spot
  | .value v => do return .place (← Exec.memberAddress v index)
  | .spot s => pure (s.member index)

/-- Where the addresses of an item lead. -/
def Within (P : Root → Prop) : Item → Prop
  | .value v => v.Within P
  | .spot s => s.Within P

end Item

@[simp] theorem Spot.fetch_inHand (v : Value) : (inHand v []).fetch = pure v := rfl

namespace Symbol

variable (κ : Literal → Literal)

/-- What is pushed for the address of a symbol. -/
def reference (s : Symbol) : Exec Item :=
  if s.dataType.isByRef then Item.value <$> s.held κ else Item.spot <$> s.spot κ

/-- What is pushed for an instance. -/
def target (s : Symbol) : Exec Item := do
  if (← read).registry.isValueType s.valueType.hash then s.reference κ else Item.value <$> s.value κ

variable {κ}

theorem spot_field (c : ContextId) (holder : Symbol) (f : FieldDecl) :
    (field c holder f).spot κ = holder.target κ >>= Item.member f.index := by
  rw [spot, target, bind_assoc]
  congr 1
  funext p
  by_cases hval : p.registry.isValueType holder.valueType.hash = true
  · by_cases href : holder.dataType.isByRef = true
    · simp [hval, href, reference, held, Item.member]
    · simp [hval, href, reference, Item.member]
  · simp [hval, value, Item.member]

theorem spot_element (c : ContextId) (array index : Symbol) (t : DataType) :
    (element c array index t).spot κ = array.value κ >>= fun a => index.value κ >>= fun i =>
      place <$> Exec.elementAddress a i := by
  simp [spot, value]

/-- A symbol that has no place is a value in hand. -/
theorem spot_of_not_address {s : Symbol} {literals : Literal → Prop} {boxing : Prop}
    (hs : s.Evaluable literals boxing) (hcannot : s.capabilities.address = false) :
    s.spot κ = (fun v => inHand v []) <$> s.held κ := by
  cases s with
  | literal | binary | unary | arrayLength | converted => simp [held, spot]
  | localSlot | argument | field | staticField | element | captured => cases hcannot
  | call | callOn | construct | newArray => exact absurd hs id

end Symbol

/-! ### The machine before a piece of code -/

/-- A function gives the constants that stand for certain literals in code. -/
structure Pool.Represents (k : Pool) (literals : Literal → Prop) (κ : Literal → Literal) :
    Prop where
  null : κ .null = .null
  bool : ∀ b, κ (.bool b) = .bool b
  constant : ∀ l l' i, literals l → k.literal? i = some l' →
    (Constant.literal l').key = (Constant.literal l).key → κ l = l'

/-- What does not change while code runs: the program, the method and its setting, the level of the
innermost frame, the slots for temporaries, and what is known of literals. -/
structure Scene where
  program : Program
  method : Method
  setting : Setting
  discipline : Discipline
  level : Nat
  slots : List UInt16
  literals : Literal → Prop
  constant : Literal → Literal

namespace Scene

/-- The parts of a scene fit together. -/
structure Proper (S : Scene) : Prop where
  registry : S.setting.registry = S.program.registry
  registered : S.program.registry.Registered
  function : S.method.function = S.setting.function
  constants : S.method.constants.Represents S.literals S.constant
  declared : ∀ t ∈ S.slots, t.toNat < S.method.locals.size

/-- The machine before a piece of code. -/
structure Stage (S : Scene) (s : State) (L : Array Value) : Prop where
  calm : s.Calm S.program.registry S.level S.slots
  hosts : s.Hosts S.method
  like : s.Like S.slots L

/-- What is known of a symbol before it is evaluated. -/
structure Ready (S : Scene) (x : Symbol) (s : State) : Prop where
  made : S.setting.Made S.discipline S.method.locals x
  evaluable : x.Evaluable S.literals True
  typed : x.Typed S.constant S.program s
  apart : ∀ slot, x.Uses slot → slot ∉ S.slots

/-- A computation that leaves almost everything alone. -/
abbrev Quiet {α : Type} (S : Scene) (x : Exec α) (Q : α → Prop) : Prop :=
  Exec.Quiet S.program S.level S.slots x Q

/-- Roots that are no temporaries. -/
abbrev Outside (S : Scene) : Root → Prop := Root.Outside S.level S.slots

theorem Stage.after {x : Exec α} {Q : α → Prop} {a : α} (h : S.Stage s L) (hquiet : S.Quiet x Q)
    (hx : x.exec S.program s = (.ok a, s')) (hagree : Agree U L L') (hU : U ⊆ S.slots) :
    S.Stage s' L' := by
  have hat := hquiet s h.calm
  have hcalm := hat.calm h.calm
  have hframes := hat.grows.frames
  rw [hx] at hcalm hframes
  exact ⟨hcalm, h.hosts.congr hframes, (h.like.congr hframes).agree hagree hU⟩

theorem Ready.quiet_spot (h : S.Ready x s) :
    S.Quiet (x.spot S.constant) fun spot => spot.Within S.Outside :=
  x.quiet_spot h.apart

theorem Ready.quiet_held (h : S.Ready x s) :
    S.Quiet (x.held S.constant) fun v => v.Within S.Outside :=
  x.quiet_held h.apart

theorem Ready.quiet_value (h : S.Ready x s) :
    S.Quiet (x.value S.constant) fun v => v.Within S.Outside :=
  x.quiet_value h.apart

end Scene

/-! ### Single instructions -/

theorem Exec.effect_local {i : Instr} (hi : (Command.onLocal a slot).Encoded m.constants i) :
    effect m i = level >>= fun n => accessRoot i (.localSlot n slot) a := by
  obtain ⟨hop, -, hoperand⟩ := hi
  have hoperand : i.operand = slot.toNat := hoperand
  unfold effect
  rw [hop, hoperand, UInt16.ofNat_toNat]
  rfl

theorem Exec.effect_argument {i : Instr}
    (hi : (⟨.argument a, .slot slot⟩ : Command).Encoded m.constants i) :
    effect m i = level >>= fun n => accessRoot i (.argument n slot) a := by
  obtain ⟨hop, -, hoperand⟩ := hi
  have hoperand : i.operand = slot.toNat := hoperand
  unfold effect
  rw [hop, hoperand, UInt16.ofNat_toNat]

namespace Scene

open Exec

/-- An instruction that pops operands and pushes what is computed quietly. -/
theorem Stage.runs {x : Exec α} {Q : α → Prop} (h : S.Stage s L)
    (hcarry : S.method.Carries o [c] o')
    (hfalls : c.op.isTerminator = false) (hquiet : S.Quiet x Q) (g : α → Value)
    (heff : ∀ i, c.Encoded S.method.constants i → ∀ σ k,
      (effect S.method i).exec S.program (s.standing L (vs ++ σ) k) =
        (x >>= fun a => push (g a)).exec S.program (s.standing L σ k)) :
    Runs S.program U o o' x s L vs fun a L' ws => L' = L ∧ ws = [g a] :=
  runs_push h.hosts hcarry hfalls (hquiet s h.calm).grows ((hquiet s h.calm).mirrors h.like) g heff

/-- An instruction that pops operands and pushes a value. -/
theorem Stage.runs_value {x : Exec Value} {Q : Value → Prop} (h : S.Stage s L)
    (hcarry : S.method.Carries o [c] o') (hfalls : c.op.isTerminator = false) (hquiet : S.Quiet x Q)
    (heff : ∀ i, c.Encoded S.method.constants i → ∀ σ k,
      (effect S.method i).exec S.program (s.standing L (vs ++ σ) k) =
        (x >>= push).exec S.program (s.standing L σ k)) :
    Runs S.program U o o' x s L vs fun v _ ws => ws = [v] :=
  (h.runs hcarry hfalls hquiet id heff).mono fun _ _ _ _ _ hws => hws.2

/-- What the code of a piece computes. -/
def Simulates (S : Scene) (U : List UInt16) (o o' : Nat) (s : State) (L : Array Value) :
    Piece → Prop
  | .access x .get => Runs S.program U o o' (x.held S.constant) s L [] fun v _ ws => ws = [v]
  | .access x .address => Runs S.program U o o' (x.spot S.constant) s L [] fun spot L' ws =>
    ∃ w, ws = [w] ∧ (Item.spot spot).Shows S.level U L' w
  | .load x .value => Runs S.program U o o' (x.value S.constant) s L [] fun v _ ws => ws = [v]
  | .load x (.reference _) =>
    Runs S.program U o o' (x.reference S.constant) s L [] fun item L' ws =>
    ∃ w, ws = [w] ∧ item.Shows S.level U L' w
  | .load x .callTarget => Runs S.program U o o' (x.target S.constant) s L [] fun item L' ws =>
    ∃ w, ws = [w] ∧ item.Shows S.level U L' w
  | .access _ .set | .load _ (.parameter _) | .arguments _ _ => True

/-! ### Storage that is known by its root -/

section Root

/-- Access to storage whose root is found by a computation. -/
theorem Stage.simulates_root (h : S.Stage s L) (root : Exec Root) (hready : S.Ready x s)
    (hspot : x.spot S.constant = root >>= fun r => pure (.place (.ofRoot r)))
    (hcarry : S.method.Carries o [c] o') (hfalls : c.op.isTerminator = false)
    (heff : a ≠ .set → ∀ i, c.Encoded S.method.constants i →
      effect S.method i = root >>= fun r => accessRoot i r a) :
    S.Simulates U o o' s L (.access x a) := by
  cases a with
  | get =>
    refine h.runs_value hcarry hfalls hready.quiet_held fun i hi σ k => ?_
    rw [heff (by simp) i hi, Symbol.held, hspot]
    simp [accessRoot, Spot.fetch]
  | set => trivial
  | address =>
    refine (h.runs hcarry hfalls hready.quiet_spot Spot.shown fun i hi σ k => ?_).mono
      fun spot s' _ ws hx hws => ?_
    · rw [heff (by simp) i hi, hspot]
      simp [accessRoot, Spot.shown]
    · have hplace : ∃ a, spot = .place a := by
        rw [hspot, exec_bind] at hx
        rcases hroot : root.exec S.program s with ⟨e | r, t⟩ <;> rw [hroot] at hx <;> cases hx
        exact ⟨_, rfl⟩
      obtain ⟨a, rfl⟩ := hplace
      exact ⟨_, hws.2, rfl⟩

theorem Stage.simulates_localSlot (h : S.Stage s L) (hready : S.Ready (.localSlot cid slot t) s)
    (hcarry : S.method.Carries o [.onLocal a slot] o') :
    S.Simulates U o o' s L (.access (.localSlot cid slot t) a) := by
  refine h.simulates_root ((Root.localSlot · slot) <$> Exec.level) hready (by simp [Symbol.spot])
    hcarry rfl fun _ i hi => ?_
  rw [effect_local hi, bind_map_left]

theorem Stage.simulates_argument (h : S.Stage s L) (hready : S.Ready (.argument cid slot t) s)
    (hcarry : S.method.Carries o [⟨.argument a, .slot slot⟩] o') :
    S.Simulates U o o' s L (.access (.argument cid slot t) a) := by
  refine h.simulates_root ((Root.argument · slot) <$> Exec.level) hready (by simp [Symbol.spot])
    hcarry rfl fun _ i hi => ?_
  rw [effect_argument hi, bind_map_left]

theorem Stage.simulates_staticField (h : S.Stage s L) (hready : S.Ready (.staticField cid f) s)
    (hcarry : S.method.Carries o [⟨.staticField a, .hash f.hash⟩] o') :
    S.Simulates U o o' s L (.access (.staticField cid f) a) := by
  refine h.simulates_root (pure (.static f.hash)) hready (by simp [Symbol.spot]) hcarry rfl
    fun hset i hi => ?_
  obtain ⟨hop, -, hhash⟩ := hi
  unfold effect
  rw [hop]
  cases a with
  | get => exact hashOperand_bind hhash _
  | set => exact absurd rfl hset
  | address => exact hashOperand_bind hhash _

/-- The captured values of a method are those of its owner. -/
theorem Stage.simulates_captured (hS : S.Proper) (h : S.Stage s L) {id : CapturedId}
    (hready : S.Ready (.captured cid id) s)
    (hop : c = ⟨.loadCaptured, .slot id.index⟩ ∧ a = .get ∨
      c = ⟨.capturedAddress, .slot id.index⟩ ∧ a = .address) (hcarry : S.method.Carries o [c] o') :
    S.Simulates U o o' s L (.access (.captured cid id) a) := by
  have howner : S.method.function.owner = some id.owner := by
    rw [hS.function]
    exact hready.made.checked.1
  have hroot : ∀ i : Instr, i.operand = id.index.toNat →
      capturedRoot S.method i = pure (.captured id.owner id.index) := by
    intro i hoperand
    unfold capturedRoot
    rw [howner, hoperand, UInt16.ofNat_toNat]
  have hspot : (Symbol.captured cid id).spot S.constant =
      (pure (.captured id.owner id.index) : Exec Root) >>= fun r => pure (.place (.ofRoot r)) := by
    simp [Symbol.spot]
  rcases hop with ⟨rfl, rfl⟩ | ⟨rfl, rfl⟩
  all_goals
    refine h.simulates_root _ hready hspot hcarry rfl fun _ i hi => ?_
    obtain ⟨hop, -, hoperand⟩ := hi
    unfold effect
    rw [hop, ← hroot i hoperand]
    simp [accessRoot]

end Root

/-! ### Values that are computed -/

section Computed

theorem Stage.simulates_literal (hS : S.Proper) (h : S.Stage s L) {l : Literal}
    (hready : S.Ready (.literal cid l) s) (hl : LiteralCode l xs)
    (hcarry : S.method.Carries o xs o') :
    S.Simulates U o o' s L (.access (.literal cid l) .get) := by
  have hheld : (Symbol.literal cid l).held S.constant = pure (.lit (S.constant l)) := by
    simp [Symbol.held, Symbol.spot]
  suffices hpush : ∀ c, xs = [c] → c.op.isTerminator = false →
    (∀ i, c.Encoded S.method.constants i →
      effect S.method i = push (.lit (S.constant l))) →
      S.Simulates U o o' s L (.access (.literal cid l) .get) by
    rcases hl with ⟨rfl, rfl⟩ | ⟨b, rfl, rfl⟩ | ⟨wide, l', hkey, rfl⟩
    · refine hpush _ rfl rfl fun i hi => ?_
      unfold effect
      rw [hi.1, hS.constants.null]
      rfl
    · refine hpush _ rfl rfl fun i hi => ?_
      unfold effect
      rw [hi.1, hS.constants.bool]
      rfl
    · refine hpush _ rfl rfl fun i hi => ?_
      obtain ⟨hop, -, hl'⟩ := hi
      have hconst := hS.constants.constant l l' i.operand hready.evaluable hl' hkey
      unfold effect
      rw [hop, hconst]
      rw [literalOperand, hl', pure_bind]
  rintro c rfl hfalls heff
  refine h.runs_value hcarry hfalls hready.quiet_held fun i hi σ k => ?_
  rw [heff i hi, hheld, pure_bind]
  rfl

section

variable (h : S.Stage s L)
include h

theorem Stage.runs_binary (op : BinaryOp) (a b : Value)
    (hcarry : S.method.Carries o [.plain op.opcode] o') :
    Runs S.program U o o' (ofExcept (op.apply a b) : Exec Value) s L [b, a] fun v _ ws =>
      ws = [v] := by
  refine h.runs_value hcarry (by cases op <;> rfl) (quiet_ofExcept fun _ _ => trivial)
    fun i hi σ k => ?_
  have hop : i.op = op.opcode := hi.1
  unfold effect
  rw [hop]
  cases op with
  | arith op =>
    simp only [BinaryOp.opcode, cons_append, nil_append]
    rw [exec_pop_bind h.hosts, exec_pop_bind h.hosts]
    rfl
  | compare op =>
    simp only [BinaryOp.opcode, cons_append, nil_append]
    rw [exec_pop_bind h.hosts, exec_pop_bind h.hosts, BinaryOp.apply]
    cases Value.compare op a b <;> rfl

theorem Stage.runs_unary (op : UnaryOp) (a : Value)
    (hcarry : S.method.Carries o [.plain op.opcode] o') :
    Runs S.program U o o' (ofExcept (op.apply a) : Exec Value) s L [a] fun v _ ws => ws = [v] := by
  refine h.runs_value hcarry (by cases op <;> rfl) (quiet_ofExcept fun _ _ => trivial)
    fun i hi σ k => ?_
  have hop : i.op = op.opcode := hi.1
  unfold effect
  rw [hop]
  cases op with
  | neg | not =>
    simp only [UnaryOp.opcode, cons_append, nil_append]
    rw [exec_pop_bind h.hosts]
    rfl

theorem Stage.runs_arrayLength (v : Value) (hcarry : S.method.Carries o [.plain .arrayLength] o') :
    Runs S.program U o o' (expectRef v >>= fun id =>
      (fun n : Nat => Value.int32 n) <$> arrayLength id)
      s L [v] fun v _ ws => ws = [v] := by
  have hquiet : S.Quiet (expectRef v >>= fun id =>
    (fun n : Nat => Value.int32 n) <$> arrayLength id)
      fun _ => True := by
    refine (quiet_expectRef v).bind fun id _ => ?_
    rw [map_eq_pure_bind]
    exact (quiet_arrayLength id).bind fun _ _ => quiet_pure trivial
  refine h.runs_value hcarry rfl hquiet fun i hi σ k => ?_
  have hop : i.op = .arrayLength := hi.1
  unfold effect
  rw [hop]
  simp only [cons_append, nil_append]
  rw [exec_pop_bind h.hosts]
  simp

/-- A value behind an address. It is loaded as its type says. -/
theorem Stage.runs_deref {w : Value} (hw : w.Within S.Outside) {k : Indirect}
    (hacc : (deref w).After S.program s fun v _ => (k.accepts v).2 = true)
    (hcarry : S.method.Carries o [k.loadCommand] o') :
    Runs S.program U o o' (deref w) s L [w] fun v _ ws => ws = [v] := by
  have hquiet := quiet_deref (p := S.program) hw s h.calm
  have hmirrors : Mirrors S.program (deref w)
      (deref w >>= fun v => checkWidth (k.accepts v) v >>= fun _ => pure v) s L := by
    intro σ k'
    rw [exec_bind, hquiet.standing L σ k' h.like]
    rcases hv : (deref w).exec S.program s with ⟨e | v, s'⟩
    · rfl
    · dsimp only
      rw [checkWidth, if_pos (hacc v s' hv)]
      rfl
  have hfalls : k.loadCommand.op.isTerminator = false := by cases k <;> rfl
  refine (runs_push h.hosts hcarry hfalls hquiet.grows hmirrors id fun i hi σ k' => ?_).mono
    fun _ _ _ _ _ hws => hws.2
  have hload : effect S.method i = loadThrough i k.accepts := by
    unfold effect
    rw [hi.1]
    cases k <;> rfl
  rw [hload, loadThrough, popAddress]
  simp only [cons_append, nil_append, bind_assoc]
  rw [exec_pop_bind h.hosts]
  cases w <;> rfl

theorem Stage.runs_conversion {v : Value} (hv : v.Within S.Outside) {rule : ConversionRule}
    (hrule : ∀ f, (∀ t op, rule ≠ .operator f t op) ∧ rule ≠ .constructor f)
    (hcarry : S.method.Carries o rule.code o') :
    Runs S.program U o o' (rule.apply v) s L [v] fun v _ ws => ws = [v] := by
  have hquiet : S.Quiet (rule.apply v) fun w => w.Within S.Outside := quiet_conversion rule hv
  cases rule with
  | identity =>
    cases hcarry
    exact runs_nil rfl
  | box t =>
    refine h.runs_value hcarry rfl hquiet fun i hi σ k => ?_
    obtain ⟨hop, -, hhash⟩ := hi
    unfold effect
    rw [hop]
    simp only [cons_append, nil_append]
    rw [exec_pop_bind h.hosts, hashOperand_bind hhash]
    rfl
  | unbox t =>
    refine h.runs_value hcarry rfl hquiet fun i hi σ k => ?_
    obtain ⟨hop, -, hhash⟩ := hi
    unfold effect
    rw [hop]
    simp only [cons_append, nil_append]
    rw [hashOperand_bind hhash, unbox, exec_pop_bind h.hosts]
    simp only [ConversionRule.apply, unboxed, bind_assoc]
    refine congrArg (Exec.exec · S.program _) ?_
    refine bind_congr fun id => bind_congr fun o => bind_congr fun q => ?_
    split <;> simp
  | cast t =>
    refine h.runs_value hcarry rfl hquiet fun i hi σ k => ?_
    obtain ⟨hop, -, hhash⟩ := hi
    unfold effect
    rw [hop]
    simp only [cons_append, nil_append]
    rw [hashOperand_bind hhash, checkedCast, exec_pop_bind h.hosts]
    simp only [ConversionRule.apply, castTo]
    refine congrArg (Exec.exec · S.program _) ?_
    split
    · simp only [bind_assoc]
      refine bind_congr fun actual => bind_congr fun q => ?_
      split <;> simp
    · simp
  | operator f t op => exact absurd rfl ((hrule f).1 t op)
  | constructor f => exact absurd rfl (hrule f).2

end

end Computed

end Scene

/-! ### Temporaries and members -/

namespace Exec

variable {p : Program} {σ : List Value} {k n : Nat} {t : UInt16} {v : Value}

theorem root_standing_local (hs : s.Hosts m) (hn : s.depth = n + 1) (ht : L[t.toNat]? = some v) :
    (s.standing L σ k).root p.registry (.localSlot n t) = .ok v := by
  obtain ⟨f, rest, hf, -⟩ := hs
  have hn : n = rest.length := by
    rw [depth, hf, length_cons] at hn
    omega
  rw [hn, standing_eq hf, root, frame?_top rfl]
  simp [ht]

theorem exec_fetch_local (hs : s.Hosts m) (hn : s.depth = n + 1) (ht : L[t.toNat]? = some v)
    (path : List UInt16) :
    (fetch ⟨.localSlot n t, path⟩).exec p (s.standing L σ k) =
      (v.follow path, s.standing L σ k) := by
  rw [fetch, exec_bind, exec_readRoot]
  simp only [materialize]
  rw [root_standing_local hs hn ht]
  exact exec_ofExcept _

theorem exec_store_local (hs : s.Hosts m) (hn : s.depth = n + 1) (ht : t.toNat < L.size)
    (v : Value) :
    (store (.ofRoot (.localSlot n t)) v).exec p (s.standing L σ k) =
      (.ok (), s.standing (L.setIfInBounds t.toNat v) σ k) := by
  have hroot := root_standing_local (p := p) (σ := σ) (k := k) hs hn (Array.getElem?_eq_getElem ht)
  have hset : (s.standing L σ k).setRoot v (.localSlot n t) =
    s.standing (L.setIfInBounds t.toNat v) σ k := by
    obtain ⟨f, rest, hf, -⟩ := hs
    rw [depth, hf, length_cons] at hn
    rw [standing_eq hf, standing_eq hf, setRoot, modifyFrame]
    simp [depth, Nat.succ.inj hn]
  rw [store, exec_bind, exec_readRoot]
  simp only [materialize, Address.ofRoot]
  rw [hroot]
  simp only [Value.replace]
  rw [exec_bind, exec_ofExcept]
  exact Prod.ext rfl hset

theorem exec_fieldIndex (hf : p.registry.fieldByHash? f.hash = some f) (s : State) :
    (fieldIndex f.hash).exec p s = (.ok f.index, s) := by
  rw [fieldIndex, exec_bind, exec_read]
  dsimp only
  rw [hf]
  rfl

end Exec

namespace Scene

open Exec

variable {β : Type} {item : Item} {w : Value}

theorem Quiet.map {y : Exec α} {Q : α → Prop} {R : β → Prop} (h : S.Quiet y Q) (g : α → β)
    (hR : ∀ a, Q a → R (g a)) : S.Quiet (g <$> y) R := by
  rw [map_eq_pure_bind]
  exact Exec.Quiet.bind h fun a ha => quiet_pure (hR a ha)

theorem Ready.quiet_reference (h : S.Ready x s) :
    S.Quiet (x.reference S.constant) fun item => item.Within S.Outside := by
  unfold Symbol.reference
  split
  · exact Quiet.map h.quiet_held Item.value fun _ hv => hv
  · exact Quiet.map h.quiet_spot Item.spot fun _ hspot => hspot

theorem Ready.quiet_target (h : S.Ready x s) :
    S.Quiet (x.target S.constant) fun item => item.Within S.Outside := by
  refine quiet_read.bind fun _ _ => ?_
  split
  · exact h.quiet_reference
  · exact Quiet.map h.quiet_value Item.value fun _ hv => hv

theorem quiet_member (hitem : item.Within S.Outside) (index : UInt16) :
    S.Quiet (item.member index) fun spot => spot.Within S.Outside := by
  cases item with
  | value v => exact (quiet_memberAddress hitem index).bind fun a ha => quiet_pure ha
  | spot spot => cases spot <;> exact quiet_pure hitem

/-- A member is read through the operand that stands for the instance. -/
theorem Stage.mirrors_member (h : S.Stage s L) (hitem : item.Within S.Outside)
    (hshows : item.Shows S.level U L w) (index : UInt16) :
    Mirrors S.program (item.member index >>= fetch) (memberAddress w index >>= fetch) s L := by
  have hplace : ∀ a : Address, a.root.Outside S.level S.slots →
    Mirrors S.program (fetch a) (fetch a) s L :=
    fun a ha => (quiet_fetch (p := S.program) ha s h.calm).mirrors h.like
  cases item with
  | value v =>
    cases hshows
    have heq : (Item.value w).member index >>= Spot.fetch = memberAddress w index >>= fetch := by
      simp [Item.member, Spot.fetch]
    have hquiet : S.Quiet (memberAddress w index >>= fetch) fun v => v.Within S.Outside :=
      (quiet_memberAddress hitem index).bind fun a ha => quiet_fetch ha
    rw [heq]
    exact (hquiet s h.calm).mirrors h.like
  | spot spot =>
    cases spot with
    | place a =>
      cases hshows
      exact hplace (a.member index) hitem
    | inHand v path =>
      obtain ⟨t, -, rfl, ht⟩ := hshows
      intro σ k
      have hfetch := exec_fetch_local (p := S.program) (σ := σ)
        (k := k) h.hosts h.calm.depth ht (path ++ [index])
      rw [memberAddress, pure_bind]
      refine hfetch.trans ?_
      simp [Item.member, member, Spot.fetch]

/-- An instance that is loaded to get at its members is no aggregate on the operand stack. -/
theorem Ready.target_ne_aggregate (h : S.Ready x s)
    (hkind : ∃ kind, S.program.registry.kind? x.valueType.hash = some kind)
    (hx : (x.target S.constant).exec S.program s = (.ok item, s')) (items : List Value) :
    item ≠ .value (.aggregate items) := by
  rintro rfl
  obtain ⟨hval, hheld⟩ := h.typed.hasType
  have hx : (if S.program.registry.isValueType x.valueType.hash then x.reference S.constant
      else Item.value <$> x.value S.constant).exec S.program s = _ := hx
  split at hx
  · unfold Symbol.reference at hx
    split at hx
    · rename_i href
      rw [map_eq_pure_bind, exec_bind] at hx
      rcases hw : (x.held S.constant).exec S.program s with ⟨e | w, t⟩ <;> rw [hw] at hx <;>
        cases hx
      exact hheld href _ _ hw items rfl
    · rw [map_eq_pure_bind, exec_bind] at hx
      rcases hw : (x.spot S.constant).exec S.program s with ⟨e | w, t⟩ <;> rw [hw] at hx <;>
        cases hx
  · rename_i hplain
    rw [map_eq_pure_bind, exec_bind] at hx
    rcases hv : (x.value S.constant).exec S.program s with ⟨e | v, t⟩ <;> rw [hv] at hx <;> cases hx
    have hadm := hval _ _ hv
    obtain ⟨kind, hkind⟩ := hkind
    unfold Registry.isValueType at hplain
    unfold Registry.Admits at hadm
    rw [hkind] at hplain hadm
    cases kind with
    | primitive | value => simp [TypeKind.isValueType] at hplain
    | reference | object | array _ => rcases hadm with hv | ⟨_, hv⟩ | ⟨_, hv⟩ <;> cases hv

theorem Item.Shows.ne_aggregate {n : Nat} (h : item.Shows n U L w)
    (hitem : ∀ items, item ≠ .value (.aggregate items)) (items : List Value) :
    w ≠ .aggregate items := by
  rintro rfl
  cases item with
  | value v =>
    cases h
    exact hitem items rfl
  | spot spot =>
    cases spot with
    | place a => cases h
    | inHand v path =>
      obtain ⟨t, -, hw, -⟩ := h
      cases hw

section

variable (h : S.Stage s L)
include h

theorem Stage.runs_field_get (hf : S.program.registry.fieldByHash? f.hash = some f)
    (hitem : item.Within S.Outside) (hne : ∀ items, item ≠ .value (.aggregate items))
    (hshows : item.Shows S.level U L w)
    (hcarry : S.method.Carries o [⟨.field .get, .hash f.hash⟩] o') :
    Runs S.program U o o' (item.member f.index >>= fetch) s L [w] fun v _ ws => ws = [v] := by
  have hquiet : S.Quiet (item.member f.index >>= fetch) fun v => v.Within S.Outside :=
    (quiet_member hitem f.index).bind fun _ hspot => quiet_spotFetch hspot
  refine (runs_push h.hosts hcarry rfl (hquiet s h.calm).grows
    (h.mirrors_member hitem hshows f.index) id fun i hi σ k => ?_).mono fun _ _ _ _ _ hws => hws.2
  obtain ⟨hop, -, hhash⟩ := hi
  unfold effect
  rw [hop]
  simp only [cons_append, nil_append]
  rw [hashOperand_bind hhash, exec_bind_of_ok (exec_fieldIndex hf _), accessField,
    exec_pop_bind h.hosts]
  have hw := Item.Shows.ne_aggregate hshows hne
  cases w with
  | aggregate items => exact absurd rfl (hw items)
  | _ => simp

theorem Stage.runs_field_address (hf : S.program.registry.fieldByHash? f.hash = some f)
    (hitem : item.Within S.Outside) (hshows : item.Shows S.level U L w)
    (hcarry : S.method.Carries o [⟨.field .address, .hash f.hash⟩] o') :
    Runs S.program U o o' (item.member f.index) s L [w]
      fun spot L' ws => ∃ w, ws = [w] ∧ (Item.spot spot).Shows S.level U L' w := by
  have heff : ∀ i, (⟨.field .address, .hash f.hash⟩ : Command).Encoded S.method.constants i →
      ∀ σ k, (effect S.method i).exec S.program (s.standing L ([w] ++ σ) k) =
        (memberAddress w f.index >>= fun a => push (.address a)).exec S.program
          (s.standing L σ k) := by
    rintro i ⟨hop, -, hhash⟩ σ k
    unfold effect
    rw [hop]
    simp only [cons_append, nil_append]
    rw [hashOperand_bind hhash, exec_bind_of_ok (exec_fieldIndex hf _), accessField,
      exec_pop_bind h.hosts]
  -- In two cases the address is known, and nothing is computed.
  have hknown : ∀ (spot : Spot) (a : Address), w = .address a →
      (Item.spot spot).Shows S.level U L (.address (a.member f.index)) →
      Runs S.program U o o' (pure spot) s L [w]
        fun spot L' ws => ∃ w, ws = [w] ∧ (Item.spot spot).Shows S.level U L' w := by
    rintro spot a rfl hspot
    have hrun := h.runs (U := U) (x := pure spot)
      (Q := fun _ => True) hcarry rfl (quiet_pure trivial)
      (fun _ => .address (a.member f.index)) heff
    refine hrun.mono fun spot' s' L' ws hx hws => ?_
    cases hx
    exact ⟨_, hws.2, hws.1 ▸ hspot⟩
  cases item with
  | value v =>
    cases hshows
    have hrun := h.runs (U := U) hcarry rfl (quiet_memberAddress hitem f.index) .address heff
    exact (hrun.map place fun a L' ws hws => ⟨_, hws.2, rfl⟩).congr (by simp [Item.member])
  | spot spot =>
    cases spot with
    | place a =>
      cases hshows
      exact hknown _ a rfl rfl
    | inHand v path =>
      obtain ⟨t, ht, rfl, hL⟩ := hshows
      exact hknown _ _ rfl ⟨t, ht, rfl, hL⟩

/-- The element of an array, or its address. -/
theorem Stage.runs_element_get (array index : Value)
    (hcarry : S.method.Carries o [.plain (.element .get)] o') :
    Runs S.program U o o' (elementAddress array index >>= fetch) s L [index, array] fun v _ ws =>
      ws = [v] := by
  have hquiet : S.Quiet (elementAddress array index >>= fetch) fun v => v.Within S.Outside :=
    (quiet_elementAddress array index).bind fun a ha => quiet_fetch ha
  refine h.runs_value hcarry rfl hquiet fun i hi σ k => ?_
  have hop : i.op = .element .get := hi.1
  unfold effect
  rw [hop]
  simp only [cons_append, nil_append, accessElement]
  rw [exec_pop_bind h.hosts, exec_pop_bind h.hosts]
  simp

theorem Stage.runs_element_address (array index : Value)
    (hcarry : S.method.Carries o [.plain (.element .address)] o') :
    Runs S.program U o o' (elementAddress array index) s L [index, array]
      fun a L' ws => L' = L ∧ ws = [.address a] := by
  refine h.runs hcarry rfl (quiet_elementAddress array index) .address fun i hi σ k => ?_
  have hop : i.op = .element .address := hi.1
  unfold effect
  rw [hop]
  simp only [cons_append, nil_append, accessElement]
  rw [exec_pop_bind h.hosts, exec_pop_bind h.hosts]

theorem Stage.lt_size (hS : S.Proper) (hslot : slot ∈ S.slots) : slot.toNat < L.size := by
  obtain ⟨f, rest, hf, hL, -⟩ := h.like
  obtain ⟨f', rest', hf', -, hlocs⟩ := h.hosts
  rw [hf] at hf'
  cases hf'
  rw [hL, hlocs]
  exact hS.declared slot hslot

theorem Stage.exec_level (L' : Array Value) (σ : List Value) (k : Nat) :
    Exec.level.exec S.program (s.standing L' σ k) = (.ok S.level, s.standing L' σ k) := by
  rw [Exec.exec_level, depth_standing, h.calm.depth]
  rfl

theorem Stage.congr (hagree : Agree U L L') (hU : U ⊆ S.slots) : S.Stage s L' :=
  ⟨h.calm, h.hosts, h.like.agree hagree hU⟩

theorem Stage.runs_park (hS : S.Proper) (hslot : slot ∈ S.slots) (hU : slot ∈ U) (v : Value)
    (hcarry : S.method.Carries o [.onLocal .set slot] o') :
    Runs S.program U o o' (pure () : Exec Unit) s L [v]
      fun _ L' ws => ws = [] ∧ L' = L.setIfInBounds slot.toNat v := by
  refine runs_instr h.hosts hcarry rfl (fun i hi a s' ha σ k => ?_) fun i hi e s' he => by cases he
  cases ha
  refine ⟨L.setIfInBounds slot.toNat v, [], ?_, agree_set hU L v, rfl, rfl⟩
  rw [effect_local hi, exec_bind_of_ok (h.exec_level L _ k)]
  simp only [cons_append, nil_append, accessRoot]
  rw [exec_pop_bind h.hosts, exec_store_local h.hosts h.calm.depth (h.lt_size hS hslot)]

/-- A value that is stored nowhere is put in a temporary, whose address stands for it. -/
theorem Stage.runs_spill (hS : S.Proper) (hslot : slot ∈ U) (hU : U ⊆ S.slots) (v : Value)
    (hcarry : S.method.Carries o [.onLocal .set slot, .onLocal .address slot] o') :
    Runs S.program U o o' (pure (.spot (.inHand v [])) : Exec Item) s L [v]
      fun item L' ws => ∃ w, ws = [w] ∧ item.Shows S.level U L' w := by
  obtain ⟨o₁, hset, haddr⟩ := hcarry.split_cons
  have hpark := h.runs_park (U := U) hS (hU hslot) hslot v hset
  refine (hpark.bind (f := fun _ => pure (.spot (.inHand v []))) ?_).congr rfl
  rintro _ s' L' ws hx hagree ⟨rfl, rfl⟩
  cases hx
  have hstage := h.congr hagree hU
  have hrun : Runs S.program U o₁ o' (pure (.spot (.inHand v [])) : Exec Item) s
      (L.setIfInBounds slot.toNat v) [] fun _ L' ws => L' = L.setIfInBounds slot.toNat v ∧
        ws = [.address ⟨.localSlot S.level slot, []⟩] := by
    refine hstage.runs (Q := fun _ => True) haddr rfl (quiet_pure trivial)
      (fun _ => .address ⟨.localSlot S.level slot, []⟩) fun i hi σ k => ?_
    rw [effect_local hi, exec_bind_of_ok (hstage.exec_level _ _ k)]
    rfl
  refine hrun.mono fun item s' L' ws hx hws => ?_
  cases hx
  refine ⟨_, hws.2, slot, hslot, rfl, ?_⟩
  rw [hws.1]
  simp [h.lt_size hS (hU hslot)]

end

end Scene

/-! ### All code of symbols -/

namespace Scene

open Exec

variable {y : Symbol}

/-- A piece is about a symbol that can be evaluated. -/
def ReadyFor (S : Scene) (s : State) : Piece → Prop
  | .access x _ | .load x _ => S.Ready x s
  | .arguments _ _ => True

theorem Ready.part (h : S.Ready y s) (heval : x.Evaluable S.literals True)
    (htyped : x.Typed S.constant S.program s') (hx : x ∈ y.parts := by simp [Symbol.parts]) :
    S.Ready x s' :=
  ⟨h.made.parts x hx, heval, htyped, fun slot huses => h.apart slot (.part hx huses)⟩

/-- A symbol is evaluated, and then something is done with its value. -/
theorem Stage.runs_one {f : Value → Exec α} {Q : α → Array Value → List Value → Prop}
    (hstage : S.Stage s L) (hx : S.Ready x s) (hU : U ⊆ S.slots)
    (hfirst : Runs S.program U o o₁ (x.value S.constant) s L [] fun v _ ws => ws = [v])
    (hlast : ∀ a, a.Within S.Outside → ∀ s' L', S.Stage s' L' →
      Runs S.program U o₁ o' (f a) s' L' [a] Q) :
    Runs S.program U o o' (x.value S.constant >>= f) s L [] Q := by
  refine hfirst.bind fun a s' L' ws ha hagree hws => ?_
  subst hws
  exact hlast a ((hx.quiet_value s hstage.calm).answer a (by rw [ha])) s' L'
    (hstage.after hx.quiet_value ha hagree hU)

/-- Two symbols are evaluated one after the other, and then something is done with their values. -/
theorem Stage.runs_two {U' : List UInt16} {o₂ : Nat} {f : Value → Value → Exec α}
    {Q : α → Array Value → List Value → Prop} (hstage : S.Stage s L) (hx : S.Ready x s)
    (hU : U ++ U' ⊆ S.slots)
    (hfirst : Runs S.program U o o₁ (x.value S.constant) s L [] fun v _ ws => ws = [v])
    (hy : ∀ a s', (x.value S.constant).exec S.program s = (.ok a, s') → S.Ready y s')
    (hsecond : ∀ s' L', S.Stage s' L' → S.Ready y s' →
      Runs S.program U' o₁ o₂ (y.value S.constant) s' L' [] fun v _ ws => ws = [v])
    (hlast : ∀ a b s' L', S.Stage s' L' → Runs S.program (U ++ U') o₂ o' (f a b) s' L' [b, a] Q) :
    Runs S.program (U ++ U') o o'
      (x.value S.constant >>= fun a => y.value S.constant >>= fun b => f a b) s L [] Q := by
  refine (hfirst.widen (subset_append_left ..)).bind fun a s' L' ws ha hagree hws => ?_
  subst hws
  have hstage' := hstage.after hx.quiet_value ha hagree hU
  have hy := hy a s' ha
  refine (((hsecond s' L' hstage' hy).widen (subset_append_right ..)).frame [a]).bind
    fun b s'' L'' ws hb hagree' hws => ?_
  obtain ⟨us, rfl, rfl⟩ := hws
  exact hlast a b s'' L'' (hstage'.after hy.quiet_value hb hagree' hU)

/-- Code computes the symbol that it is the code of. -/
theorem simulates_code (hS : S.Proper) {piece : Piece} {ts : List Temporary}
    (hcode : Code S.program.registry piece ts xs) (hstage : S.Stage s L)
    (hready : S.ReadyFor s piece)
    (hts : ts.map Temporary.slot ⊆ S.slots) (hcarry : S.method.Carries o xs o') :
    S.Simulates (ts.map Temporary.slot) o o' s L piece := by
  induction hcode generalizing o o' s L with
  | localSlot => exact hstage.simulates_localSlot hready hcarry
  | argument => exact hstage.simulates_argument hready hcarry
  | staticField => exact hstage.simulates_staticField hready hcarry
  | capturedValue => exact hstage.simulates_captured hS hready (.inl ⟨rfl, rfl⟩) hcarry
  | capturedAddress => exact hstage.simulates_captured hS hready (.inr ⟨rfl, rfl⟩) hcarry
  | literal hl => exact hstage.simulates_literal hS hready hl hcarry
  | @field c holder f a ts xs hset hhold ih =>
    have hready : S.Ready (.field c holder f) s := hready
    obtain ⟨o₁, hxs, hlast⟩ := hcarry.split
    have hpart : S.Ready holder s := hready.part hready.evaluable hready.typed.1
    obtain ⟨name, hfield, -⟩ := hready.made.checked
    rw [hS.registry] at hfield
    obtain ⟨hf, hkind⟩ := hS.registered.field hfield
    have hload : Runs S.program _ o o₁ (holder.target S.constant) s L [] _ :=
      ih hstage hpart hts hxs
    have hafter := hpart.quiet_target
    cases a with
    | set => trivial
    | get =>
      show Runs _ _ _ _ _ _ _ _ _
      rw [held, spot_field, bind_assoc]
      refine hload.bind fun item s' L' ws hx hagree hws => ?_
      obtain ⟨w, rfl, hshows⟩ := hws
      have hstage' := hstage.after hafter hx hagree hts
      exact hstage'.runs_field_get hf ((hafter s hstage.calm).answer item (by rw [hx]))
        (hpart.target_ne_aggregate hkind hx) hshows hlast
    | address =>
      show Runs _ _ _ _ _ _ _ _ _
      rw [spot_field]
      refine hload.bind fun item s' L' ws hx hagree hws => ?_
      obtain ⟨w, rfl, hshows⟩ := hws
      have hstage' := hstage.after hafter hx hagree hts
      exact hstage'.runs_field_address hf ((hafter s hstage.calm).answer item (by rw [hx])) hshows
        hlast
  | @element c array index t a ts ts' xs xs' harray hidx ih ih' =>
    have hready : S.Ready (.element c array index t) s := hready
    obtain ⟨o₁, hxs, hcarry⟩ := hcarry.split
    obtain ⟨o₂, hxs', hlast⟩ := hcarry.split
    rw [map_append] at hts ⊢
    have hfirst : S.Ready array s := hready.part hready.evaluable.1 hready.typed.1
    have hsecond : ∀ a s', (array.value S.constant).exec S.program s = (.ok a, s') →
        S.Ready index s' := fun a s' ha =>
      hready.part hready.evaluable.2 (hready.typed.2.1 a s' ha)
    have hsub := append_subset.mp hts
    have hrun := ih hstage hfirst hsub.1 hxs
    have hrun' := fun s' L' hstage' hy => ih' (s := s') (L := L') hstage' hy hsub.2 hxs'
    cases a with
    | set => trivial
    | get =>
      exact (hstage.runs_two hfirst hts hrun hsecond hrun' fun a b s' L' hstage' =>
        hstage'.runs_element_get a b hlast).congr (by simp [held, spot_element, Spot.fetch])
    | address =>
      show Runs _ _ _ _ _ _ _ _ _
      rw [spot_element]
      exact hstage.runs_two hfirst hts hrun hsecond hrun' fun a b s' L' hstage' =>
        (hstage'.runs_element_address a b hlast).map place fun _ _ _ hws => ⟨_, hws.2, rfl⟩
  | @binary c op lhs rhs t ts ts' xs xs' hlhs hrhs ih ih' =>
    have hready : S.Ready (.binary c op lhs rhs t) s := hready
    obtain ⟨o₁, hxs, hcarry⟩ := hcarry.split
    obtain ⟨o₂, hxs', hlast⟩ := hcarry.split
    rw [map_append] at hts ⊢
    have hfirst : S.Ready lhs s := hready.part hready.evaluable.1 hready.typed.1
    have hsecond : ∀ a s', (lhs.value S.constant).exec S.program s = (.ok a, s') →
        S.Ready rhs s' := fun a s' ha =>
      hready.part hready.evaluable.2 (hready.typed.2.1 a s' ha)
    have hsub := append_subset.mp hts
    exact (hstage.runs_two hfirst hts (ih hstage hfirst hsub.1 hxs) hsecond
      (fun s' L' hstage' hy => ih' hstage' hy hsub.2 hxs') fun a b s' L' hstage' =>
        hstage'.runs_binary op a b hlast).congr (by simp [held, spot, value])
  | @unary c op operand t ts xs hop ih =>
    have hready : S.Ready (.unary c op operand t) s := hready
    obtain ⟨o₁, hxs, hlast⟩ := hcarry.split
    have hpart : S.Ready operand s := hready.part hready.evaluable hready.typed.1
    exact (hstage.runs_one hpart hts (ih hstage hpart hts hxs) fun v _ s' L' hstage' =>
      hstage'.runs_unary op v hlast).congr (by simp [held, spot, value])
  | @arrayLength c array ts xs harray ih =>
    have hready : S.Ready (.arrayLength c array) s := hready
    obtain ⟨o₁, hxs, hlast⟩ := hcarry.split
    have hpart : S.Ready array s := hready.part hready.evaluable hready.typed.1
    exact (hstage.runs_one hpart hts (ih hstage hpart hts hxs) fun v _ s' L' hstage' =>
      hstage'.runs_arrayLength v hlast).congr (by simp [held, spot, value])
  | @converted c source k ts xs hsrc ih =>
    have hready : S.Ready (.converted c source k) s := hready
    obtain ⟨o₁, hxs, hlast⟩ := hcarry.split
    obtain ⟨heval, hrule⟩ := hready.evaluable
    have hpart : S.Ready source s := hready.part heval hready.typed.1
    have hintent : Emission.sourceIntent S.program.registry k.rule = .value := by
      cases hcase : k.rule <;> rw [hcase] at hrule <;> first | rfl | exact absurd hrule id
    rw [hintent] at ih
    refine Runs.congr (x := source.value _ >>= k.rule.apply) (hstage.runs_one hpart hts
      (ih hstage hpart hts hxs) fun v hwithin s' L' hstage' => ?_) (by simp [held, spot, value])
    refine hstage'.runs_conversion hwithin (fun f => ⟨fun t op heq => ?_, fun heq => ?_⟩) hlast
    · rwa [heq] at hrule
    · rwa [heq] at hrule
  | @referred x k ts xs href hk hget ih =>
    have hready : S.Ready x s := hready
    obtain ⟨o₁, hxs, hlast⟩ := hcarry.split
    have hheld : Runs S.program _ o o₁ (x.held S.constant) s L [] _ := ih hstage hready hts hxs
    show Runs _ _ _ _ _ _ _ _ _
    rw [value_eq]
    simp only [href, if_true]
    refine hheld.bind fun w s' L' ws hw hagree hws => ?_
    subst hws
    have hstage' := hstage.after hready.quiet_held hw hagree hts
    have hwithin := (hready.quiet_held s hstage.calm).answer w (by rw [hw])
    refine hstage'.runs_deref hwithin (fun v s'' hv => ?_) hlast
    -- The value behind the address is the value of the symbol, which has the type of the load.
    have hval : (x.value S.constant).exec S.program s = (.ok v, s'') := by
      rwa [value_eq, exec_bind_of_ok hw, if_pos href]
    have hadm := hready.typed.hasType.1 v s'' hval
    rw [hash_valueType] at hadm
    exact Indirect.accepts_of_admits hk hadm
  | @value x ts xs hplain hget ih =>
    have hheld : Runs S.program _ o o' (x.held S.constant) s L [] _ := ih hstage hready hts hcarry
    show Runs _ _ _ _ _ _ _ _ _
    rw [value_eq]
    simpa only [hplain, Bool.false_eq_true, if_false, bind_pure] using hheld
  | @held x allow ts xs href hget ih =>
    have hheld : Runs S.program _ o o' (x.held S.constant) s L [] _ := ih hstage hready hts hcarry
    show Runs _ _ _ _ _ _ _ _ _
    rw [Symbol.reference, if_pos href]
    exact hheld.map Item.value fun v L' ws hws => ⟨v, hws, rfl⟩
  | @placed x allow ts xs hplain hcan hplace haddr ih =>
    have hspot : Runs S.program _ o o' (x.spot S.constant) s L [] _ := ih hstage hready hts hcarry
    show Runs _ _ _ _ _ _ _ _ _
    rw [Symbol.reference, if_neg (by simp [hplain])]
    exact hspot.map Item.spot fun _ _ _ hws => hws
  | @spilled x slot ts xs hplain hcannot hget ih =>
    have hready : S.Ready x s := hready
    obtain ⟨o₁, hxs, hlast⟩ := hcarry.split
    have hsub : ts.map Temporary.slot ⊆ S.slots := fun t ht => hts (mem_cons_of_mem _ ht)
    have hheld : Runs S.program _ o o₁ (x.held S.constant) s L [] _ := ih hstage hready hsub hxs
    show Runs _ _ _ _ _ _ _ _ _
    rw [Symbol.reference, if_neg (by simp [hplain]), spot_of_not_address hready.evaluable hcannot,
      Functor.map_map, map_eq_pure_bind]
    refine (hheld.widen (subset_cons_self ..)).bind fun v s' L' ws hv hagree hws => ?_
    subst hws
    have hstage' := hstage.after hready.quiet_held hv hagree hts
    exact hstage'.runs_spill hS (mem_cons_self ..) hts v hlast
  | @target x ts xs hload ih =>
    have hrun := ih hstage hready hts hcarry
    refine Runs.congr ?_ (y := x.target S.constant)
      (x := if S.program.registry.isValueType x.valueType.hash then x.reference S.constant
        else Item.value <$> x.value S.constant) rfl
    split at hrun
    · rename_i hval
      rwa [if_pos hval]
    · rename_i hval
      rw [if_neg hval]
      have hrun : Runs S.program _ o o' (x.value S.constant) s L [] _ := hrun
      exact hrun.map Item.value fun v L' ws hws => ⟨v, hws, rfl⟩
  | call | callOn | construct | newArray =>
    exact absurd hready.evaluable id
  | parameter | noArguments | noParameters | arguments => trivial

end Scene

end StackCode
