import StackCode.Proofs.Accesses
import StackCode.Proofs.Resting

/-!
# Runs through the code of a symbol

The code of a symbol neither jumps nor returns, so a run that comes to its end has come by every
point of it: the frame is the innermost one there, with the operands that the code has pushed so
far. What methods are called in between does not matter as long as these consist of statements.
-/

namespace StackCode

open List Regime Opcode Command Option

variable {xs ys : List Command} {x y : Command} {i : Instr} {κ : Type} {ls pops pushes : List Kind}
  {f : FunctionDecl} {argc o o' : Nat} {m : Method} {p : Program} {σ us : List Value}
  {below : List Outline} {s : State} {ts : List Temporary} {r : Registry}

/-! ### Code that is run through -/

namespace Method

theorem fetch?_eq_some (h : m.fetch? o = some i) : i.offset = o ∧ i.argc < 256 := by
  obtain ⟨op, -, h⟩ := bind_eq_some_iff.mp h
  obtain ⟨operand, -, h⟩ := bind_eq_some_iff.mp h
  split at h
  · obtain ⟨argc, hargc, h⟩ := bind_eq_some_iff.mp h
    obtain ⟨byte, -, rfl⟩ := map_eq_some_iff.mp hargc
    cases h
    exact ⟨rfl, byte.toNat_lt⟩
  · cases h
    exact ⟨rfl, Nat.zero_lt_succ _⟩

theorem lt_next (h : m.fetch? o = some i) : o < i.next := by
  have hoff := (fetch?_eq_some h).1
  unfold Instr.next
  omega

theorem Carries.le (h : m.Carries o xs o') : o ≤ o' := by
  induction h with
  | nil => exact Nat.le_refl _
  | cons hfetch _ _ ih => exact Nat.le_trans (Nat.le_of_lt (lt_next hfetch)) ih

theorem Carries.offset (h : m.Carries o xs o') : o' = o + codeSize xs := by
  induction h with
  | nil => rfl
  | cons hfetch hx _ ih =>
    rw [ih, Instr.next, (fetch?_eq_some hfetch).1, hx.1, codeSize, size]
    omega

theorem Carries.lt (h : m.Carries o (x :: xs) o') : o < o' := by
  cases h with
  | cons hfetch _ hrest => exact Nat.lt_of_lt_of_le (lt_next hfetch) hrest.le

end Method

/-- Instructions that neither jump nor return. -/
def Opcode.stays : Opcode → Bool
  | .jump | .jumpIf _ | .ret | .retVoid => false
  | _ => true

namespace Opcode

variable {op : Opcode} (h : op.stays)
include h

theorem sort_ne_label : op.sort ≠ .label := by
  cases op with
  | jump | jumpIf => cases h
  | _ => simp [sort]

theorem ne_ret : op ≠ .ret := by
  rintro rfl
  cases h

theorem ne_retVoid : op ≠ .retVoid := by
  rintro rfl
  cases h

end Opcode

namespace Command

theorem Within.hasSlots {k : Pool} (h : x.Within m.locals.size m.function.stackArity)
    (hx : x.Encoded k i) : m.HasSlots i :=
  ⟨(h.lt_slots hx).1, (h.lt_slots hx).2⟩

end Command

/-- Commands that are run through to the end. -/
def Staying (xs : List Command) : Prop := ∀ x ∈ xs, x.op.stays

theorem staying_append : Staying (xs ++ ys) ↔ Staying xs ∧ Staying ys := forall_mem_append

theorem staying_cons : Staying (x :: xs) ↔ x.op.stays ∧ Staying xs := forall_mem_cons

theorem staying_nil : Staying [] := by simp [Staying]

theorem Code.staying {p : Piece} (h : Code r p ts xs) : Staying xs := by
  induction h with
  | literal hl =>
    rcases hl with ⟨-, rfl⟩ | ⟨b, -, rfl⟩ | ⟨wide, l', -, rfl⟩ <;>
      exact staying_cons.mpr ⟨rfl, staying_nil⟩
  | @binary _ op _ _ _ _ _ _ _ _ _ ih ih' =>
    have hop : op.opcode.stays := by cases op <;> rfl
    simp [staying_append, staying_cons, staying_nil, plain, ih, ih', hop]
  | @unary _ op _ _ _ _ _ ih =>
    have hop : op.opcode.stays := by cases op <;> rfl
    simp [staying_append, staying_cons, staying_nil, plain, ih, hop]
  | @converted _ _ k _ _ _ ih =>
    refine staying_append.mpr ⟨ih, ?_⟩
    cases k.rule <;> simp [ConversionRule.code, staying_cons, staying_nil, stays]
  | @referred _ k _ _ _ _ _ ih =>
    have hop : k.loadCommand.op.stays := by cases k <;> rfl
    simp [staying_append, staying_cons, staying_nil, ih, hop]
  | value _ _ ih | held _ _ ih | placed _ _ _ _ ih | target _ ih | parameter _ ih => exact ih
  | _ => simp_all [staying_append, staying_cons, staying_nil, onLocal, plain, stays]

namespace Meaning

open Exec

theorem Rests.world_eq {S : Meaning κ} {o o' : Outline} {t : State} (hs : S.Rests o below s)
    (ht : S.Rests o' below t) (hmeth : o'.method = o.method) :
    t.methods = s.methods := by
  rw [s.methods_eq_outlines, t.methods_eq_outlines, hs.outlines, ht.outlines, map_cons, map_cons,
    hmeth]

end Meaning

namespace Program.Heeds

open Exec

variable {G : Regime} {q : Program} {Q : Method → Prop} (hq : q.Heeds G) (hpart : q.Part Q p)
  {e : Nat}
  {resume : Resume}
include hq hpart

/-- One command, where it is known what its action gives. -/
theorem via_site (hs : (G.meaning q.registry).Rests ⟨m, us ++ σ, o, resume⟩ below s) (hend : o ≠ e)
    (hi : m.fetch? o = some i) (hx : x.Encoded m.constants i) (hstays : x.op.stays)
    (hwithin : x.Within m.locals.size m.function.stackArity)
    (heff : (G.rules q.registry m).effect x pops pushes)
    (hus : Forall₂ (G.Means q.registry s.framing) pops us)
    (hmeets : ∀ {g rest a}, (G.meaning q.registry).Site q s g rest x i pops pushes us →
      i.action q g.method s.heap rest.length us = .ok a → (G.meaning q.registry).Meets q s ls a) :
    Via p Q below.length e s fun u => ∃ ws, (G.meaning q.registry).Rests
      ⟨m, ws ++ σ, i.next, resume⟩ below u ∧
        Forall₂ (G.Means q.registry u.framing) ls ws := by
  obtain ⟨f, rest, hf, hout, -, hlen⟩ := hs.exists_frame
  have hret : i.op ≠ .ret := fun hop => ne_ret hstays (hx.1.symm.trans hop)
  have hvoid : i.op ≠ .retVoid := fun hop => ne_retVoid hstays (hx.1.symm.trans hop)
  have hpops : us.length = i.pops := hus.length_eq ▸ Env.length_pops heff.1 hx (ne_ret hstays)
  refine hq.governs.via_instr hpart hs hend hi hret hvoid hpops fun a ha => ?_
  obtain ⟨method, args, locals, stack, offset, resume⟩ := f
  cases hout
  have hsite : (G.meaning q.registry).Site q s _ rest x i pops pushes us :=
    ⟨hf, hi, hx, (Method.fetch?_eq_some hi).2, hwithin.hasSlots hx, heff, hus, hs.stores⟩
  exact hmeets hsite (hlen ▸ ha)

theorem via_passes {ks : List Kind} {vs : List Value}
    (hpasses : (G.rules q.registry m).Passes ks xs ls)
    (hcarry : m.Carries o xs o') (hend : o' ≤ e) (hstays : Staying xs)
    (hwithin : ∀ x ∈ xs, x.Within m.locals.size m.function.stackArity)
    (hs : (G.meaning q.registry).Rests ⟨m, vs ++ σ, o, resume⟩ below s)
    (hvs : Forall₂ (G.Means q.registry s.framing) ks vs) :
    Via p Q below.length e s fun u => ∃ ws, (G.meaning q.registry).Rests ⟨m, ws ++ σ, o', resume⟩
      below u ∧
        Forall₂ (G.Means q.registry u.framing) ls ws := by
  induction hpasses generalizing o s vs with
  | nil hks =>
    cases hcarry
    exact .here ⟨vs, hs, forall₂_weaken (G.meaning q.registry).means_le hvs hks⟩
  | cons hx hks _ _ ih =>
    obtain ⟨hstay, hstays⟩ := forall_mem_cons.mp hstays
    obtain ⟨hin, hwithin⟩ := forall_mem_cons.mp hwithin
    have hlt := hcarry.lt
    cases hcarry with
    | cons hfetch henc hrest =>
      obtain ⟨us, vs', rfl, hus, hvs'⟩ := forall₂_split hvs
      rw [append_assoc] at hs
      have hus : Forall₂ (G.Means q.registry s.framing) _ us :=
        forall₂_weaken (G.meaning q.registry).means_le hus hks
      refine (hq.via_site hpart hs (by omega) hfetch henc hstay hin hx hus fun hsite ha =>
        hq.meets hsite (sort_ne_label hstay) ha).trans fun u hu => ?_
      obtain ⟨ws, hu, hws⟩ := hu
      have hframing : u.framing = s.framing := by
        rw [State.framing, State.world, hs.world_eq hu rfl]
        rfl
      rw [← append_assoc] at hu
      exact ih hrest hstays hwithin hu (rel_append hws (hframing ▸ hvs'))

end Program.Heeds

theorem Method.Carries.single (h : m.Carries o [x] o') :
    ∃ i, m.fetch? o = some i ∧ x.Encoded m.constants i ∧ i.next = o' := by
  cases h with
  | cons hfetch hx hrest =>
    cases hrest
    exact ⟨_, hfetch, hx, rfl⟩

theorem StackRules.Passes.of_nil {C : StackRules κ} {ks ls : List κ} (h : C.Passes ks [] ls) :
    C.Below ks ls := by
  cases h with
  | nil hks => exact hks

theorem StackRules.Passes.split {C : StackRules κ} {ks ls : List κ}
    (h : C.Passes ks (xs ++ ys) ls) :
    ∃ ms, C.Passes ks xs ms ∧ C.Passes ms ys ls := by
  induction xs generalizing ks with
  | nil => exact ⟨ks, .nil (C.below_refl ks), h⟩
  | cons x xs ih =>
    cases h with
    | cons hx hks hjump hrest =>
      obtain ⟨ms, hxs, hys⟩ := ih hrest
      exact ⟨ms, .cons hx hks hjump hxs, hys⟩

theorem Env.pushes_of_call {e : Env} (h : e.effect? y = some (pops, pushes))
    (hop : y.op = .call ∨ y.op = .callMethod) (hoperand : y.operand = .call f.hash argc)
    (hf : e.registry.function? f.hash = some f) :
    pushes = f.resultKinds := by
  unfold effect? at h
  rcases hop with hop | hop
  all_goals
    rw [hop, hoperand] at h
    obtain ⟨g, hg, h⟩ := bind_eq_some_iff.mp h
    cases hf.symm.trans (Env.callee?_some hg).1
    split at h <;> cases h
    rfl

/-- Native functions whose results hold no addresses of slots. -/
def Program.Reticent (p : Program) : Prop :=
  ∀ (h : TypeHash) native f, p.natives[h]? = some native →
  p.registry.function? h = some f → ∀ heap args v,
    (∀ o ∈ heap.objects, Regime.lasting.Plain o.value) →
    Regime.lasting.Passed p.registry f args → (native heap args).1 = .ok v → v.Within Root.Lasting

theorem Regime.plain_of_brings {k : Kind} {v : Value} (h : lasting.Brings r k v)
    (hvoid : v.isVoid = false) (hwithin : v.Within Root.Lasting) : lasting.Plain v := by
  cases k with
  | clean => exact h
  | loose =>
    rcases h with rfl | h | ⟨a, rfl, -⟩
    · cases hvoid
    · exact h
    · exact ⟨.address a, hwithin⟩

/-- A call leaves no address of a slot, whatever its function is declared to return. -/
theorem Program.Heeds.meets_clean (hp : p.Heeds .lasting) (hres : p.Reticent) {g : Frame}
    {rest : List Frame} (hsite : (lasting.meaning p.registry).Site p s g rest y i pops pushes us)
    (hop : y.op = .call ∨ y.op = .callMethod) (hf : p.registry.function? f.hash = some f)
    (hoperand : y.operand = .call f.hash argc) (hresult : f.returns.isVoid = false) {a : Action}
    (ha : i.action p g.method s.heap rest.length us = .ok a) :
    (lasting.meaning p.registry).Meets p s [.clean] a := by
  obtain ⟨function, f', args, hcalled, hf', hkind, -, rfl, hfew, hpassed, hargs⟩ :=
    exists_call hsite hop ha
  cases hcalled.symm.trans hoperand
  cases hf'.symm.trans hf
  refine hp.meets_callAction hf hsite.stores hfew hpassed hargs
    (fun native hnative hheap v hv => ?_)
    fun W v _ hret => ?_
  · have hdeclared := (hp.natives _ native f hnative hf).result _ _ v hheap hpassed hv
    rw [if_neg hkind, if_neg (by simp [hresult])] at hdeclared
    rw [if_neg (by simp [hdeclared.1])]
    have hwithin := hres _ native f hnative hf _ _ v hheap hpassed hv
    exact .cons (plain_of_brings hdeclared.2 hdeclared.1 hwithin) .nil
  · have hplain : lasting.Plain v := by
      have hret : lasting.Returned f v := hret
      rwa [Regime.Returned, if_neg (by simp [hresult])] at hret
    rw [if_neg (by simp [hplain.isVoid])]
    exact .cons hplain .nil

theorem Piece.Ready.symbols {c : Setting} {locals : Array DataType} {p : Piece}
    (h : p.Ready c locals) :
    p.Made c .statements locals := by
  cases p with
  | access s a => exact Piece.made_access.mpr h.made
  | load s intent => exact Piece.made_load.mpr (by cases intent <;> exact h.1)
  | arguments args params => exact fun s hs => (h.2 s hs).1

/-! ### A piece of code on its way -/

/-- A value that leads to roots of a sort, if it is an address. -/
def Value.Leads (P : Root → Prop) (v : Value) : Prop := ∀ a, v = .address a → P a.root

/-- What is known of a run through the code of a symbol: the program, with the part of it that
matters, the frame, where it is left, and roots that are of interest. -/
structure Track where
  program : Program
  part : Program
  kind : Method → Prop
  setting : Setting
  method : Method
  resume : Resume
  below : List Outline
  stop : Nat
  roots : Root → Prop

namespace Track

open Exec

/-- The part consists of statements and the program calls nothing else; native functions return no
addresses of slots. The method is for the function of the context. All roots but slots are of the
sort. -/
structure Proper (T : Track) : Prop where
  heeds : T.part.Heeds .lasting
  part : T.part.Part T.kind T.program
  results : T.part.Reticent
  registry : T.setting.registry = T.part.registry
  function : T.method.function = T.setting.function
  roots : ∀ root, root.Lasting → T.roots root

/-- The frame is the innermost one, with operands on its stack. -/
def Rests (T : Track) (σ : List Value) (o : Nat) (s : State) : Prop :=
  (Regime.lasting.meaning T.part.registry).Rests ⟨T.method, σ, o, T.resume⟩ T.below s

/-- Every run to the offset where the frame is left comes by a certain state. -/
def Via (T : Track) (s : State) (R : State → Prop) : Prop :=
  Exec.Via T.program T.kind T.below.length T.stop s R

/-- The code of a piece stands in the method. -/
structure Lays (T : Track) (piece : Piece) (ts : List Temporary) (xs : List Command) (o o' : Nat) :
    Prop where
  code : Code T.setting.registry piece ts xs
  ready : piece.Ready T.setting T.method.locals
  typed : ∀ t ∈ ts, T.method.locals[t.slot.toNat]? = some t.type
  carries : T.method.Carries o xs o'
  stop : o' ≤ T.stop

variable {T : Track} (hT : T.Proper) {piece : Piece}
include hT

theorem Proper.env_eq : T.setting.env T.method.locals = T.method.env T.part.registry := by
  rw [Setting.env, Method.env, hT.registry, hT.function]

theorem Lays.via_moves (h : T.Lays piece ts xs o o')
    (hmoves : (T.setting.env T.method.locals).rules.Moves [] xs ls) (hs : T.Rests σ o s) :
    T.Via s fun u => ∃ ws, T.Rests (ws ++ σ) o' u ∧
    Forall₂ (lasting.Means T.part.registry u.framing) ls ws := by
  have hpasses := hmoves.passes
  rw [hT.env_eq] at hpasses
  have hpasses := passes_of_kinds (G := .lasting) hpasses fun h => h.elim
  have hmade : piece.Made T.setting .statements T.method.locals := h.ready.symbols
  have hwithin := h.code.within hmade fun t ht => (Array.getElem?_eq_some_iff.mp (h.typed t ht)).1
  rw [← hT.function] at hwithin
  have hs : T.Rests ([] ++ σ) o s := hs
  exact hT.heeds.via_passes hT.part hpasses h.carries h.stop h.code.staying hwithin hs .nil

theorem Lays.via_clean (h : T.Lays piece ts xs o o')
    (hmoves : (T.setting.env T.method.locals).rules.Moves [] xs [.clean]) (hs : T.Rests σ o s) :
    T.Via s fun u => ∃ v, T.Rests (v :: σ) o' u ∧ lasting.Plain v := by
  refine (h.via_moves hT hmoves hs).mono fun u hu => ?_
  obtain ⟨ws, hu, hws⟩ := hu
  obtain ⟨v, _, hv, hnil, rfl⟩ := forall₂_cons_left_iff.mp hws
  cases forall₂_nil_left_iff.mp hnil
  exact ⟨v, hu, hv⟩

theorem Lays.moves (h : T.Lays piece ts xs o o') :
    (T.setting.env T.method.locals).rules.Moves piece.pops xs (piece.pushes T.setting.registry) :=
  h.code.moves (hT.registry ▸ hT.heeds.registered) h.ready h.typed

theorem Lays.via_value {x : Symbol} (h : T.Lays (.load x .value) ts xs o o')
    (hval : x.dataType.hash ≠ .void) (hs : T.Rests σ o s) :
    T.Via s fun u => ∃ v, T.Rests (v :: σ) o' u ∧ lasting.Plain v :=
  h.via_clean hT (Piece.pushes_value (r := T.setting.registry) hval ▸ h.moves hT) hs

omit hT in
theorem Lays.sub {piece' : Piece} {ts' : List Temporary} {xs' : List Command} {o₁ o₂ : Nat}
    (h : T.Lays piece ts xs o o') (hcode : Code T.setting.registry piece' ts' xs')
    (hready : piece'.Ready T.setting T.method.locals) (hts : ts' ⊆ ts)
    (hcarry : T.method.Carries o₁ xs' o₂)
    (hle : o₂ ≤ o') : T.Lays piece' ts' xs' o₁ o₂ :=
  ⟨hcode, hready, fun t ht => h.typed t (hts ht), hcarry, hle.trans h.stop⟩

/-- A call leaves no address of a slot, whatever it is declared to return. -/
theorem Lays.via_call {x : Symbol} (h : T.Lays (.access x .get) ts (xs ++ [y]) o o')
    (hop : y.op = .call ∨ y.op = .callMethod) (hoperand : y.operand = .call f.hash argc)
    (hf : T.part.registry.function? f.hash = some f) (hres : f.returns.isVoid = false)
    (hs : T.Rests σ o s) :
    T.Via s fun u => ∃ v, T.Rests (v :: σ) o' u ∧ lasting.Plain v := by
  have hmade : (Piece.access x .get).Made T.setting .statements T.method.locals := h.ready.symbols
  have hwithin := h.code.within hmade fun t ht => (Array.getElem?_eq_some_iff.mp (h.typed t ht)).1
  rw [← hT.function] at hwithin
  have hpasses := (h.moves hT).passes
  rw [hT.env_eq] at hpasses
  have hpasses := passes_of_kinds (G := .lasting) hpasses fun h => h.elim
  obtain ⟨ms, hbefore, hlast⟩ := hpasses.split
  obtain ⟨hstays, hstays'⟩ := staying_append.mp h.code.staying
  obtain ⟨hwithin, hwithin'⟩ := forall_mem_append.mp hwithin
  obtain ⟨o₁, hcarry, hcarry'⟩ := h.carries.split
  obtain ⟨i, hfetch, henc, rfl⟩ := hcarry'.single
  have hlt := Method.lt_next hfetch
  have hstop := h.stop
  -- the operands are pushed, and nothing is left of them below the result
  have hs : T.Rests ([] ++ σ) o s := hs
  refine (hT.heeds.via_passes hT.part hbefore hcarry (by omega) hstays hwithin hs .nil).trans
    fun u hu => ?_
  obtain ⟨ws, hu, hws⟩ := hu
  cases hlast with
  | @cons _ _ pops pushes ks rest _ hy hks _ hrest =>
    obtain ⟨us, vs, rfl, hus, hvs⟩ := forall₂_split hws
    have hpush := Env.pushes_of_call hy.1 hop hoperand hf
    have hnone : rest = [] := by
      have hlen := hrest.of_nil.length_eq
      have hone : x.dataType.results.length ≤ 1 := by
        unfold DataType.results
        split <;> simp
      rw [length_append, hpush, FunctionDecl.resultKinds, hres] at hlen
      have hlen : 1 + rest.length = x.dataType.results.length := hlen
      exact length_eq_zero_iff.mp (by omega)
    subst hnone
    cases hvs
    rw [append_nil] at hu
    have hus : Forall₂ (lasting.Means T.part.registry u.framing) pops us :=
      forall₂_weaken (lasting.meaning T.part.registry).means_le hus hks
    obtain ⟨hstay, -⟩ := staying_cons.mp hstays'
    refine (hT.heeds.via_site hT.part hu (by omega) hfetch henc hstay
      (hwithin' y (mem_singleton_self y)) hy hus fun hsite ha =>
        hT.heeds.meets_clean hT.results hsite hop hf hoperand hres ha).mono fun t ht => ?_
    obtain ⟨ws, ht, hws⟩ := ht
    obtain ⟨v, _, hv, hnil, rfl⟩ := forall₂_cons_left_iff.mp hws
    cases forall₂_nil_left_iff.mp hnil
    exact ⟨v, ht, hv⟩

end Track

end StackCode
