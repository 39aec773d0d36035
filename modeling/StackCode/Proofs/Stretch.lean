import StackCode.Proofs.Quiet
import StackCode.Proofs.Boundaries

/-!
# Stretches of code

A stretch of code computes something if the machine, wherever it starts, comes to the end of the
stretch with the result on the operand stack, or stops within it with the fault of the computation.
What is computed is said without code; the machine differs from it in the innermost frame, where the
operand stack grows and temporaries are written.
-/

namespace StackCode

open List Listing State

variable {m : Method} {U V T : List UInt16} {L : Array Value} {s s' : State} {vs : List Value}
  {xs : List Command}

/-! ### Commands between two offsets -/

/-- Between two offsets a method has instructions that stand for commands. -/
inductive Method.Carries (m : Method) : Nat → List Command → Nat → Prop
  | nil {o} : Carries m o [] o
  | cons {o o' i x xs} (hfetch : m.fetch? o = some i) (hx : x.Encoded m.constants i)
      (hrest : Carries m i.next xs o') : Carries m o (x :: xs) o'

namespace Method

variable {o o' : Nat}

theorem Carries.split {ys : List Command} (h : m.Carries o (xs ++ ys) o') :
    ∃ o₁, m.Carries o xs o₁ ∧ m.Carries o₁ ys o' := by
  induction xs generalizing o with
  | nil => exact ⟨o, .nil, h⟩
  | cons x xs ih =>
    cases h with
    | cons hfetch hx hrest =>
      obtain ⟨o₁, hxs, hys⟩ := ih hrest
      exact ⟨o₁, .cons hfetch hx hxs, hys⟩

theorem Carries.split_cons {x : Command} (h : m.Carries o (x :: xs) o') :
    ∃ o₁, m.Carries o [x] o₁ ∧ m.Carries o₁ xs o' :=
  Carries.split (singleton_append ▸ h)

theorem carries_of_holds {before part after : Listing}
    (hholds : m.chunk.Holds (code (before ++ (part ++ after))))
    (henc : ∀ y ∈ part, y.1.Encoded m.constants y.2) :
    m.Carries (endOf 0 before.code) part.commands (endOf 0 (before ++ part).code) := by
  induction part generalizing before with
  | nil =>
    rw [append_nil]
    exact .nil
  | cons y part ih =>
    obtain ⟨hy, hpart⟩ := forall_mem_cons.mp henc
    have hlaid := hholds.laid
    rw [code_append] at hlaid
    have hoff : y.2.offset = endOf 0 before.code := hlaid.offset_mid.1
    have hfetch := hholds.fetch (i := y.2) (by simp [code])
    have hnext : y.2.next = endOf 0 (before ++ [y]).code := by
      rw [code_append, endOf_append]
      exact (endOf_cons _ y.2 [] hoff).symm
    have hholds' : m.chunk.Holds (code ((before ++ [y]) ++ (part ++ after))) := by
      rwa [append_assoc]
    have hrest := ih hholds' hpart
    rw [← hnext, append_assoc] at hrest
    exact .cons (hoff ▸ hfetch) hy hrest

theorem Built.carries {c : Setting} {d : Discipline} {segs : List Listing} (h : m.Built c d segs)
    {k : Nat} (hk : k < segs.length) :
    m.Carries (cut segs k) segs[k].commands (cut segs (k + 1)) := by
  have hsplit : segs.flatten = (segs.take k).flatten ++
    (segs[k] ++ (segs.drop (k + 1)).flatten) := by
    conv_lhs => rw [← take_append_drop k segs, drop_eq_getElem_cons hk]
    rw [flatten_append, flatten_cons]
  have hholds := h.holds
  rw [hsplit] at hholds
  have hcarry := carries_of_holds hholds fun y hy => h.encoded y (by simp [hsplit, hy])
  have htake : (segs.take (k + 1)).flatten = (segs.take k).flatten ++ segs[k] := by
    rw [take_succ_eq_append_getElem hk, flatten_append, flatten_singleton]
  rwa [cut, cut, htake]

end Method

/-! ### Locals that agree -/

/-- Locals that differ in certain slots only. -/
def Agree (U : List UInt16) (L L' : Array Value) : Prop :=
  L'.size = L.size ∧ ∀ n, (∀ t ∈ U, t.toNat ≠ n) → L'[n]? = L[n]?

section Agree

variable {L' L'' : Array Value}

theorem Agree.refl (U : List UInt16) (L : Array Value) : Agree U L L := ⟨rfl, fun _ _ => rfl⟩

theorem Agree.mono (h : Agree U L L') (hsub : U ⊆ V) : Agree V L L' :=
  ⟨h.1, fun n hn => h.2 n fun t ht => hn t (hsub ht)⟩

theorem Agree.trans (h : Agree U L L') (h' : Agree U L' L'') : Agree U L L'' :=
  ⟨h'.1.trans h.1, fun n hn => (h'.2 n hn).trans (h.2 n hn)⟩

theorem agree_set {t : UInt16} (ht : t ∈ U) (L : Array Value) (v : Value) :
    Agree U L (L.setIfInBounds t.toNat v) := by
  refine ⟨Array.size_setIfInBounds, fun n hn => ?_⟩
  rw [Array.getElem?_setIfInBounds_ne (hn t ht)]

theorem State.Like.agree (h : s.Like T L) (hagree : Agree U L L') (hsub : U ⊆ T) : s.Like T L' := by
  obtain ⟨f, rest, hf, hsize, hL⟩ := h
  exact ⟨f, rest, hf, hagree.1.trans hsize, fun n hn =>
    (hagree.2 n fun t ht => hn t (hsub ht)).trans (hL n hn)⟩

end Agree

/-! ### The machine at work -/

/-- The innermost frame runs a method, and it has the slots of the method. -/
def State.Hosts (m : Method) (s : State) : Prop :=
  ∃ f rest, s.frames = f :: rest ∧ f.method = m ∧ f.locals.size = m.locals.size

theorem State.Hosts.congr (h : s.Hosts m) (hframes : s'.frames = s.frames) : s'.Hosts m := by
  obtain ⟨f, rest, hf, hhosts⟩ := h
  exact ⟨f, rest, hframes.trans hf, hhosts⟩

namespace Exec

variable {α β : Type} {p : Program} {n o o' o₁ k : Nat} {σ : List Value} {v : Value}

theorem exec_push (hs : s.Hosts m) :
    (push v).exec p (s.standing L σ k) = (.ok (), s.standing L (v :: σ) k) := by
  obtain ⟨f, rest, hf, -⟩ := hs
  rw [standing_eq hf, standing_eq hf]
  rfl

theorem exec_pop_bind (hs : s.Hosts m) (f : Value → Exec β) :
    (pop o >>= f).exec p (s.standing L (v :: σ) k) = (f v).exec p (s.standing L σ k) := by
  obtain ⟨t, rest, hf, -⟩ := hs
  rw [standing_eq hf, standing_eq hf]
  rfl

theorem exec_bind_of_ok {x : Exec α} {f : α → Exec β} {a : α} (h : x.exec p s = (.ok a, s')) :
    (x >>= f).exec p s = (f a).exec p s' := by
  rw [exec_bind, h]

theorem exec_bind_of_error {x : Exec α} {f : α → Exec β} {e : Fault}
    (h : x.exec p s = (.error e, s')) : (x >>= f).exec p s = (.error e, s') := by
  rw [exec_bind, h]

theorem exec_step (hs : s.Hosts m) {i : Instr} (hfetch : m.fetch? o = some i)
    (hfalls : i.op.isTerminator = false) :
    step.exec p (s.standing L σ o) =
      (((effect m i).exec p (s.standing L σ i.next)).1.map fun _ => .running,
        ((effect m i).exec p (s.standing L σ i.next)).2) := by
  obtain ⟨f, rest, hf, rfl, -⟩ := hs
  have hstep : step.exec p (s.standing L σ o) = (execute f.method i).exec p (s.standing L σ o) := by
    rw [standing_eq hf]
    unfold step
    rw [exec_bind_of_ok (x := top) rfl]
    rw [hfetch]
  have hgoto : (goto i.next).exec p (s.standing L σ o) = (.ok (), s.standing L σ i.next) := by
    rw [standing_eq hf, standing_eq hf]
    rfl
  rw [hstep, execute, exec_bind_of_ok hgoto]
  split
  · rename_i hret
    rw [hret] at hfalls
    cases hfalls
  · rename_i hret
    rw [hret] at hfalls
    cases hfalls
  · rw [exec_bind]
    rcases (effect f.method i).exec p (s.standing L σ i.next) with ⟨e | _, t⟩ <;> rfl

/-- A computation of the machine goes like another one that is about less of the state. -/
def Mirrors (p : Program) (x y : Exec α) (s : State) (L : Array Value) : Prop :=
  ∀ σ k, y.exec p (s.standing L σ k) = ((x.exec p s).1, (x.exec p s).2.standing L σ k)

theorem QuietAt.mirrors {x : Exec α} {Q : α → Prop} (h : QuietAt p n T x Q s) (hL : s.Like T L) :
    Mirrors p x x s L :=
  fun σ k => h.standing L σ k hL

/-- A stretch of code computes something, from a state with operands on the stack. The end is
reached with the result, shown by operands in their place; or the fault of the computation
occurs. -/
structure Runs (p : Program) (U : List UInt16) (o o' : Nat) (x : Exec α) (s : State)
    (L : Array Value) (vs : List Value) (Q : α → Array Value → List Value → Prop) : Prop where
  ok : ∀ a s', x.exec p s = (.ok a, s') → ∀ σ, ∃ L' ws,
    Reaches p (s.standing L (vs ++ σ) o) (s'.standing L' (ws ++ σ) o') ∧ Agree U L L' ∧ Q a L' ws
  error : ∀ e s', x.exec p s = (.error e, s') → ∀ σ, ∃ t L' σ' k,
    Reaches p (s.standing L (vs ++ σ) o) t ∧ step.exec p t = (.error e, s'.standing L' σ' k) ∧
      Agree U L L'

namespace Runs

variable {x y : Exec α} {Q R : α → Array Value → List Value → Prop}
  {S : β → Array Value → List Value → Prop}

theorem congr (h : Runs p U o o' x s L vs Q) (hxy : y.exec p s = x.exec p s) :
    Runs p U o o' y s L vs Q :=
  ⟨fun a s' ha => h.ok a s' (hxy ▸ ha), fun e s' he => h.error e s' (hxy ▸ he)⟩

theorem mono (h : Runs p U o o' x s L vs Q)
    (hQ : ∀ a s' L' ws, x.exec p s = (.ok a, s') → Q a L' ws → R a L' ws) :
    Runs p U o o' x s L vs R where
  ok a s' ha σ := by
    obtain ⟨L', ws, hreach, hagree, hws⟩ := h.ok a s' ha σ
    exact ⟨L', ws, hreach, hagree, hQ a s' L' ws ha hws⟩
  error := h.error

theorem widen (h : Runs p U o o' x s L vs Q) (hsub : U ⊆ V) : Runs p V o o' x s L vs Q where
  ok a s' ha σ := by
    obtain ⟨L', ws, hreach, hagree, hws⟩ := h.ok a s' ha σ
    exact ⟨L', ws, hreach, hagree.mono hsub, hws⟩
  error e s' he σ := by
    obtain ⟨t, L', σ', k, hreach, hstep, hagree⟩ := h.error e s' he σ
    exact ⟨t, L', σ', k, hreach, hstep, hagree.mono hsub⟩

theorem frame (h : Runs p U o o' x s L [] Q) (vs : List Value) :
    Runs p U o o' x s L vs fun a L' ws => ∃ us, ws = us ++ vs ∧ Q a L' us where
  ok a s' ha σ := by
    obtain ⟨L', us, hreach, hagree, hus⟩ := h.ok a s' ha (vs ++ σ)
    refine ⟨L', us ++ vs, ?_, hagree, us, rfl, hus⟩
    rwa [append_assoc]
  error e s' he σ := h.error e s' he (vs ++ σ)

theorem bind {f : α → Exec β} (hx : Runs p U o o₁ x s L vs Q)
    (hf : ∀ a s' L' ws, x.exec p s = (.ok a, s') → Agree U L L' → Q a L' ws →
      Runs p U o₁ o' (f a) s' L' ws S) : Runs p U o o' (x >>= f) s L vs S where
  ok b s'' hb σ := by
    rw [exec_bind] at hb
    rcases ha : x.exec p s with ⟨e | a, s'⟩ <;> rw [ha] at hb
    · cases hb
    · obtain ⟨L', ws, hreach, hagree, hws⟩ := hx.ok a s' ha σ
      obtain ⟨L'', us, hreach', hagree', hus⟩ := (hf a s' L' ws ha hagree hws).ok b s'' hb σ
      exact ⟨L'', us, hreach.trans hreach', hagree.trans hagree', hus⟩
  error e s'' he σ := by
    rw [exec_bind] at he
    rcases ha : x.exec p s with ⟨e' | a, s'⟩ <;> rw [ha] at he
    · cases he
      exact hx.error e s'' ha σ
    · obtain ⟨L', ws, hreach, hagree, hws⟩ := hx.ok a s' ha σ
      obtain ⟨t, L'', σ', k, hreach', hstep, hagree'⟩ :=
        (hf a s' L' ws ha hagree hws).error e s'' he σ
      exact ⟨t, L'', σ', k, hreach.trans hreach', hstep, hagree.trans hagree'⟩

theorem map (h : Runs p U o o' x s L vs Q) (g : α → β)
    (hS : ∀ a L' ws, Q a L' ws → S (g a) L' ws) : Runs p U o o' (g <$> x) s L vs S where
  ok b s' hb σ := by
    rw [map_eq_pure_bind, exec_bind] at hb
    rcases ha : x.exec p s with ⟨e | a, s''⟩ <;> rw [ha] at hb <;> cases hb
    obtain ⟨L', ws, hreach, hagree, hws⟩ := h.ok a s' ha σ
    exact ⟨L', ws, hreach, hagree, hS a L' ws hws⟩
  error e s' he σ := by
    rw [map_eq_pure_bind, exec_bind] at he
    rcases ha : x.exec p s with ⟨e' | a, s''⟩ <;> rw [ha] at he <;> cases he
    exact h.error e s' ha σ

end Runs

variable {x y : Exec α} {c : Command} {ws : List Value} {Q : α → Array Value → List Value → Prop}

theorem runs_nil {a : α} (h : Q a L vs) : Runs p U o o (pure a) s L vs Q where
  ok b s' hb σ := by
    cases hb
    exact ⟨L, vs, .refl, .refl U L, h⟩
  error e s' he := by cases he

/-- An instruction that computes something with the operands. -/
theorem runs_instr (hs : s.Hosts m) (hcarry : m.Carries o [c] o')
    (hfalls : c.op.isTerminator = false)
    (hok : ∀ i, c.Encoded m.constants i → ∀ a s', x.exec p s = (.ok a, s') → ∀ σ k, ∃ L' ws,
      (effect m i).exec p (s.standing L (vs ++ σ) k) = (.ok (), s'.standing L' (ws ++ σ) k) ∧
        Agree U L L' ∧ Q a L' ws)
    (herror : ∀ i, c.Encoded m.constants i → ∀ e s', x.exec p s = (.error e, s') → ∀ σ k, ∃ L' σ',
      (effect m i).exec p (s.standing L (vs ++ σ) k) = (.error e, s'.standing L' σ' k) ∧
        Agree U L L') : Runs p U o o' x s L vs Q := by
  cases hcarry with
  | cons hfetch hc hrest =>
  cases hrest
  rename_i i
  rw [← hc.1] at hfalls
  refine ⟨fun a s' ha σ => ?_, fun e s' he σ => ?_⟩
  · obtain ⟨L', ws, heff, hagree, hQ⟩ := hok i hc a s' ha σ i.next
    refine ⟨L', ws, .single ?_, hagree, hQ⟩
    rw [exec_step hs hfetch hfalls, heff]
    rfl
  · obtain ⟨L', σ', heff, hagree⟩ := herror i hc e s' he σ i.next
    refine ⟨_, L', σ', i.next, .refl, ?_, hagree⟩
    rw [exec_step hs hfetch hfalls, heff]
    rfl

/-- An instruction that pops operands, computes something and pushes it. -/
theorem runs_push (hs : s.Hosts m) (hcarry : m.Carries o [c] o')
    (hfalls : c.op.isTerminator = false) (hgrows : s.Extends p.registry (x.exec p s).2)
    (hmirrors : Mirrors p x y s L) (g : α → Value)
    (heff : ∀ i, c.Encoded m.constants i → ∀ σ k, (effect m i).exec p (s.standing L (vs ++ σ) k) =
      (y >>= fun a => push (g a)).exec p (s.standing L σ k)) :
    Runs p U o o' x s L vs fun a L' ws => L' = L ∧ ws = [g a] := by
  refine runs_instr hs hcarry hfalls (fun i hi a s' ha σ k => ?_) fun i hi e s' he σ k => ?_
  · have hy := hmirrors σ k
    rw [ha] at hy hgrows
    have hs' : s'.Hosts m := hs.congr hgrows.frames
    refine ⟨L, [g a], ?_, .refl U L, rfl, rfl⟩
    rw [heff i hi, exec_bind_of_ok hy, exec_push hs']
    rfl
  · have hy := hmirrors σ k
    rw [he] at hy
    refine ⟨L, σ, ?_, .refl U L⟩
    rw [heff i hi, exec_bind_of_error hy]

end Exec

end StackCode
