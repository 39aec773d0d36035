import Mathlib.Data.List.Forall2
import StackCode.Proofs.Commands

/-!
# Rules for the operand stack

What is known of the operands on the stack may be their kinds, their types, or more. Rules say what
a command takes from the stack and leaves there, in whatever terms, and which entries may stand for
others. A sequence of commands passes if each finds what it takes.
-/

namespace StackCode

open List

/-- What commands take from the stack and leave there, the top first, and which entries may stand
for others. -/
structure StackRules (κ : Type) where
  le : κ → κ → Prop
  refl : ∀ k, le k k
  trans : ∀ {a b c}, le a b → le b c → le a c
  effect : Command → List κ → List κ → Prop

namespace StackRules

variable {κ : Type}

/-- Entries one by one that may stand for others. -/
abbrev Below (C : StackRules κ) (ks ls : List κ) : Prop := List.Forall₂ C.le ks ls

/-- The stack before and after commands. Nothing is left on it at a jump. -/
inductive Passes (C : StackRules κ) : List κ → List Command → List κ → Prop
  | nil {ks ls} (hks : C.Below ks ls) : Passes C ks [] ls
  | cons {x xs pops pushes ks rest ls} (hx : C.effect x pops pushes) (hks : C.Below ks pops)
      (hjump : x.op.sort = .label → rest = []) (hxs : Passes C (pushes ++ rest) xs ls) :
      Passes C (ks ++ rest) (x :: xs) ls

variable {C : StackRules κ} {ks ls ms : List κ} {xs ys : List Command}

theorem below_refl (C : StackRules κ) (ks : List κ) : C.Below ks ks :=
  forall₂_same.mpr fun k _ => C.refl k

theorem below_trans (h : C.Below ks ls) (h' : C.Below ls ms) : C.Below ks ms := by
  induction h generalizing ms with
  | nil => exact h'
  | cons hk _ ih =>
    cases h' with
    | cons hk' h' => exact .cons (C.trans hk hk') (ih h')

namespace Passes

theorem mono (h : C.Passes ks xs ls) (hls : C.Below ls ms) : C.Passes ks xs ms := by
  induction h with
  | nil hks => exact .nil (below_trans hks hls)
  | cons hx hks hjump _ ih => exact .cons hx hks hjump (ih hls)

theorem weaken (h : C.Passes ls xs ms) (hks : C.Below ks ls) : C.Passes ks xs ms := by
  induction h generalizing ks with
  | nil hls => exact .nil (below_trans hks hls)
  | @cons x xs pops pushes us rest ms hx hus hjump _ ih =>
    -- The stack is cut where the operands of the command end.
    have htake := forall₂_take_append _ _ _ hks
    have hdrop := forall₂_drop_append _ _ _ hks
    have hpasses := ih (rel_append (C.below_refl pushes) hdrop)
    rw [← take_append_drop us.length ks]
    refine .cons hx (below_trans htake hus) (fun hlabel => ?_) hpasses
    rw [hjump hlabel] at hdrop
    exact forall₂_nil_right_iff.mp hdrop

theorem append (h : C.Passes ks xs ls) (h' : C.Passes ls ys ms) : C.Passes ks (xs ++ ys) ms := by
  induction h with
  | nil hks => exact h'.weaken hks
  | cons hx hks hjump _ ih => exact .cons hx hks hjump (ih h')

end Passes

/-- Commands that take certain operands from the stack, whatever is below, and leave others. -/
def Moves (C : StackRules κ) (ks : List κ) (xs : List Command) (ls : List κ) : Prop :=
  ∀ rest, C.Passes (ks ++ rest) xs (ls ++ rest)

namespace Moves

theorem refl (C : StackRules κ) (ks : List κ) : C.Moves ks [] ks := fun _ => .nil (C.below_refl _)

theorem command (x : Command) {pops pushes : List κ} (hx : C.effect x pops pushes)
    (hsort : x.op.sort ≠ .label := by simp [Command.plain, Command.onLocal, Opcode.sort]) :
    C.Moves pops [x] pushes := fun _ =>
  .cons hx (C.below_refl _) (fun hlabel => absurd hlabel hsort) (.nil (C.below_refl _))

theorem trans (h : C.Moves ks xs ls) (h' : C.Moves ls ys ms) : C.Moves ks (xs ++ ys) ms :=
  fun rest => (h rest).append (h' rest)

theorem mono (h : C.Moves ks xs ls) (hls : C.Below ls ms) : C.Moves ks xs ms :=
  fun rest => (h rest).mono (rel_append hls (C.below_refl rest))

theorem weaken (h : C.Moves ls xs ms) (hks : C.Below ks ls) : C.Moves ks xs ms :=
  fun rest => (h rest).weaken (rel_append hks (C.below_refl rest))

theorem frame (h : C.Moves ks xs ls) (below : List κ) : C.Moves (ks ++ below) xs (ls ++ below) := by
  intro rest
  rw [append_assoc, append_assoc]
  exact h (below ++ rest)

theorem snoc (h : C.Moves ks xs ls) (x : Command) {pops pushes : List κ} (hls : C.Below ls pops)
    (hx : C.effect x pops pushes)
    (hsort : x.op.sort ≠ .label := by simp [Command.plain, Command.onLocal, Opcode.sort]) :
    C.Moves ks (xs ++ [x]) pushes :=
  h.trans ((command x hx hsort).weaken hls)

theorem next (h : C.Moves ks xs ls) {x : Command} {pushes : List κ} (hx : C.effect x ls pushes)
    (hsort : x.op.sort ≠ .label := by simp [Command.plain, Command.onLocal, Opcode.sort]) :
    C.Moves ks (xs ++ [x]) pushes :=
  h.snoc x (C.below_refl _) hx hsort

theorem pushes (h : C.Moves [] xs ls) (h' : C.Moves [] ys ms) : C.Moves [] (xs ++ ys) (ms ++ ls) :=
  h.trans (h'.frame ls)

theorem passes (h : C.Moves ks xs ls) : C.Passes ks xs ls := by
  have hpasses := h []
  rwa [append_nil, append_nil] at hpasses

theorem passes_snoc (h : C.Moves [] xs ks) (x : Command) {pops : List κ} (hks : C.Below ks pops)
    (hx : C.effect x pops []) : C.Passes [] (xs ++ [x]) [] := by
  refine h.passes.append ?_
  have hlast : C.Passes (ks ++ []) [x] [] := .cons hx hks (fun _ => rfl) (.nil .nil)
  rwa [append_nil] at hlast

end Moves

end StackRules

end StackCode
