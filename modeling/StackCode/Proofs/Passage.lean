import StackCode.Proofs.Boundaries

/-!
# Points of a method

When the segments of a method pass under rules for the operand stack, the stack is known at every
point of the method.
-/

namespace StackCode

open List Listing

namespace StackRules

variable {κ : Type} {C : StackRules κ} {ks ls ms : List κ} {xs ys : List Command}

/-- What is on the operand stack before the instruction at an offset, in a method whose segments
start and end with nothing on the stack. -/
def Point (C : StackRules κ) (m : Method) (offset : Nat) (ks : List κ) : Prop :=
  ∃ c d segs pre y post, m.Built c d segs ∧ (∀ seg ∈ segs, C.Passes [] (Listing.commands seg) []) ∧
    segs.flatten = pre ++ y :: post ∧ offset = y.2.offset ∧
    C.Passes ks (Listing.commands (y :: post)) []

section Point

variable {m : Method} {c : Setting} {d : Discipline} {segs : List Listing}

theorem passes_flatten (hsegs : ∀ seg ∈ segs, C.Passes [] (commands seg) []) :
    C.Passes [] (commands segs.flatten) [] := by
  induction segs with
  | nil => exact .nil .nil
  | cons seg segs ih =>
    obtain ⟨hseg, hsegs⟩ := forall_mem_cons.mp hsegs
    rw [flatten_cons, commands_append]
    exact hseg.append (ih hsegs)

theorem point_cut (h : m.Built c d segs) (hsegs : ∀ seg ∈ segs, C.Passes [] (commands seg) [])
    {k : Nat} (hlt : cut segs k < m.chunk.size) : C.Point m (cut segs k) [] := by
  have hsplit : segs.flatten = (segs.take k).flatten ++ (segs.drop k).flatten := by
    rw [← flatten_append, take_append_drop]
  have hbehind := passes_flatten fun seg (hseg : seg ∈ segs.drop k) =>
    hsegs seg (mem_of_mem_drop hseg)
  have hlaid := h.holds.laid
  rw [h.size] at hlt
  cases hrest : (segs.drop k).flatten with
  | nil =>
    rw [hsplit, hrest, append_nil, cut] at hlt
    exact absurd hlt (Nat.lt_irrefl _)
  | cons y post =>
    rw [hrest] at hsplit hbehind
    rw [hsplit, code_append] at hlaid
    exact ⟨c, d, segs, _, y, post, h, hsegs, hsplit, (hlaid.offset_mid.1).symm, hbehind⟩

theorem point_start (h : m.Built c d segs)
    (hsegs : ∀ seg ∈ segs, C.Passes [] (commands seg) []) : C.Point m 0 [] := by
  have hcut : cut segs 0 = 0 := rfl
  rw [← hcut]
  refine point_cut h hsegs ?_
  obtain ⟨i, hi, -⟩ := h.last
  have hlt := h.holds.laid.offset_lt_endOf (mem_of_getLast? hi)
  rw [Instr.length_bytes] at hlt
  rw [h.size, hcut]
  omega

/-- The instruction at a point finds what it takes. What it leaves is on the stack at the next
point, and nothing at the target of a jump. -/
theorem Point.fetch {offset : Nat} (h : C.Point m offset ks) :
    ∃ x i pops pushes us below, m.fetch? offset = some i ∧ x.Encoded m.constants i ∧ i.argc < 256 ∧
      (∃ code, m.WellFormed code ∧ i ∈ code) ∧ C.effect x pops pushes ∧ ks = us ++ below ∧
      C.Below us pops ∧
      (x.op.sort = .label → below = [] ∧ C.Point m i.operand []) ∧
      (x.op.isTerminator = false → C.Point m i.next (pushes ++ below)) := by
  obtain ⟨c, d, segs, pre, ⟨x, i⟩, post, hbuilt, hsegs, hsplit, rfl, hrest⟩ := h
  have hmem : (x, i) ∈ segs.flatten := by simp [hsplit]
  have hlaid := hbuilt.holds.laid
  have henc := hbuilt.encoded _ hmem
  rw [hsplit, code_append] at hlaid
  cases hrest with
  | @cons _ _ pops pushes us below _ hx hus hjump hnext =>
    refine ⟨x, i, pops, pushes, us, below, hbuilt.holds.fetch (mem_map_of_mem hmem), henc,
      hlaid.offset_mid.2.argc_lt, ⟨_, hbuilt.wellFormed, mem_map_of_mem hmem⟩, hx, rfl, hus,
      fun hlabel => ⟨hjump hlabel, ?_⟩, fun hfalls => ?_⟩
    · obtain ⟨l, hl⟩ := Operand.of_sort_label (henc.2.1.symm.trans hlabel)
      obtain ⟨k, -, htgt, hlt⟩ := hbuilt.jumps _ hmem l hl
      have htgt : i.operand = _ := htgt
      rw [htgt]
      exact point_cut hbuilt hsegs hlt
    · obtain ⟨z, more, rfl⟩ := hbuilt.exists_next hsplit hfalls
      refine ⟨c, d, segs, pre ++ [(x, i)], z, more, hbuilt, hsegs, by simp [hsplit], ?_, hnext⟩
      obtain ⟨-, -, hmore⟩ := (laid_append.mp hlaid).2
      exact hmore.1.symm

end Point

end StackRules

end StackCode
