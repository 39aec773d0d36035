import StackCode.Proofs.Finished

/-!
# Finished methods are well-formed

Whatever was done with a context, and whatever failed, a method that is finished from it can be
decoded from its first byte to its last, and its instructions refer to what exists: jumps to
instructions, constants to the pool, slots to local and argument slots. It ends in an instruction
that does not fall through.
-/

namespace StackCode

open Command List Piece Operand Listing

variable {slot : UInt16} {op : Opcode} {s : Symbol} {ts : List Temporary} {xs : List Command}
  {c : Setting} {d : Discipline} {segs : List Listing} {y : Command × Instr}

/-- The slot number of an access to a local or argument slot is in bounds. -/
def Command.Within (slots arguments : Nat) (x : Command) : Prop := ∀ n, x.operand = .slot n →
    (∀ wide a, x.op = .localSlot wide a → n.toNat < slots) ∧ ∀ a, x.op = .argument a →
      n.toNat < arguments

namespace Command

variable {slots arguments : Nat}

theorem within_of_sort {x : Command} (h : x.operand.sort ≠ .slot) : x.Within slots arguments := by
  intro n hn
  rw [hn] at h
  exact absurd rfl h

theorem within_onLocal (a : Access) (h : slot.toNat < slots) :
    (onLocal a slot).Within slots arguments := by
  intro n hn
  cases hn
  exact ⟨fun _ _ _ => h, nofun⟩

theorem within_argument (a : Access) (h : slot.toNat < arguments) :
    Within slots arguments ⟨.argument a, .slot slot⟩ := by
  intro n hn
  cases hn
  exact ⟨nofun, fun _ _ => h⟩

theorem within_captured (h : op = .loadCaptured ∨ op = .capturedAddress) :
    Within slots arguments ⟨op, .slot slot⟩ := by
  intro n hn
  rcases h with rfl | rfl <;> exact ⟨nofun, nofun⟩

theorem within_command (k : Indirect) (op : Opcode) : (k.command op).Within slots arguments :=
  within_of_sort (by cases k <;> simp [Indirect.command, plain, sort])

end Command

/-- The symbols that a piece is about. -/
def Piece.symbols : Piece → List Symbol
  | .access s _ | .load s _ => [s]
  | .arguments args _ => args

section Within

variable {locals : Array DataType}

theorem Setting.Made.argument_lt {id : ContextId} {type : DataType}
    (h : c.Made d locals (.argument id slot type)) : slot.toNat < c.function.stackArity := by
  have hinst : c.isInstance = !c.function.isStatic := rfl
  rcases h.checked with ⟨index, p, hp, rfl, -⟩ | ⟨owner, -, hrecv, rfl, -⟩
  · have hlt := (List.getElem?_eq_some_iff.mp hp).1
    have hle : (UInt16.ofNat (index + if c.isInstance then 1 else 0)).toNat ≤
        index + if c.isInstance then 1 else 0 := by
      rw [UInt16.toNat_ofNat']
      exact Nat.mod_le _ _
    refine Nat.lt_of_le_of_lt hle ?_
    unfold FunctionDecl.stackArity
    rw [hinst]
    cases c.function.isStatic <;> simp <;> omega
  · unfold FunctionDecl.stackArity
    rw [hinst] at hrecv
    simp only [Bool.not_eq_true'] at hrecv
    simp [hrecv]

/-- The symbols of a piece were made. -/
def Piece.Made (c : Setting) (d : Discipline) (locals : Array DataType) (p : Piece) : Prop :=
  ∀ s ∈ p.symbols, c.Made d locals s

theorem Piece.made_load {intent : LoadIntent} :
    Piece.Made c d locals (.load s intent) ↔ c.Made d locals s := by
  simp [Piece.Made, Piece.symbols]

theorem Piece.made_access {a : Access} :
    Piece.Made c d locals (.access s a) ↔ c.Made d locals s := by
  simp [Piece.Made, Piece.symbols]

/-- The parts of a symbol that was made, to be loaded. -/
theorem Piece.Made.part {p : Symbol} {a : Access} (h : Piece.Made c d locals (.access s a))
    (intent : LoadIntent) (hp : p ∈ s.parts := by simp [Symbol.parts]) :
    Piece.Made c d locals (.load p intent) :=
  made_load.mpr ((made_access.mp h).parts p hp)

/-- The code of symbols that were made uses slots that exist. -/
theorem Code.within {p : Piece} (h : Code c.registry p ts xs) (hmade : p.Made c d locals)
    (hts : ∀ t ∈ ts, t.slot.toNat < locals.size) :
    ∀ x ∈ xs, x.Within locals.size c.function.stackArity := by
  induction h with
  | localSlot =>
    have hslot := (made_access.mp hmade).checked
    exact forall_mem_singleton.mpr (within_onLocal _ (Array.getElem?_eq_some_iff.mp hslot).1)
  | argument =>
    exact forall_mem_singleton.mpr (within_argument _ (made_access.mp hmade).argument_lt)
  | field _ _ ih | unary _ ih | newArray _ ih | arrayLength _ ih =>
    refine forall_mem_append.mpr ⟨ih (hmade.part _) hts, ?_⟩
    exact forall_mem_singleton.mpr (within_of_sort (by simp [Command.plain, sort]))
  | staticField =>
    exact forall_mem_singleton.mpr (within_of_sort (by simp [sort]))
  | element _ _ ih ih' | binary _ _ ih ih' =>
    obtain ⟨hts, hts'⟩ := forall_mem_append.mp hts
    refine forall_mem_append.mpr ⟨ih (hmade.part _) hts,
      forall_mem_append.mpr ⟨ih' (hmade.part _) hts', ?_⟩⟩
    exact forall_mem_singleton.mpr (within_of_sort (by simp [Command.plain, sort]))
  | capturedValue | capturedAddress =>
    exact forall_mem_singleton.mpr (within_captured (by simp))
  | literal hl =>
    intro x hx
    refine within_of_sort ?_
    rcases hl with ⟨-, rfl⟩ | ⟨b, -, rfl⟩ | ⟨wide, l', -, rfl⟩ <;> rw [mem_singleton.mp hx] <;>
      simp [Command.plain, sort]
  | call _ ih | construct _ ih =>
    refine forall_mem_append.mpr ⟨ih ((made_access.mp hmade).parts) hts, ?_⟩
    exact forall_mem_singleton.mpr (within_of_sort (by simp [sort]))
  | callOn _ _ ih ih' =>
    obtain ⟨hts, hts'⟩ := forall_mem_append.mp hts
    have hparts := (made_access.mp hmade).parts
    refine forall_mem_append.mpr ⟨ih (hmade.part _) hts,
      forall_mem_append.mpr ⟨ih' (fun s hs => hparts s (mem_cons_of_mem _ hs)) hts', ?_⟩⟩
    exact forall_mem_singleton.mpr (within_of_sort (by simp [sort]))
  | @converted _ _ k _ _ _ ih =>
    refine forall_mem_append.mpr ⟨ih (hmade.part _) hts, ?_⟩
    intro x hx
    refine within_of_sort ?_
    revert hx
    cases k.rule <;> simp +contextual [ConversionRule.code, sort]
  | referred _ _ _ ih =>
    refine forall_mem_append.mpr ⟨ih (made_access.mpr (made_load.mp hmade)) hts, ?_⟩
    exact forall_mem_singleton.mpr (within_command _ _)
  | value _ _ ih | held _ _ ih | placed _ _ _ _ ih =>
    exact ih (made_access.mpr (made_load.mp hmade)) hts
  | spilled _ _ _ ih =>
    obtain ⟨hslot, hts⟩ := forall_mem_cons.mp hts
    refine forall_mem_append.mpr ⟨ih (made_access.mpr (made_load.mp hmade)) hts, ?_⟩
    exact forall_mem_cons.mpr ⟨within_onLocal _ hslot,
      forall_mem_singleton.mpr (within_onLocal _ hslot)⟩
  | target _ ih | parameter _ ih =>
    exact ih (made_load.mpr (made_load.mp hmade)) hts
  | noArguments | noParameters => simp
  | arguments _ _ ih ih' =>
    obtain ⟨hts, hts'⟩ := forall_mem_append.mp hts
    obtain ⟨harg, hargs⟩ := forall_mem_cons.mp hmade
    exact forall_mem_append.mpr ⟨ih (made_load.mpr harg) hts, ih' hargs hts'⟩

theorem CopyCode.within {dest source : Symbol} {path : CopyPath}
    (h : CopyCode c.registry dest source path ts xs)
    (hdest : c.Made d locals dest) (hsrc : c.Made d locals source)
    (hts : ∀ t ∈ ts, t.slot.toNat < locals.size) :
    ∀ x ∈ xs, x.Within locals.size c.function.stackArity := by
  cases h with
  | direct hd hs =>
    obtain ⟨hts, hts'⟩ := forall_mem_append.mp hts
    refine forall_mem_append.mpr ⟨hd.within (made_load.mpr hdest) hts,
      forall_mem_append.mpr ⟨hs.within (made_load.mpr hsrc) hts', ?_⟩⟩
    exact forall_mem_singleton.mpr (within_of_sort (by simp [sort]))
  | indirect hk hd hs =>
    simp only [forall_mem_cons, forall_mem_append] at hts
    obtain ⟨hptr, hval, hts, hts'⟩ := hts
    have hd := hd.within (made_access.mpr hdest) hts
    have hs := hs.within (made_load.mpr hsrc) hts'
    simp only [forall_mem_append, forall_mem_cons]
    exact ⟨hd, within_onLocal _ hptr, hs, within_onLocal _ hval, within_onLocal _ hptr,
      within_onLocal _ hval,
      within_command _ _, by simp⟩
  | stack hs hd =>
    obtain ⟨hts, hts'⟩ := forall_mem_append.mp hts
    exact forall_mem_append.mpr ⟨hs.within (made_load.mpr hsrc) hts,
      hd.within (made_access.mpr hdest) hts'⟩

theorem Segment.within (h : Segment c d locals ts xs) (hts : ∀ t ∈ ts, t.slot.toNat < locals.size) :
    ∀ x ∈ xs, x.Within locals.size c.function.stackArity := by
  cases h with
  | load hs _ hcode => exact hcode.within (made_load.mpr hs) hts
  | copy hdest hsrc _ _ hcode => exact hcode.within hdest hsrc hts
  | @statement s _ _ hs _ hcode =>
    refine forall_mem_append.mpr ⟨hcode.within (made_load.mpr hs) hts, fun x hx => ?_⟩
    refine within_of_sort ?_
    revert hx
    cases s.dataType.isVoid <;> simp +contextual [Command.plain, sort]
  | returnValue hs _ _ _ hcode | guard hs _ _ hcode =>
    refine forall_mem_append.mpr ⟨hcode.within (made_load.mpr hs) hts, ?_⟩
    exact forall_mem_singleton.mpr (within_of_sort (by simp [Command.plain, sort]))
  | returnVoid | nop | jump =>
    exact forall_mem_singleton.mpr (within_of_sort (by simp [Command.plain, sort]))

end Within

/-! ### What instructions refer to -/

theorem Opcode.sort_of_isJump (h : op.isJump) : op.sort = .label := by
  cases op <;> simp [isJump] at h <;> rfl

theorem Opcode.sort_of_usesPool (h : op.usesPool) (hnot : ∀ wide, op ≠ .constant wide) :
    op.sort = .hash ∨ op.sort = .call := by
  cases op <;> simp [usesPool, sort] at h hnot ⊢

theorem Operand.of_sort_slot {x : Operand} (h : x.sort = .slot) : ∃ n, x = .slot n := by
  cases x <;> cases h
  exact ⟨_, rfl⟩

/-- An instruction names the slots that its command names. -/
theorem Command.Within.lt_slots {k : Pool} {x : Command} {i : Instr} {slots arguments : Nat}
    (h : x.Within slots arguments) (hx : x.Encoded k i) :
    (∀ wide a, i.op = .localSlot wide a → i.operand < slots) ∧
      ∀ a, i.op = .argument a → i.operand < arguments := by
  obtain ⟨hop, hsort, hmeans⟩ := hx
  refine ⟨fun wide a hslot => ?_, fun a hslot => ?_⟩ <;> rw [hop] at hslot
  · obtain ⟨n, hn⟩ := Operand.of_sort_slot (hsort.symm.trans (by rw [hslot]; rfl))
    rw [hn] at hmeans
    exact hmeans ▸ (h n hn).1 wide a hslot
  · obtain ⟨n, hn⟩ := Operand.of_sort_slot (hsort.symm.trans (by rw [hslot]; rfl))
    rw [hn] at hmeans
    exact hmeans ▸ (h n hn).2 a hslot

/-- The operand of an instruction refers to something that exists in a method with the given
instructions. -/
structure Method.Refers (m : Method) (code : List Instr) (i : Instr) : Prop where
  jump : i.op.isJump → ∃ j ∈ code, i.operand = j.offset
  literal : ∀ wide, i.op = .constant wide → ∃ l, m.constants.literal? i.operand = some l
  hash : i.op.usesPool → (∀ wide, i.op ≠ .constant wide) → ∃ h,
    m.constants.typeHash? i.operand = some h
  localSlot : ∀ wide a, i.op = .localSlot wide a → i.operand < m.locals.size
  argument : ∀ a, i.op = .argument a → i.operand < m.function.stackArity

/-- The code of a method consists of the given instructions, which refer to what exists, and ends in
one that does not fall through. -/
structure Method.WellFormed (m : Method) (code : List Instr) : Prop where
  /-- The bytes of the instructions, one behind the other, are the code. -/
  holds : m.chunk.Holds code
  /-- They are what the decoding scan finds. -/
  instructions : m.chunk.instructions = code.map fun i => (i.offset, i.op)
  /-- They are what the machine decodes, operands included. -/
  fetched : ∀ i ∈ code, m.fetch? i.offset = some i
  refers : ∀ i ∈ code, m.Refers code i
  last : ∃ i, code.getLast? = some i ∧ i.op.isTerminator

/-- An offset between segments that lies inside the code is that of an instruction. -/
theorem Listing.exists_at_cut {k : Nat} (hlaid : Laid 0 (code segs.flatten))
    (hlt : cut segs k < endOf 0 (code segs.flatten)) :
    ∃ i ∈ code segs.flatten, cut segs k = i.offset := by
  have hsplit : segs.flatten = (segs.take k).flatten ++ (segs.drop k).flatten := by
    rw [← flatten_append, take_append_drop]
  rw [hsplit, code_append] at hlaid hlt ⊢
  cases hrest : code (segs.drop k).flatten with
  | nil =>
    rw [hrest, append_nil, cut] at hlt
    exact absurd hlt (Nat.lt_irrefl _)
  | cons i rest =>
    rw [hrest] at hlaid
    exact ⟨i, by simp, hlaid.offset_mid.1.symm⟩

namespace Method.Built

variable {m : Method}

theorem size (h : m.Built c d segs) : m.chunk.size = endOf 0 (code segs.flatten) := h.holds.size

theorem within (h : m.Built c d segs) (hy : y ∈ segs.flatten) :
    y.1.Within m.locals.size m.function.stackArity := by
  obtain ⟨seg, hseg, hmem⟩ := mem_flatten.mp hy
  obtain ⟨ts, hsegment, htyped⟩ := h.segments seg hseg
  rw [h.function]
  refine hsegment.within (fun t ht => ?_) y.1 (mem_map_of_mem hmem)
  exact (Array.getElem?_eq_some_iff.mp (htyped t ht)).1

/-- Every instruction refers to something that exists. -/
theorem refers (h : m.Built c d segs) (hy : y ∈ segs.flatten) :
    m.Refers (code segs.flatten) y.2 := by
  obtain ⟨hlocal, hargument⟩ := (h.within hy).lt_slots (h.encoded y hy)
  obtain ⟨hop, hsort, hmeans⟩ := h.encoded y hy
  refine ⟨fun hjump => ?_, fun wide hconst => ?_, fun hpool hnot => ?_, hlocal, hargument⟩ <;>
    rw [hop] at *
  · cases hoperand : y.1.operand with
    | label l =>
      obtain ⟨k, -, htgt, hlt⟩ := h.jumps y hy l hoperand
      rw [h.size] at hlt
      obtain ⟨j, hj, hcut⟩ := exists_at_cut h.holds.laid hlt
      exact ⟨j, hj, htgt.trans hcut⟩
    | _ =>
      rw [Opcode.sort_of_isJump hjump, hoperand] at hsort
      cases hsort
  · rw [hconst] at hsort
    cases hoperand : y.1.operand with
    | literal l =>
      rw [hoperand] at hmeans
      exact ⟨l, hmeans⟩
    | _ =>
      rw [hoperand] at hsort
      cases hsort
  · have hcases := Opcode.sort_of_usesPool hpool hnot
    cases hoperand : y.1.operand with
    | hash t =>
      rw [hoperand] at hmeans
      exact ⟨t, hmeans⟩
    | call f argc =>
      rw [hoperand] at hmeans
      exact ⟨f, hmeans.1⟩
    | _ =>
      rw [hoperand] at hsort
      rcases hcases with hcase | hcase <;> rw [hcase] at hsort <;> cases hsort

theorem wellFormed (h : m.Built c d segs) : m.WellFormed (code segs.flatten) where
  holds := h.holds
  instructions := h.holds.instructions
  fetched _ hi := h.holds.fetch hi
  refers i hi := by
    obtain ⟨x, hy⟩ := mem_code hi
    exact h.refers hy
  last := h.last

end Method.Built

namespace Session

/-- Every method that is finished from a context, whatever was done with the context and whatever
failed, is well-formed. -/
theorem finished_method_wellFormed {id : ContextId} {registry : Registry} {function : FunctionDecl}
    {options : EmitOptions} {s : Session} {m : Method}
    (hsteps : Steps (fun _ => True) (start id registry function options) s)
    (hfinish : s.context.finish = .ok m) :
    m.function = function ∧ ∃ code, m.WellFormed code := by
  obtain ⟨segs, hinv, hsetting⟩ := inv_of_steps hsteps
  obtain ⟨segs', hbuilt, -⟩ := hinv.built hfinish
  exact ⟨by rw [hbuilt.function, hsetting], _, hbuilt.wellFormed⟩

/-- A jump to a label that is marked at the end of the code, and a second mark that is refused. -/
def jumpToEnd : Session := (start ⟨0⟩ .empty (.staticMethod ⟨1⟩ "f" [] .void) .default).performAll
    [.defineLabel, .jump ⟨⟨0⟩, 0⟩, .markLabel ⟨⟨0⟩, 0⟩, .markLabel ⟨⟨0⟩, 0⟩]

/-- The jump goes to the return that is added when the method is finished. -/
theorem jumpToEnd_wellFormed :
    ∃ m, jumpToEnd.context.finish = .ok m ∧
      m.function = .staticMethod ⟨1⟩ "f" [] .void ∧ ∃ code, m.WellFormed code := by
  have hsteps : Steps (fun _ => True)
      (start ⟨0⟩ .empty (.staticMethod ⟨1⟩ "f" [] .void) .default) jumpToEnd := by
    refine steps_performAll ⟨⟨nofun, nofun, nofun⟩, ⟨nofun, ?_, nofun⟩, ⟨nofun, ?_, nofun⟩,
      ⟨nofun, ?_, nofun⟩, trivial⟩ fun _ _ => trivial <;>
      exact List.forall_mem_singleton.mpr (.inl (List.mem_singleton_self _))
  obtain ⟨m, hfinish⟩ : ∃ m, jumpToEnd.context.finish = .ok m := Context.exists_finish rfl rfl rfl
  exact ⟨m, hfinish, finished_method_wellFormed hsteps hfinish⟩

end Session

end StackCode
