import StackCode.Proofs.Execution
import StackCode.Proofs.SegmentShape

/-!
# Methods that consist of statements
-/

namespace StackCode

open List Listing

variable {c : Setting} {segs : List Listing} {m : Method} {d : Discipline} {r : Registry}
  {code code' : List Instr}

theorem Method.Built.ne_void (h : m.Built c .statements segs) : ∀ t ∈ m.locals, t.hash ≠ .void := by
  intro t ht
  rcases h.types t ht with htype | ⟨ts, xs, hseg, u, hu, rfl⟩
  · exact htype
  · exact hseg.temporaries u hu

section Slots

variable {κ : Type} {R : κ → Value → Prop} {ks : List κ} {args : List Value}

/-- Arguments with a receiver fit the slots of a function that has a receiver. -/
theorem FunctionDecl.forall₂_slots (f : FunctionDecl) (hks : ks.length = f.params.length) {k : κ}
    {receiver : Value} (hrecv : R k receiver) (hargs : Forall₂ R ks args)
    (harity : (receiver :: args).length = f.stackArity) :
    Forall₂ R ((if f.isStatic then [] else [k]) ++ ks) (receiver :: args) := by
  have hlen := hargs.length_eq
  unfold stackArity at harity
  cases hstat : f.isStatic with
  | true =>
    simp only [hstat, if_true, length_cons] at harity
    omega
  | false => exact .cons hrecv hargs

theorem FunctionDecl.forall₂_params (f : FunctionDecl) (hks : ks.length = f.params.length) {k : κ}
    (hargs : Forall₂ R ks args) (harity : args.length = f.stackArity) :
    Forall₂ R ((if f.isStatic then [] else [k]) ++ ks) args := by
  have hlen := hargs.length_eq
  unfold stackArity at harity
  cases hstat : f.isStatic with
  | true => exact hargs
  | false =>
    simp only [hstat] at harity
    simp at harity
    omega

theorem forall₂_arguments (h : Forall₂ R ks.reverse args) : Forall₂ R ks args.reverse := by
  simpa using rel_reverse h

theorem Method.argumentKind_of_slots {R : Kind → Value → Prop} (m : Method)
    (hargs : Forall₂ R (m.function.slotKinds r) args) (hfew : m.function.stackArity ≤ 65536)
    {n : Nat}
    {v : Value} (hv : args[n]? = some v) : R ((m.env r).argumentKind n) v := by
  have hkind : (m.env r).argumentKind n = ((m.function.slotKinds r)[n]?).getD .clean := if_pos hfew
  obtain ⟨hn, hv⟩ := List.getElem?_eq_some_iff.mp hv
  have hn' : n < (m.function.slotKinds r).length := by rw [hargs.length_eq]; exact hn
  rw [hkind, getElem?_eq_getElem hn', Option.getD_some, ← hv]
  exact hargs.get hn' hn

end Slots

namespace Command.Encoded

variable {k : Pool} {x : Command} {i : Instr}

theorem exists_literal (h : x.Encoded k i) (hsort : x.op.sort = .literal) :
    ∃ l, k.literal? i.operand = some l := by
  obtain ⟨-, hs, hmeans⟩ := h
  cases hx : x.operand <;> rw [hx] at hs hmeans <;> cases hs.symm.trans hsort
  exact ⟨_, hmeans⟩

theorem exists_hash (h : x.Encoded k i) (hsort : x.op.sort = .hash) :
    ∃ t, x.operand = .hash t ∧ k.typeHash? i.operand = some t := by
  obtain ⟨-, hs, hmeans⟩ := h
  cases hx : x.operand <;> rw [hx] at hs hmeans <;> cases hs.symm.trans hsort
  exact ⟨_, rfl, hmeans⟩

theorem exists_call (h : x.Encoded k i) (hsort : x.op.sort = .call) :
    ∃ f, x.operand = .call f i.argc ∧ k.typeHash? i.operand = some f := by
  obtain ⟨-, hs, hmeans⟩ := h
  cases hx : x.operand <;> rw [hx] at hs hmeans <;> cases hs.symm.trans hsort
  exact ⟨_, by rw [hmeans.2], hmeans.1⟩

theorem exists_slot (h : x.Encoded k i) (hsort : x.op.sort = .slot) :
    ∃ n : UInt16, x.operand = .slot n ∧ UInt16.ofNat i.operand = n := by
  obtain ⟨-, hs, hmeans⟩ := h
  cases hx : x.operand <;> rw [hx] at hs hmeans <;> cases hs.symm.trans hsort
  exact ⟨_, rfl, by rw [hmeans, UInt16.ofNat_toNat]⟩

end Command.Encoded

theorem Env.callee?_some {e : Env} {h : TypeHash} {argc : Nat} {f : FunctionDecl}
    (hf : e.callee? (.call h argc) = some f) :
    e.registry.function? h = some f ∧ argc = f.params.length := by
  obtain ⟨hf, hargc⟩ := Option.filter_eq_some_iff.mp hf
  exact ⟨hf, (by simpa using hargc : f.params.length = argc).symm⟩

/-! ### Two listings of one code -/

theorem Chunk.Holds.unique (h : m.chunk.Holds code) (h' : m.chunk.Holds code') : code = code' := by
  have hoffsets : code.map (fun i => (i.offset, i.op)) = code'.map fun i => (i.offset, i.op) := by
    rw [← h.instructions, ← h'.instructions]
  have hmap : code.map Instr.offset = code'.map Instr.offset := by
    have hfirst := congrArg (List.map Prod.fst) hoffsets
    rwa [map_map, map_map] at hfirst
  have hlen : code.length = code'.length := by simpa using congrArg List.length hmap
  refine ext_getElem hlen fun n hn hn' => ?_
  have heq : code[n].offset = code'[n].offset := by
    have := getElem_of_eq hmap (by simpa using hn)
    simpa using this
  have hfetch := h.fetch (getElem_mem hn)
  have hfetch' := h'.fetch (getElem_mem hn')
  rw [heq, hfetch'] at hfetch
  exact (Option.some.inj hfetch).symm

/-- Two parts from the start of one code that end at one offset are one part. -/
theorem eq_of_endOf {rest rest' : List Instr} (h : code ++ rest = code' ++ rest')
    (hend : endOf 0 code = endOf 0 code') : code = code' := by
  have hempty : ∀ more : List Instr, (more.flatMap Instr.bytes).length = 0 → more = [] := by
    intro more hmore
    cases more with
    | nil => rfl
    | cons i more => simp [Instr.length_bytes] at hmore
  unfold endOf at hend
  rcases append_eq_append_iff.mp h with ⟨more, rfl, -⟩ | ⟨more, rfl, -⟩
  · rw [flatMap_append, length_append] at hend
    rw [hempty more (by omega), append_nil]
  · rw [flatMap_append, length_append] at hend
    rw [hempty more (by omega), append_nil]

/-- Listings of one code have commands with the same effects. -/
theorem Listing.effects_eq (e : Env) {k : Pool} {l l' : Listing}
    (hl : ∀ y ∈ l, y.1.Encoded k y.2) (hl' : ∀ y ∈ l', y.1.Encoded k y.2)
    (hcode : l.code = l'.code) :
    l.commands.map e.effect? = l'.commands.map e.effect? := by
  induction l generalizing l' with
  | nil =>
    cases map_eq_nil_iff.mp hcode.symm
    rfl
  | cons y l ih =>
    cases l' with
    | nil => cases hcode
    | cons y' l' =>
      obtain ⟨hy, hl⟩ := forall_mem_cons.mp hl
      obtain ⟨hy', hl'⟩ := forall_mem_cons.mp hl'
      obtain ⟨hinstr, hcode⟩ := cons_eq_cons.mp hcode
      have heff := e.effect?_congr hy (hinstr ▸ hy')
      exact cons_eq_cons.mpr ⟨heff, ih hl hl' hcode⟩

theorem Instr.Fits.argc_lt {i : Instr} (h : i.Fits) : i.argc < 256 := by
  unfold Instr.Fits at h
  split at h <;> omega

theorem Operand.of_sort_label {x : Operand} (h : x.sort = .label) : ∃ l, x = .label l := by
  cases x <;> cases h
  exact ⟨_, rfl⟩

namespace Method

theorem Built.env (h : m.Built c .statements segs) : c.env m.locals = m.env c.registry := by
  rw [Setting.env, Method.env, h.function]

/-- Behind an instruction that falls through stands another. -/
theorem Built.exists_next (h : m.Built c d segs) {pre : Listing} {y : Command × Instr}
    {post : Listing}
    (hsplit : segs.flatten = pre ++ y :: post) (hfalls : y.1.op.isTerminator = false) :
    ∃ z more, post = z :: more := by
  cases post with
  | cons z more => exact ⟨z, more, rfl⟩
  | nil =>
    obtain ⟨i, hi, hterminator⟩ := h.last
    rw [hsplit, Listing.code, map_append, map_singleton, getLast?_concat] at hi
    cases hi
    rw [(h.encoded y (by simp [hsplit])).1, hfalls] at hterminator
    cases hterminator

end Method

/-! ### Statement boundaries and jump targets -/

namespace Method

variable {offset : Nat}

/-- A method that is finished from a context in which nothing was done but statements. -/
def OfStatements (r : Registry) (m : Method) : Prop :=
  ∃ id options s, Session.Steps Discipline.statements.Allows (.start id r m.function options) s ∧
    s.context.finish = .ok m

/-- An offset between two statements: where the code ended at some time before the method was
finished. -/
def Boundary (r : Registry) (m : Method) (offset : Nat) : Prop :=
  ∃ id options s s', Session.Steps Discipline.statements.Allows (.start id r m.function options) s ∧
    Session.Steps Discipline.statements.Allows s s' ∧ s'.context.finish = .ok m ∧
    offset = s.body.emitter.offset

/-- An offset that a jump of the method goes to. -/
def JumpTarget (m : Method) (offset : Nat) : Prop :=
  ∃ i, (i.offset, i.op) ∈ m.chunk.instructions ∧ m.fetch? i.offset = some i ∧ i.op.isJump ∧
    offset = i.operand

theorem OfStatements.built (h : m.OfStatements r) :
    ∃ c segs, m.Built c .statements segs ∧ c.registry = r := by
  obtain ⟨id, options, s, hsteps, hfin⟩ := h
  obtain ⟨segs, hinv, -, hsetting⟩ :=
    (Session.inv_start id r m.function options .statements).steps hsteps
  obtain ⟨segs', hbuilt, -⟩ := hinv.built hfin
  exact ⟨_, segs', hbuilt, by rw [hsetting]; rfl⟩

/-- Where the code ended before a method was finished is between two segments of the method. -/
theorem Built.offset_eq_cut {segs' : List Listing} {e : Emitter} (h : m.Built c d segs')
    (hlinked : e.Linked segs) (hbefore : segs.map Listing.commands <+: segs'.map Listing.commands) :
    e.offset = Listing.cut segs' segs.length := by
  have hcmds : (segs'.take segs.length).map Listing.commands = segs.map Listing.commands := by
    have htake := prefix_iff_eq_take.mp hbefore
    rw [length_map] at htake
    rw [htake, map_take]
  have henc : ∀ y ∈ (segs'.take segs.length).flatten, y.1.Encoded m.constants y.2 := by
    intro y hy
    obtain ⟨seg, hseg, hy⟩ := mem_flatten.mp hy
    exact h.encoded y (mem_flatten.mpr ⟨seg, mem_of_mem_take hseg, hy⟩)
  rw [hlinked.size, cut_length, endOf_code hlinked.encoded, Listing.cut,
    endOf_code henc, commands_flatten, commands_flatten, hcmds]

/-- A statement boundary lies between segments. -/
theorem Boundary.exists_cut (h : m.Boundary r offset) :
    ∃ c segs k, m.Built c .statements segs ∧ c.registry = r ∧ offset = Listing.cut segs k := by
  obtain ⟨id, options, s, s', hsteps, hsteps', hfin, rfl⟩ := h
  obtain ⟨segs, hinv, -, hsetting⟩ :=
    (Session.inv_start id r m.function options .statements).steps hsteps
  obtain ⟨segs₁, hinv', hbefore, hsetting'⟩ := hinv.steps hsteps'
  obtain ⟨segs₂, hbuilt, hbefore'⟩ := hinv'.built hfin
  exact ⟨_, segs₂, segs.length, hbuilt, by rw [hsetting', hsetting]; rfl,
    hbuilt.offset_eq_cut hinv.body.sound.linked (hbefore.trans hbefore')⟩

/-- The target of a jump lies between segments. -/
theorem Built.exists_cut_of_jump (h : m.Built c d segs) (htgt : m.JumpTarget offset) :
    ∃ k, offset = Listing.cut segs k := by
  obtain ⟨i, hmem, hfetch, hjump, rfl⟩ := htgt
  rw [h.holds.instructions] at hmem
  obtain ⟨j, hj, heq⟩ := mem_map.mp hmem
  obtain ⟨hoff, -⟩ := Prod.mk.inj heq
  have hfetch' := h.holds.fetch hj
  rw [hoff, hfetch] at hfetch'
  cases hfetch'
  obtain ⟨x, hy⟩ := mem_code hj
  obtain ⟨hop, hsort, -⟩ := h.encoded _ hy
  have hlabel : x.operand.sort = .label := by
    rw [← hsort, ← hop]
    exact Opcode.sort_of_isJump hjump
  obtain ⟨l, hl⟩ := Operand.of_sort_label hlabel
  obtain ⟨k, -, htgt, -⟩ := h.jumps _ hy l hl
  exact ⟨k, htgt⟩

end Method

end StackCode
