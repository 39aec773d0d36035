import StackCode.Proofs.ScopeOrder

/-!
# Failed operations leave no trace

An operation that fails leaves code, lines, slots, labels and scopes as they were, however far it
got; constants may have been added to the pool. Two labels that nobody holds can be left behind by a
scope that could not be opened.

There is one exception. A loop or a block that is closed emits an instruction before its end is
marked; where this instruction ends beyond the range of jump operands, it stays in the code.
-/

namespace StackCode

namespace LabelTable

/-- The labels of a table are the first labels of another, in the same state. -/
def Keeps (t t' : LabelTable) : Prop :=
  (∀ (l : Nat) s, t.labels[l]? = some s → t'.labels[l]? = some s) ∧
    t'.markCount = t.markCount ∧ t'.unresolved = t.unresolved

theorem Keeps.refl (t : LabelTable) : t.Keeps t := ⟨fun _ _ h => h, rfl, rfl⟩

theorem keeps_opened (t : LabelTable) : t.Keeps (t.opened none []) := by
  refine ⟨fun l s h => ?_, by simp [opened, markCount], ?_⟩
  · have hlt := (Array.getElem?_eq_some_iff.mp h).1
    simp only [opened, Array.getElem?_push, Array.size_push, if_neg (Nat.ne_of_lt hlt),
      if_neg (Nat.ne_of_lt (Nat.lt_succ_of_lt hlt))]
    exact h
  · simp [opened, unresolved]

end LabelTable

namespace Body

/-- What is as before after an operation that failed, apart from the code. -/
structure Kept (b b' : Body) : Prop where
  locals : b'.locals = b.locals
  labels : b.emitter.labels.Keeps b'.emitter.labels
  scopes : b'.scopes = b.scopes
  constants : b.emitter.constants.Extends b'.emitter.constants

theorem Failed.kept {options : EmitOptions} {b b' : Body} (h : b.Failed options b') :
    b.Kept b' ∧ b'.emitter.chunk = b.emitter.chunk := by
  obtain ⟨k, hpool, -, rfl | rfl⟩ := h <;> exact ⟨⟨rfl, .refl _, rfl, hpool⟩, rfl⟩

theorem Failed.kept_withScope {options : EmitOptions} {b b' : Body}
    (h : b.withScope.Failed options b') : b.Kept b' ∧ b'.emitter.chunk = b.emitter.chunk := by
  obtain ⟨k, hpool, -, rfl | rfl⟩ := h <;> exact ⟨⟨rfl, LabelTable.keeps_opened _, rfl, hpool⟩, rfl⟩

end Body

namespace Session

/-- The operation closes a loop or a block, the innermost scope, where the code has come within the
length of an instruction of what a jump can reach. -/
def ClosesTooFar (b : Body) (op : Operation) : Prop := 4294967291 ≤ b.emitter.chunk.size ∧
    ∃ h o rest, op = .closeScope h ∧ b.scopes.opened = o :: rest ∧ o.kind ≠ .branch

/-- A failed load also leaves the temporaries as they were. -/
theorem Inv.temporaries_of_failed_load {d : Discipline} {s : Session} {segs : List Listing}
    (h : s.Inv d segs) {x : Symbol} {intent : LoadIntent} {e : EmitError}
    (hfails : (s.perform (.load x intent)).1 = .error e) :
    (s.perform (.load x intent)).2.body.pooled = s.body.pooled ∧
      (s.perform (.load x intent)).2.body.live = s.body.live := by
  rw [perform_eq, outcome_load] at hfails ⊢
  rcases Emission.load_cases h.body.sound x intent with ⟨e, k, hout, -⟩ | ⟨b', ts, xs, hout, -⟩
  · rw [hout]
    exact ⟨rfl, rfl⟩
  · rw [hout] at hfails
    cases hfails

/-- An operation that fails, whatever was done before, leaves slots, labels, marks and scopes as
they were and the constants where they were. It leaves the code and its lines as they were unless it
closes a loop or a block at the end of what jumps can reach. A failed load leaves the temporaries as
they were. -/
theorem failed_operation_leaves_no_trace {id : ContextId} {registry : Registry}
    {function : FunctionDecl} {options : EmitOptions} {s : Session} {op : Operation} {e : EmitError}
    (hsteps : Steps (fun _ => True) (start id registry function options) s)
    (hpermits : s.Permits op) (hfails : (s.perform op).1 = .error e) :
    s.body.Kept (s.perform op).2.body ∧
      ((s.perform op).2.body.emitter.chunk = s.body.emitter.chunk ∨
        ClosesTooFar s.body op ∧ ∃ n, e = .invalidOperand (.jumpTarget n)) ∧
      ∀ x intent, op = .load x intent →
        (s.perform op).2.body.pooled = s.body.pooled ∧
        (s.perform op).2.body.live = s.body.live := by
  obtain ⟨segs, hinv, -⟩ := inv_of_steps hsteps
  have hends := hinv.ends hpermits (Discipline.free_allows op)
  have hkept : s.body.Kept (s.perform op).2.body ∧
      ((s.perform op).2.body.emitter.chunk = s.body.emitter.chunk ∨
        ClosesTooFar s.body op ∧ ∃ n, e = .invalidOperand (.jumpTarget n)) := by
    rw [perform_eq] at hfails ⊢
    rcases hout : op.emission.outcome s.setting s.body with ⟨e' | a, b'⟩ <;>
      rw [hout] at hends hfails
    · cases hfails
      rcases hends with hfailed | hfailed |
          ⟨-, h, o, rest, bytes, hop, hopened, hkind, hlength, rfl, hlarge, herror⟩
      · exact ⟨hfailed.kept.1, .inl hfailed.kept.2⟩
      · exact ⟨hfailed.kept_withScope.1, .inl hfailed.kept_withScope.2⟩
      · refine ⟨⟨rfl, .refl _, rfl, .refl _⟩,
          .inr ⟨⟨?_, h, o, rest, hop, hopened, hkind⟩, _, herror⟩⟩
        have hsize := Chunk.size_writeBytes s.body.emitter.chunk bytes s.body.emitter.line
        simp only [Emitter.offset, Emitter.write] at hlarge
        omega
    · cases hfails
  refine ⟨hkept.1, hkept.2, fun x intent hop => ?_⟩
  subst hop
  exact hinv.temporaries_of_failed_load hfails

/-- A context without room for local slots, whose user holds the symbol of a truth value. -/
def withoutSlots : Session :=
  (start ⟨0⟩ .empty (.staticMethod ⟨1⟩ "f" [] .void) ⟨true, 0, 1⟩).performAll
    [.make (.literal (.bool true))]

/-- The truth value is pushed and then cannot be spilled: the instruction is taken back. -/
theorem failed_spill_leaves_no_trace :
    (withoutSlots.perform (.load (.literal ⟨0⟩ (.bool true)) (.reference true))).1 =
        .error (.tooManyLocals 0) ∧
      withoutSlots.body.Kept
        (withoutSlots.perform (.load (.literal ⟨0⟩ (.bool true)) (.reference true))).2.body := by
  have hpermits : withoutSlots.Permits (.load (.literal ⟨0⟩ (.bool true)) (.reference true)) :=
    ⟨fun x hx => .inl hx, nofun, nofun⟩
  have hfails : (withoutSlots.perform (.load (.literal ⟨0⟩ (.bool true)) (.reference true))).1 =
      .error (.tooManyLocals 0) := rfl
  refine ⟨hfails, (failed_operation_leaves_no_trace (steps_performAll ?_ fun _ _ => trivial)
    hpermits hfails).1⟩
  exact ⟨⟨nofun, nofun, nofun⟩, trivial⟩

/-! ### A loop that is too long -/

/-- The loop that is opened first in a context. -/
def firstLoop : ScopeHandle := ⟨⟨0⟩, 0, .loop⟩

/-- What the context knows of it. -/
def opened : OpenScope := ⟨0, .loop, ⟨⟨0⟩, 0⟩, ⟨⟨0⟩, 1⟩⟩

/-- A context in which a loop has been opened. -/
def looping : Session := (start ⟨0⟩ .empty (.staticMethod ⟨1⟩ "f" [] .void) .default).performAll
    [.openScope .loop none]

/-- The context after its loop has got some code. -/
def loopingOver (c : Chunk) : Session :=
  { looping with context := ⟨looping.setting,
      { looping.body with emitter := { looping.body.emitter with chunk := c } }⟩ }

/-- The code with one more jump to its beginning. -/
def turned (c : Chunk) : Chunk :=
  (c.writeOp .jump looping.body.emitter.line).write32 0 looping.body.emitter.line

theorem loopingOver_empty : loopingOver .empty = looping := rfl

theorem perform_continueLoop (c : Chunk) :
    (loopingOver c).perform (.continueLoop firstLoop) = (.ok .done, loopingOver (turned c)) := rfl

/-- The exit of the loop cannot be marked, and the jump back stays. -/
theorem perform_closeScope {c : Chunk} (hlarge : 4294967296 ≤ (turned c).size) :
    (loopingOver c).perform (.closeScope firstLoop) =
      (.error (.invalidOperand (.jumpTarget (turned c).size)), loopingOver (turned c)) := by
  have hmark : looping.body.emitter.labels.mark ⟨⟨0⟩, 1⟩ (turned c) =
      (.error (.invalidOperand (.jumpTarget (turned c).size)), looping.body.emitter.labels,
        turned c) := by
    show (if 4294967296 ≤ (turned c).size then _ else _) = _
    rw [if_pos hlarge]
  have hmarked : (Emission.markLabel ⟨⟨0⟩, 1⟩).outcome looping.setting
      (loopingOver (turned c)).body =
      (.error (.invalidOperand (.jumpTarget (turned c).size)), (loopingOver (turned c)).body) := by
    have hlabels : (Emission.markLabel ⟨⟨0⟩, 1⟩).outcome looping.setting
        (loopingOver (turned c)).body =
        let marked := looping.body.emitter.labels.mark ⟨⟨0⟩, 1⟩ (turned c)
        (marked.1, { looping.body with emitter :=
          { looping.body.emitter with labels := marked.2.1, chunk := marked.2.2 } }) := rfl
    rw [hlabels, hmark]
    rfl
  have hjump : (Emission.closing opened).outcome looping.setting (loopingOver c).body =
      (.ok (), (loopingOver (turned c)).body) := rfl
  have hclose := Emission.closeScope_eq (c := looping.setting) (b := (loopingOver c).body)
    (h := firstLoop) (o := opened) rfl rfl rfl rfl
  have hemission : (Operation.closeScope firstLoop).emission.outcome looping.setting
      (loopingOver c).body =
      (Emission.closeScope firstLoop >>= fun _ => pure Answer.done).outcome looping.setting
        (loopingOver c).body := rfl
  rw [perform_eq, show (loopingOver c).setting = looping.setting from rfl, hemission,
    Emission.outcome_bind, hclose, Emission.outcome_bind, hjump]
  dsimp only
  rw [Emission.outcome_bind, show opened.exit = ⟨⟨0⟩, 1⟩ from rfl, hmarked]
  rfl

theorem size_turned (c : Chunk) : (turned c).size = c.size + 5 :=
  Chunk.size_writeBytes c (Opcode.jump.byte :: bytes32 0) _

theorem permits_continueLoop (c : Chunk) : (loopingOver c).Permits (.continueLoop firstLoop) :=
  ⟨nofun, nofun, fun _ hh => .inl hh⟩

/-- Any number of turns can be added to the loop, and each makes the code longer by a jump. -/
theorem steps_continueLoop (n : Nat) (c : Chunk) : ∃ c', c'.size = c.size + 5 * n ∧
    (loopingOver c).performAll (List.replicate n (.continueLoop firstLoop)) = loopingOver c' ∧
    Steps (fun _ => True) (loopingOver c) (loopingOver c') := by
  induction n generalizing c with
  | zero => exact ⟨c, rfl, rfl, .refl⟩
  | succ n ih =>
    obtain ⟨c', hsize, hall, hsteps⟩ := ih (turned c)
    have hstep : Step (fun _ => True) (loopingOver c) (loopingOver (turned c)) :=
      ⟨.continueLoop firstLoop, permits_continueLoop c, trivial, by rw [perform_continueLoop]⟩
    refine ⟨c', by rw [hsize, size_turned]; omega, ?_, .head hstep hsteps⟩
    rw [List.replicate_succ, performAll, perform_continueLoop]
    exact hall

/-- A loop with as many turns as jumps can reach. -/
def longLoop : Session := looping.performAll (List.replicate 858993459 (.continueLoop firstLoop))

/-- The loop cannot be closed, and the jump that would have closed it stays in the code. -/
theorem unclosed_loop_keeps_its_jump :
    Steps (fun _ => True) (start ⟨0⟩ .empty (.staticMethod ⟨1⟩ "f" [] .void) .default) longLoop ∧
      longLoop.Permits (.closeScope firstLoop) ∧
      (longLoop.perform (.closeScope firstLoop)).1 =
        .error (.invalidOperand (.jumpTarget 4294967300)) ∧
      longLoop.body.emitter.chunk.size = 4294967295 ∧
      (longLoop.perform (.closeScope firstLoop)).2.body.emitter.chunk.size = 4294967300 := by
  obtain ⟨c, hsize, hall, hsteps⟩ := steps_continueLoop 858993459 .empty
  rw [loopingOver_empty] at hall hsteps
  have hlong : longLoop = loopingOver c := by rw [longLoop, hall]
  have hsize : c.size = 4294967295 := by rw [hsize]; rfl
  have hturned : (turned c).size = 4294967300 := by rw [size_turned, hsize]
  have hopens : Steps (fun _ => True) (start ⟨0⟩ .empty (.staticMethod ⟨1⟩ "f" [] .void) .default)
    looping :=
    steps_performAll ⟨⟨nofun, nofun, nofun⟩, trivial⟩ fun _ _ => trivial
  rw [hlong, perform_closeScope (by omega), hturned]
  exact ⟨hopens.trans hsteps, ⟨nofun, nofun, fun _ hh => .inl hh⟩, rfl, hsize, hturned⟩

end Session

end StackCode
