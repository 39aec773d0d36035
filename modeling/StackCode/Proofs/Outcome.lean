import StackCode.Context.Scope

/-!
# Outcomes of operations

Operations on an emitter or on a body change it and may fail; a failure keeps it as it is when the
failure occurs. The outcome of an operation is its answer with what it leaves. Here is how the
outcome of a composed operation follows from the outcomes of its parts.
-/

namespace StackCode

namespace Emitting

variable {α β : Type} {e : Emitter}

/-- What an operation on an emitter answers, and the emitter it leaves. -/
def outcome (x : Emitting α) (e : Emitter) : Except EmitError α × Emitter := x.run.run e

@[simp] theorem outcome_pure (a : α) : (pure a : Emitting α).outcome e = (.ok a, e) := rfl

@[simp] theorem outcome_throw (err : EmitError) :
    (throw err : Emitting α).outcome e = (.error err, e) := rfl

theorem outcome_bind (x : Emitting α) (f : α → Emitting β) :
    (x >>= f).outcome e = match x.outcome e with
      | (.ok a, e') => (f a).outcome e'
      | (.error err, e') => (.error err, e') := by
  rw [outcome, ExceptT.run_bind, StateT.run_bind]
  unfold outcome
  generalize x.run.run e = o
  obtain ⟨_ | _, _⟩ := o <;> rfl

end Emitting

namespace Emission

variable {α β : Type} {c : Setting} {b : Body}

/-- What an operation answers, and the body it leaves. -/
def outcome (x : Emission α) (c : Setting) (b : Body) : Except EmitError α × Body := (x c).run.run b

@[simp] theorem outcome_pure (a : α) : (pure a : Emission α).outcome c b = (.ok a, b) := rfl

@[simp] theorem outcome_throw (e : EmitError) :
    (throw e : Emission α).outcome c b = (.error e, b) := rfl

@[simp] theorem outcome_read : (read : Emission Setting).outcome c b = (.ok c, b) := rfl

@[simp] theorem outcome_get : (get : Emission Body).outcome c b = (.ok b, b) := rfl

@[simp] theorem outcome_modify (f : Body → Body) :
    (modify f : Emission Unit).outcome c b = (.ok (), f b) := rfl

theorem outcome_bind (x : Emission α) (f : α → Emission β) :
    (x >>= f).outcome c b = match x.outcome c b with
      | (.ok a, b') => (f a).outcome c b'
      | (.error e, b') => (.error e, b') := by
  show StateT.run (ExceptT.run (x c >>= fun a => f a c)) b = _
  rw [ExceptT.run_bind, StateT.run_bind]
  unfold outcome
  generalize (x c).run.run b = o
  obtain ⟨_ | _, _⟩ := o <;> rfl

@[simp] theorem outcome_ofExcept (e : Except EmitError α) :
    (MonadExcept.ofExcept e : Emission α).outcome c b = (e, b) := by
  cases e <;> rfl

@[simp] theorem outcome_checking (f : Setting → Except EmitError α) :
    (checking f).outcome c b = (f c, b) := by
  unfold checking
  rw [outcome_bind, outcome_read]
  exact outcome_ofExcept (f c)

theorem outcome_onEmitter (x : Emitting α) : (onEmitter x).outcome c b =
      ((x.outcome b.emitter).1, { b with emitter := (x.outcome b.emitter).2 }) := rfl

theorem outcome_atomically (x : Emission α) : (atomically x).outcome c b = match x.outcome c b with
      | (.ok a, b') => (.ok a, b')
      | (.error e, b') => (.error e, b'.restore b.savepoint) := rfl

theorem outcome_releasing (x : Emission α) :
    (releasing x).outcome c b = ((x.outcome c b).1, (x.outcome c b).2.release c.options) := rfl

theorem outcome_declareLocal (t : DataType) : (declareLocal t).outcome c b =
      if c.options.maxLocals.toNat ≤ b.locals.size then
        (.error (.tooManyLocals c.options.maxLocals.toNat), b)
      else (.ok (UInt16.ofNat b.locals.size), { b with locals := b.locals.push t }) := by
  unfold declareLocal
  simp only [outcome_bind, outcome_read, outcome_get]
  split <;> rfl

/-- A sequence succeeds if both parts do, one after the other. -/
theorem bind_ok {x : Emission α} {f : α → Emission β} {r : β} {b' : Body}
    (h : (x >>= f).outcome c b = (.ok r, b')) :
    ∃ a b₁, x.outcome c b = (.ok a, b₁) ∧ (f a).outcome c b₁ = (.ok r, b') := by
  rw [outcome_bind] at h
  split at h
  · rename_i a b₁ hx
    exact ⟨a, b₁, hx, h⟩
  · cases h

end Emission

end StackCode
