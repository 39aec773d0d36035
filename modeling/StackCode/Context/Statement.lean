import StackCode.Code.Method
import StackCode.Context.Assign
import StackCode.Context.Factory

/-!
# Statements, labels and finished bodies

Statements evaluate a symbol for its effect or return it. Labels and jumps are those of the emitter.
A body becomes a method once its scopes are closed and its labels are resolved; a body that
can be left at its end returns there, which only a function without result may do.
-/

namespace StackCode

namespace Emission

/-- Evaluate a symbol and drop its value. -/
def statement (s : Symbol) : Emission Unit := do
  checking fun c => c.checkSymbol s
  releasing (atomically do
    emitLoad s .value
    if !s.dataType.isVoid then onEmitter (Emitter.emit .pop))

/-- The error of a missing result. -/
def missingResult (c : Setting) : EmitError :=
  .assignmentMismatch (c.registry.describe c.function.returns) (c.registry.typeName .void)

/-- Return from the function, with a result if it has one. -/
def returnValue (value : Option Symbol) : Emission Unit := do
  let c ← read
  let returns := c.function.returns
  match value with
  | none => releasing do
    if !returns.isVoid then throw (missingResult c)
    onEmitter (Emitter.emit .retVoid)
  | some s =>
    checking fun c => c.checkSymbol s
    if returns.isVoid || !c.registry.assignable s.valueType.hash returns.hash then
      throw (.assignmentMismatch (c.registry.describe returns) (c.registry.describe s.valueType))
    releasing (atomically do
      emitLoad s .value
      onEmitter (Emitter.emit .ret))

/-- A new label. -/
def defineLabel : Emission Label := onEmitter Emitter.defineLabel

/-- Mark a label here. -/
def markLabel (l : Label) : Emission Unit := onEmitter (Emitter.markLabel l)

/-- Jump to a label. -/
def jump (l : Label) : Emission Unit := onEmitter (Emitter.emitJump .jump l)

end Emission

namespace Context

/-- The context of a registered function. -/
def forFunction (id : ContextId) (registry : Registry) (function : TypeHash)
    (options : EmitOptions) : Except EmitError Context :=
  match registry.function? function with
  | some f => .ok (.start id registry f options)
  | none => .error (.unknownMember "<functions>" function.text)

/-- Whether control can reach the end of the code. -/
def fallsThrough (c : Context) : Bool :=
  !(c.chunk.lastOp?.any Opcode.isTerminator) || c.body.emitter.labels.hasTargetAt c.chunk.size

/-- Turn a finished body into a method. -/
def finish (c : Context) : Except EmitError Method := do
  if let innermost :: _ := c.body.scopes.opened then
    throw (.labelMisuse (.scopesOpen c.body.scopes.opened.length innermost.kind))
  let unresolved := c.body.emitter.labels.unresolved
  if 0 < unresolved then throw (.labelMisuse (.neverMarked unresolved))
  let emitter := c.body.emitter
  let chunk ←
    if c.fallsThrough then
      if !c.setting.function.returns.isVoid then throw (Emission.missingResult c.setting)
      else pure (emitter.chunk.writeOp .retVoid emitter.line)
    else pure emitter.chunk
  return ⟨c.setting.function, chunk, emitter.constants, c.body.locals⟩

end Context

end StackCode
