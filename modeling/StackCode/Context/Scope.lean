import StackCode.Context.Statement

/-!
# Scopes

A scope is a stretch of code between two labels. A branch may be guarded by a condition; a loop
jumps back to its entry when it is closed, and a condition guards its first round only; a block ends
in an instruction without effect. Scopes are closed innermost first.
-/

namespace StackCode

/-- A scope as its user holds it. -/
structure ScopeHandle where
  context : ContextId
  id : Nat
  kind : ScopeKind
  deriving DecidableEq, Repr, Inhabited

namespace ScopeStack

/-- Open one more scope. -/
def push (s : ScopeStack) (kind : ScopeKind) (entry exit : Label) : ScopeStack :=
  { opened := ⟨s.closed.size, kind, entry, exit⟩ :: s.opened, closed := s.closed.push false }

/-- The open scope with a number. -/
def find (s : ScopeStack) (id : Nat) : Except EmitError OpenScope :=
  if s.closed[id]? ≠ some false then .error (.labelMisuse (.alreadyClosed id))
  else
    match s.opened.find? fun o => o.id == id with
    | some o => .ok o
    | none => .error (.labelMisuse (.notOpen id))

/-- Close the innermost scope. -/
def pop (s : ScopeStack) (id : Nat) : ScopeStack :=
  { opened := s.opened.tail, closed := s.closed.setIfInBounds id true }

end ScopeStack

namespace Emission

/-- Refuse a condition that is no truth value. -/
def checkCondition (s : Symbol) : Emission Unit :=
  checking fun c => do
    c.checkSymbol s
    if s.valueType.hash ≠ .bool then c.noConversion s.valueType (.plain .bool)

/-- Leave for a label if a condition is false. -/
def emitGuard (condition : Symbol) (exit : Label) : Emission Unit := do
  emitLoad condition .value
  onEmitter (Emitter.emitJump (.jumpIf false) exit)

/-- Open a scope, with a condition that guards it. -/
def openScope (kind : ScopeKind) (condition : Option Symbol) : Emission ScopeHandle := do
  if let some s := condition then checkCondition s
  let (entry, exit) ← releasing (atomically do
    let entry ← defineLabel
    let exit ← defineLabel
    if kind ≠ .loop then markLabel entry
    if let some s := condition then emitGuard s exit
    if kind = .loop then markLabel entry
    pure (entry, exit))
  let id := (← get).scopes.closed.size
  modify fun b => { b with scopes := b.scopes.push kind entry exit }
  return ⟨(← read).id, id, kind⟩

/-- The open scope that a handle stands for. -/
def findScope (h : ScopeHandle) : Emission OpenScope := do
  checking fun c => c.check h.context
  MonadExcept.ofExcept ((← get).scopes.find h.id)

/-- Close the innermost scope. -/
def closeScope (h : ScopeHandle) : Emission Unit := do
  let scope ← findScope h
  if ((← get).scopes.opened.head?.map OpenScope.id) ≠ some h.id then
    throw (.labelMisuse (.notInnermost h.id))
  match scope.kind with
  | .loop => jump scope.entry
  | .block => onEmitter (Emitter.emit .nop)
  | .branch => pure ()
  markLabel scope.exit
  modify fun b => { b with scopes := b.scopes.pop h.id }

/-- Leave a scope. -/
def breakScope (h : ScopeHandle) : Emission Unit := do jump (← findScope h).exit

/-- Go back to the entry of a loop. -/
def continueLoop (h : ScopeHandle) : Emission Unit := do
  let scope ← findScope h
  if h.kind ≠ .loop then throw (.labelMisuse (.continueOn h.kind))
  jump scope.entry

/-- Leave a scope if a condition is false. -/
def breakIfFalse (h : ScopeHandle) (condition : Symbol) : Emission Unit := do
  let scope ← findScope h
  checkCondition condition
  releasing (atomically (emitGuard condition scope.exit))

end Emission

end StackCode
