import StackCode.Context.Load

/-!
# Assignment

The value of a source goes into the storage of a destination of the same type, or of a type it is
assignable to. There are three ways.
-/

namespace StackCode

/-- The ways of copying. -/
inductive CopyPath
  | direct
  | indirect
  | stack
  deriving DecidableEq, Repr, Inhabited

namespace Setting

/-- Whether a source may be assigned to a destination. -/
def compatible (c : Setting) (dest source : Symbol) : Bool :=
  source.valueType == dest.valueType ||
    c.registry.assignable source.valueType.hash dest.valueType.hash

/-- Whether a symbol holds an aggregate, possibly behind a reference. -/
def holdsAggregate (c : Setting) (s : Symbol) : Bool :=
  !s.valueType.isPointer && c.registry.isAggregate s.valueType.hash

/-- The way in which an assignment copies. -/
def copyPath (c : Setting) (dest source : Symbol) (forceStack : Bool) : CopyPath :=
  if c.holdsAggregate dest && !forceStack && dest.inPlace c.registry &&
      source.inPlace c.registry then .direct
  else if dest.dataType.isByRef then .indirect
  else .stack

end Setting

namespace Emission

/-- Copy a block from the address of the source to that of the destination. -/
def copyDirect (dest source : Symbol) : Emission Unit := do
  emitLoad dest (.reference false)
  emitLoad source (.reference false)
  onEmitter (Emitter.emitHash .copyObject dest.valueType.hash)

/-- Store through the address that the destination holds. -/
def storeThrough (dest source : Symbol) : Emission Unit := do
  let k ← checking fun c => Indirect.ofType c.registry dest.valueType.hash
  let pointer ← acquireTemporary dest.dataType
  let value ← acquireTemporary dest.valueType
  emitAccess dest .get
  accessLocal .set pointer
  emitLoad source .value
  accessLocal .set value
  accessLocal .get pointer
  accessLocal .get value
  k.emitStore

/-- Push the source and store it. -/
def storeStack (dest source : Symbol) : Emission Unit := do
  emitLoad source .value
  emitAccess dest .set

/-- The code of an assignment. -/
def emitCopy (dest source : Symbol) : CopyPath → Emission Unit
  | .direct => copyDirect dest source
  | .indirect => storeThrough dest source
  | .stack => storeStack dest source

/-- Assign a source to a destination; `forceStack` rules out copying a block. -/
def assignBy (forceStack : Bool) (dest source : Symbol) : Emission Unit := do
  let c ← read
  checking fun c => c.checkSymbol dest
  checking fun c => c.checkSymbol source
  if !dest.capabilities.assign then
    throw (.missingCapability (c.registry.describe dest.dataType) .justAssign)
  if !c.compatible dest source then
    throw (.assignmentMismatch (c.registry.describe dest.valueType)
      (c.registry.describe source.valueType))
  releasing (atomically (emitCopy dest source (c.copyPath dest source forceStack)))

/-- Assign a source to a destination. -/
def assign (dest source : Symbol) : Emission Unit := assignBy false dest source

/-- Assign a source to a destination without copying a block. -/
def assignStackMediated (dest source : Symbol) : Emission Unit := assignBy true dest source

end Emission

end StackCode
