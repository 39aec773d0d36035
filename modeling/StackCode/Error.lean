import StackCode.Capability

/-!
# Errors of registration and emission

Causes, not texts: each error says what went wrong, `kind` names the sort of error, and `message` is
the one place that puts it into words. Types and members are named as the registry describes them.
-/

namespace StackCode

/-- The identity of a context: symbols, labels and scopes belong to one. -/
structure ContextId where
  number : Nat
  deriving DecidableEq, Repr, Inhabited

/-- The name of a context. -/
def ContextId.text (c : ContextId) : String := "ctx_" ++ toString c.number

/-- Why a declaration was refused. -/
inductive RegistrationError
  | duplicateType (name : String)
  | duplicateFunction (name : String)
  | unknownOwner (member : String)
  | valueTypeWithBase (name : String)
  | unregisteredBase (name : String)
  | repeatedField (field type : String)
  | unknownElement (element : String)
  deriving DecidableEq, Repr

/-- The name of the kind of a refusal. -/
def RegistrationError.kind : RegistrationError → String
  | .duplicateType _ => "DuplicateType"
  | .duplicateFunction _ => "DuplicateFunction"
  | .unknownOwner _ => "UnknownOwner"
  | .valueTypeWithBase _ | .unregisteredBase _ | .repeatedField _ _ | .unknownElement _ =>
    "InvalidType"

/-- The wording of a refused declaration. -/
def RegistrationError.message : RegistrationError → String
  | .duplicateType name => s!"duplicate type: {name}"
  | .duplicateFunction name => s!"duplicate function: {name}"
  | .unknownOwner member => s!"unknown owner type for '{member}'"
  | .valueTypeWithBase name => s!"invalid type: value type '{name}' cannot have a base type"
  | .unregisteredBase name => s!"invalid type: base type of '{name}' is not registered"
  | .repeatedField field type => s!"invalid type: field '{field}' declared twice on '{type}'"
  | .unknownElement element => s!"invalid type: array of unknown {element}"

/-- The sorts of scopes. -/
inductive ScopeKind
  | branch
  | loop
  | block
  deriving DecidableEq, Repr, Inhabited

/-- The word for a sort of scopes. -/
def ScopeKind.name : ScopeKind → String
  | .branch => "Branch"
  | .loop => "Loop"
  | .block => "Block"

/-- How labels or scopes were misused. -/
inductive LabelMisuse
  | unknownLabel (label : Nat)
  | markedTwice (label : Nat)
  | operandOutside (offset : Nat)
  | scopesOpen (count : Nat) (innermost : ScopeKind)
  | neverMarked (count : Nat)
  | alreadyClosed (scope : Nat)
  | notOpen (scope : Nat)
  | notInnermost (scope : Nat)
  | continueOn (kind : ScopeKind)
  deriving DecidableEq, Repr

/-- The wording of a misuse of labels or scopes. -/
def LabelMisuse.message : LabelMisuse → String
  | .unknownLabel label => s!"unknown label {label}"
  | .markedTwice label => s!"label {label} marked twice"
  | .operandOutside offset => s!"jump operand at {offset} is outside the stream"
  | .scopesOpen count innermost =>
    s!"{count} scope(s) still open, innermost is a " ++ innermost.name
  | .neverMarked count => s!"{count} label(s) jumped to but never marked"
  | .alreadyClosed scope => s!"scope {scope} is already closed"
  | .notOpen scope => s!"scope {scope} is not open"
  | .notInnermost scope => s!"scope {scope} closed before the scopes nested inside it"
  | .continueOn kind => "continue on a " ++ kind.name ++ " scope"

/-- Why an operand cannot be encoded or a call cannot be composed. -/
inductive OperandFault
  | constantIndex (index : Nat)
  | argumentCount (count : Nat)
  | jumpTarget (offset : Nat)
  | constructorCalled (owner : String)
  | notConstructor (function : String)
  | missingReceiver (function : String)
  | unexpectedReceiver (function : String)
  | argumentMismatch (function : String) (expected found : Nat)
  | tooManyCaptured (owner : String)
  deriving DecidableEq, Repr

/-- The wording of a faulty operand. -/
def OperandFault.message : OperandFault → String
  | .constantIndex index => s!"constant index {index} exceeds u16"
  | .argumentCount count => s!"{count} arguments exceed 255"
  | .jumpTarget offset => s!"jump target {offset} exceeds u32"
  | .constructorCalled owner => s!"constructor of '{owner}' must be invoked with construct"
  | .notConstructor function => s!"'{function}' is not a constructor"
  | .missingReceiver function => s!"instance method '{function}' called without a receiver"
  | .unexpectedReceiver function => s!"static function '{function}' called with a receiver"
  | .argumentMismatch function expected found =>
    s!"'{function}' takes {expected} arguments but {found} were supplied"
  | .tooManyCaptured owner => s!"more than 65535 captured values on {owner}"

/-- Why symbols could not be composed or code could not be emitted. -/
inductive EmitError
  | crossContext (expected found : ContextId)
  | missingCapability (type : String) (capability : Capabilities)
  | noConversion (source target : String)
  | assignmentMismatch (destination source : String)
  | labelMisuse (cause : LabelMisuse)
  | unsupportedPrimitive (type : String)
  | unknownType (type : String)
  | unknownMember (type member : String)
  | tooManyLocals (limit : Nat)
  | invalidOperand (cause : OperandFault)
  | registration (cause : RegistrationError)
  deriving DecidableEq, Repr

/-- The name of the kind of an error. -/
def EmitError.kind : EmitError → String
  | .crossContext _ _ => "CrossContext"
  | .missingCapability _ _ => "MissingCapability"
  | .noConversion _ _ => "NoConversion"
  | .assignmentMismatch _ _ => "AssignmentMismatch"
  | .labelMisuse _ => "LabelMisuse"
  | .unsupportedPrimitive _ => "UnsupportedPrimitive"
  | .unknownType _ => "UnknownType"
  | .unknownMember _ _ => "UnknownMember"
  | .tooManyLocals _ => "TooManyLocals"
  | .invalidOperand _ => "InvalidOperand"
  | .registration _ => "Registry"

/-- The wording of an emission error. -/
def EmitError.message : EmitError → String
  | .crossContext expected found =>
    "symbol belongs to " ++ found.text ++ " but was used in " ++ expected.text
  | .missingCapability type capability =>
    s!"symbol of type '{type}' does not support " ++ capability.describe
  | .noConversion source target => s!"no conversion from '{source}' to '{target}'"
  | .assignmentMismatch destination source => s!"cannot assign '{source}' to '{destination}'"
  | .labelMisuse cause => "label misuse: " ++ cause.message
  | .unsupportedPrimitive type =>
    s!"primitive type '{type}' cannot be loaded or stored indirectly"
  | .unknownType type => s!"unknown type: {type}"
  | .unknownMember type member => s!"type '{type}' has no member '{member}'"
  | .tooManyLocals limit => s!"too many locals: limit is {limit}"
  | .invalidOperand cause => "invalid operand: " ++ cause.message
  | .registration cause => cause.message

end StackCode
