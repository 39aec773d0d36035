import StackCode.Context.Statement

/-!
# Building types

A builder collects the methods of one registered type and the values that their bodies capture.
Captured values are numbered in order and keep their numbers in the finished type.
-/

namespace StackCode

/-- A type whose methods are being collected. -/
structure TypeBuilder where
  registry : Registry
  type : TypeHash
  options : EmitOptions
  captured : Array Literal
  methods : List (TypeHash × Method)
  deriving Inhabited

namespace TypeBuilder

/-- The builder of a registered type. -/
def start (registry : Registry) (type : TypeHash) (options : EmitOptions) :
    Except EmitError TypeBuilder :=
  if registry.containsType type then .ok ⟨registry, type, options, #[], []⟩
  else .error (.unknownType type.text)

/-- The name of the type. -/
def name (b : TypeBuilder) : String := b.registry.typeName b.type

/-- Capture a value, if there is a number left for it. -/
def capture (b : TypeBuilder) (l : Literal) : Except EmitError CapturedId × TypeBuilder :=
  let index := b.captured.size
  if 65536 ≤ index then (.error (.invalidOperand (.tooManyCaptured b.name)), b)
  else
    (.ok ⟨b.type, UInt16.ofNat index, l.dataType⟩, { b with captured := b.captured.push l })

/-- The context of a method of the type. -/
def method (b : TypeBuilder) (id : ContextId) (function : TypeHash) : Except EmitError Context :=
  match (b.registry.function? function).filter fun f => f.owner = some b.type with
  | some f => .ok (.start id b.registry f b.options)
  | none => .error (.unknownMember b.name function.text)

/-- Add a finished method. -/
def addMethod (b : TypeBuilder) (m : Method) : Except EmitError TypeBuilder :=
  if m.function.owner ≠ some b.type then .error (.unknownMember b.name m.function.name)
  else if b.methods.any fun e => e.1 == m.function.hash then
    .error (.registration (.duplicateFunction m.function.name))
  else .ok { b with methods := b.methods ++ [(m.function.hash, m)] }

/-- The finished type. -/
def build (b : TypeBuilder) : BuiltType := ⟨b.type, b.name, b.methods, b.captured.toList⟩

end TypeBuilder

end StackCode
