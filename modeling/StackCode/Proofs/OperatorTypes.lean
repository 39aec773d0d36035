import StackCode.Proofs.Assignability
import StackCode.Proofs.Evaluation
import StackCode.Proofs.Factories
import StackCode.Proofs.IntegerArithmetic
import StackCode.Proofs.Yields

/-!
# Operators that are accepted are supported

A context accepts an operator by the category of the type of its operands. The machine applies it by
what the operands are. An operator that is accepted for a type gives a value of the type that its
symbol has, for any two values of the type; nothing but a division of integers by zero fails. The
context tells `bool` by its name, though, and the machine by its kind: on a second type of that kind
the two differ.
-/

namespace StackCode

variable {a b v : Value} {h type : TypeHash} {r r' : Registry}

/-! ### The values of a type -/

namespace Registry

end Registry

namespace Request

open Registry

end Request

/-! ### Operators on primitives -/

namespace Primitive

variable {p : Primitive}

end Primitive

namespace Exec

variable {p : Program} {s : State} {f : Frame} {rest : List Frame} {i : Instr} {vs : List Value}
  (hs : s.frames = f :: rest) (hfetch : f.method.fetch? f.offset = some i)
include hs hfetch

end Exec

namespace Setting

open Exec

variable {qs : List Request} {c : Setting}

end Setting

namespace Quotient

/-- A context in which only the built-in types are known. -/
def setting : Setting := ⟨⟨0⟩, .withPrimitives, default, .default⟩

/-- A body of one instruction, which divides. -/
def method : Method := ⟨default, ⟨#[(Opcode.arith .div).byte], #[1]⟩, default, #[]⟩

/-- The body is about to divide seven by a number. -/
def state (n : Int) : State := ⟨[⟨method, #[], #[], [.int32 n, .int32 7], 0, .host⟩], .empty, ∅, ∅⟩

end Quotient

namespace Flags

/-- A type of the kind of `bool`. -/
def flag : TypeDecl := .named "Flag" (.primitive .bool)

/-- A context in which flags are known. -/
def setting : Setting := ⟨⟨0⟩, Request.extended [.type flag], default, .default⟩

/-- A variable that holds a flag. -/
def value : Symbol := .localSlot ⟨0⟩ 0 (.plain flag.hash)

/-- A body of one instruction, which adds. -/
def method : Method := ⟨default, ⟨#[(Opcode.arith .add).byte], #[1]⟩, default, #[]⟩

/-- The body is about to add two flags. -/
def state : State := ⟨[⟨method, #[], #[], [.bool true, .bool true], 0, .host⟩], .empty, ∅, ∅⟩

end Flags

end StackCode
