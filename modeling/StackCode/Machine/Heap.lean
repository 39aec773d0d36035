import StackCode.Machine.Fault

/-!
# The heap

Instances of reference types, arrays and boxed values. Objects are numbered as they are allocated
and never freed.
-/

namespace StackCode

/-- An object: the type it was allocated with, and its value. Instances and arrays hold an aggregate
of their fields or elements; a boxed value is held as it is. -/
structure HeapObject where
  type : TypeHash
  value : Value
  deriving DecidableEq, Repr, Inhabited

/-- The objects in order of allocation. -/
structure Heap where
  objects : Array HeapObject
  deriving DecidableEq, Repr, Inhabited

namespace Heap

/-- The heap without objects. -/
def empty : Heap := ⟨#[]⟩

/-- The number of objects. -/
def size (h : Heap) : Nat := h.objects.size

/-- Allocate an object. -/
def alloc (h : Heap) (type : TypeHash) (value : Value) : ObjectId × Heap :=
  (⟨h.objects.size⟩, ⟨h.objects.push ⟨type, value⟩⟩)

/-- The object with an identity. -/
def get (h : Heap) (id : ObjectId) : Except Fault HeapObject :=
  match h.objects[id.number]? with
  | some object => .ok object
  | none => .error (.danglingReference id)

/-- Replace the value of an object; an identity without object changes nothing. -/
def setValue (h : Heap) (id : ObjectId) (value : Value) : Heap :=
  ⟨h.objects.modify id.number fun object => { object with value }⟩

end Heap

end StackCode
