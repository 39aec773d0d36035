import StackCode.Machine.Heap

/-!
# Native functions

A native function is one that the host provides. It sees the heap and the arguments of the call, a
receiver first, and may allocate objects; it does not see the frames of the machine.
-/

namespace StackCode

/-- A function of the host. It may use the heap. -/
abbrev Native := Heap → List Value → Except Fault Value × Heap

namespace Native

/-- Always the same value. -/
def constant (v : Value) : Native := fun heap _ => (.ok v, heap)

/-- Always a failure. -/
def failing (message : String) : Native := fun heap _ => (.error (.native message), heap)

/-- One of the arguments. -/
def argument (i : Nat) : Native := fun heap args =>
  match args[i]? with
  | some v => (.ok v, heap)
  | none => (.error (.native "no such argument"), heap)

/-- The number of arguments. -/
def count : Native := fun heap args => (.ok (.int32 args.length), heap)

/-- The arguments in one aggregate. -/
def aggregate : Native := fun heap args => (.ok (.aggregate args), heap)

/-- A new object of a type that holds the arguments. -/
def alloc (type : TypeHash) : Native := fun heap args =>
  let (id, heap) := heap.alloc type (.aggregate args)
  (.ok (.ref id), heap)

end Native

end StackCode
