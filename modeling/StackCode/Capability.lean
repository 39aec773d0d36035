/-!
# Capabilities

What can be done with a symbol: load its value, take its address, assign to it.
-/

namespace StackCode

/-- A set of capabilities. -/
structure Capabilities where
  value : Bool
  address : Bool
  assign : Bool
  deriving DecidableEq, Repr, Inhabited

namespace Capabilities

/-- Loading only. -/
def justValue : Capabilities := ⟨true, false, false⟩

/-- Taking the address only. -/
def justAddress : Capabilities := ⟨false, true, false⟩

/-- Assigning only. -/
def justAssign : Capabilities := ⟨false, false, true⟩

/-- Everything a storage place offers. -/
def storage : Capabilities := ⟨true, true, true⟩

/-- The set as a bit mask. -/
def bits (c : Capabilities) : Nat := c.value.toNat + 2 * c.address.toNat + 4 * c.assign.toNat

/-- The set with a given bit mask, if the mask has no further bits. -/
def ofBits? (n : Nat) : Option Capabilities :=
  if n < 8 then some ⟨n % 2 == 1, n / 2 % 2 == 1, n / 4 % 2 == 1⟩ else none

/-- Whether every capability of `d` is in `c`. -/
def contains (c d : Capabilities) : Bool :=
  (!d.value || c.value) && (!d.address || c.address) && (!d.assign || c.assign)

/-- A word for the set. -/
def describe (c : Capabilities) : String :=
  if c = justAddress then "address"
  else if c = justAssign then "assign"
  else if c = justValue then "value"
  else "storage"

end Capabilities

end StackCode
