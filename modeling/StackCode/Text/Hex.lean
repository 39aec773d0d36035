/-!
# Hexadecimal text

Numbers and bytes in hexadecimal digits. Written digits are in lower case; both cases are read.
-/

namespace StackCode.Hex

/-- The digits of `n` in base sixteen, at least one. -/
def digits (n : Nat) : List Char := Nat.toDigits 16 n

/-- The digits of `n`, filled with zeros on the left up to `width` places. -/
def padded (width n : Nat) : String :=
  let ds := digits n
  String.ofList (List.replicate (width - ds.length) '0' ++ ds)

/-- The number that a digit stands for. -/
def value? (c : Char) : Option Nat :=
  if '0' ≤ c ∧ c ≤ '9' then some (c.toNat - '0'.toNat)
  else if 'a' ≤ c ∧ c ≤ 'f' then some (c.toNat - 'a'.toNat + 10)
  else if 'A' ≤ c ∧ c ≤ 'F' then some (c.toNat - 'A'.toNat + 10)
  else none

/-- The number that a row of digits stands for; a row has at least one digit. -/
def parse? : List Char → Option Nat
  | [] => none
  | cs => cs.foldlM (fun n c => return 16 * n + (← value? c)) 0

/-- The digits of bytes, two for each. -/
def ofBytes (bytes : Array UInt8) : String :=
  bytes.foldl (fun s b => s ++ padded 2 b.toNat) ""

/-- The bytes with the given digits. -/
def parseBytes? : List Char → Option (List UInt8)
  | [] => some []
  | a :: b :: cs => do return UInt8.ofNat (← parse? [a, b]) :: (← parseBytes? cs)
  | [_] => none

end StackCode.Hex
