import StackCode.Literal

/-!
# Constant pools

The literals and hashes that the instructions of a body refer to by index. Adding a constant whose
`key` is present already gives the index of the constant that was added first, so the pool never
grows by an equal constant. Floating-point numbers are equal as numbers, and all NaNs are equal;
numbers of different types are never equal.
-/

namespace StackCode

/-- A constant: a literal, or the hash of a type or member. -/
inductive Constant
  | literal (value : Literal)
  | hash (value : TypeHash)
  deriving DecidableEq, Repr, Inhabited

/-- What makes two constants equal. The first number of an integer is its width in bytes, zero for
the native words; it keeps equal numbers of different types apart. -/
inductive Constant.Key
  | null
  | bool (value : Bool)
  | char (value : Nat)
  | signed (width : Nat) (value : Int)
  | unsigned (width : Nat) (value : Nat)
  | float32 (bits : Nat)
  | float64 (bits : Nat)
  | str (value : String)
  | hash (value : TypeHash)
  deriving DecidableEq, Repr

namespace Constant.Key

/-- The place of the constructor among the constructors. -/
def sort : Key → Nat
  | .null => 0
  | .bool _ => 1
  | .char _ => 2
  | .signed _ _ => 3
  | .unsigned _ _ => 4
  | .float32 _ => 5
  | .float64 _ => 6
  | .str _ => 7
  | .hash _ => 8

/-- The width of an integer. -/
def width : Key → Nat
  | .signed width _ | .unsigned width _ => width
  | _ => 0

/-- The number that a key holds. -/
def number : Key → Int
  | .null | .str _ => 0
  | .bool value => value.toNat
  | .char value | .unsigned _ value | .float32 value | .float64 value => value
  | .signed _ value => value
  | .hash value => value.bits.toNat

/-- The text that a key holds. -/
def text : Key → String
  | .str value => value
  | _ => ""

/-- Keys are ordered by constructor, then width, then number, then text. -/
def cmp : Key → Key → Ordering := compareLex (compareOn sort) (compareLex (compareOn width)
  (compareLex (compareOn number) (compareOn text)))

instance : Ord Key := ⟨cmp⟩

instance : Std.TransOrd Key := inferInstanceAs (Std.TransCmp (compareLex (compareOn sort)
  (compareLex (compareOn width) (compareLex (compareOn number) (compareOn text)))))

theorem eq_of_parts {a b : Key} (hsort : a.sort = b.sort) (hwidth : a.width = b.width)
    (hnumber : a.number = b.number) (htext : a.text = b.text) : a = b := by
  cases a with
  | null => cases b <;> first | rfl | cases hsort
  | bool x =>
    cases b with
    | bool y => cases x <;> cases y <;> first | rfl | cases hnumber
    | _ => cases hsort
  | char | float32 | float64 =>
    cases b <;> cases hsort
    exact congrArg _ (Int.ofNat.inj hnumber)
  | signed =>
    cases b <;> cases hsort
    cases hwidth
    exact congrArg _ hnumber
  | unsigned =>
    cases b <;> cases hsort
    cases hwidth
    exact congrArg _ (Int.ofNat.inj hnumber)
  | str =>
    cases b <;> cases hsort
    exact congrArg _ htext
  | hash x =>
    cases b with
    | hash y =>
      obtain ⟨bits⟩ := x
      obtain ⟨bits'⟩ := y
      have hbits : bits = bits' := UInt64.toNat_inj.mp (Int.ofNat.inj hnumber)
      rw [hbits]
    | _ => cases hsort

instance : Std.LawfulEqOrd Key where
  eq_of_compare {a b} h := by
    obtain ⟨hsort, h⟩ := compareLex_eq_eq.mp h
    obtain ⟨hwidth, h⟩ := compareLex_eq_eq.mp h
    obtain ⟨hnumber, htext⟩ := compareLex_eq_eq.mp h
    exact eq_of_parts (Std.LawfulEqOrd.eq_of_compare hsort) (Std.LawfulEqOrd.eq_of_compare hwidth)
      (Std.LawfulEqOrd.eq_of_compare hnumber) (Std.LawfulEqOrd.eq_of_compare htext)

end Constant.Key

namespace Constant

/-- The key of an integer: its kind, and the number it stands for. -/
def intKey (k : IntKind) (v : BitVec k.width) : Key :=
  let width := if k.native then 0 else k.width / 8
  if k = .char then .char v.toNat
  else if k.signed then .signed width v.toInt
  else .unsigned width v.toNat

/-- The key of a floating-point number with these bits. -/
def floatKey (k : FloatKind) (bits : Nat) : Key :=
  match k with
  | .float32 => .float32 bits
  | .float64 => .float64 bits

/-- The key of a constant. -/
def key : Constant → Key
  | .literal .null => .null
  | .literal (.bool b) => .bool b
  | .literal (.int k v) => intKey k v
  | .literal (.float k v) => floatKey k (k.canonical v).toNat
  | .literal (.str s) => .str s
  | .hash h => .hash h

/-- The text of a constant in a listing. -/
def text : Constant → String
  | .literal l => l.text
  | .hash h => h.text

end Constant

/-- A pool: the constants in order of first addition, and the index of each key. -/
structure Pool where
  constants : Array Constant
  index : Std.TreeMap Constant.Key Nat

namespace Pool

/-- The pool without constants. -/
def empty : Pool := ⟨#[], ∅⟩

instance : Inhabited Pool := ⟨empty⟩

/-- The number of constants. -/
def size (p : Pool) : Nat := p.constants.size

/-- Add a constant; the index of the first constant with its key is returned. -/
def add (p : Pool) (c : Constant) : Nat × Pool :=
  match p.index[c.key]? with
  | some i => (i, p)
  | none =>
    let i := p.constants.size
    (i, { constants := p.constants.push c, index := p.index.insert c.key i })

/-- The pool of a list of constants, added in order. -/
def ofList (cs : List Constant) : Pool := cs.foldl (fun p c => (p.add c).2) empty

/-- The constant at an index. -/
def get? (p : Pool) (i : Nat) : Option Constant := p.constants[i]?

/-- The hash at an index, if the constant there is one. -/
def typeHash? (p : Pool) (i : Nat) : Option TypeHash :=
  match p.get? i with
  | some (.hash h) => some h
  | _ => none

/-- The literal at an index, if the constant there is one. -/
def literal? (p : Pool) (i : Nat) : Option Literal :=
  match p.get? i with
  | some (.literal l) => some l
  | _ => none

end Pool

end StackCode
