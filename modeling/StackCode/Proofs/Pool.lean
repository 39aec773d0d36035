import StackCode.Code.Constant
import Mathlib.Data.List.Infix

/-!
# Constant pools only grow

The index of a pool is exact: it gives for each key the one place where a constant with that key
stands. Adding a constant keeps what the pool holds and answers the place of a constant with the
same key; a hash is found as it was added, a literal as an equal literal.
-/

namespace StackCode

open Constant

variable {c : Constant} {l l' : Literal} {i k : Nat} {t : TypeHash}

/-- The literal is a floating-point number. -/
def Literal.IsFloat (l : Literal) : Prop := ∃ k v, l = .float k v

namespace Constant

theorem sort_key_literal (l : Literal) : (literal l).key.sort < 8 := by
  cases l with
  | int k v => cases k <;> simp [key, intKey, Key.sort, IntKind.signed]
  | float k v => cases k <;> simp [key, floatKey, Key.sort]
  | _ => simp [key, Key.sort]

theorem eq_hash_of_key {h : TypeHash} (hkey : c.key = (hash h).key) : c = .hash h := by
  cases c with
  | literal l =>
    have hsort := sort_key_literal l
    rw [hkey] at hsort
    simp [key, Key.sort] at hsort
  | hash h' => rw [Key.hash.inj hkey]

theorem eq_literal_of_key (hkey : c.key = (literal l).key) : ∃ l', c = .literal l' := by
  cases c with
  | literal l' => exact ⟨l', rfl⟩
  | hash h =>
    have hsort := sort_key_literal l
    rw [← hkey] at hsort
    simp [key, Key.sort] at hsort

/-- Integers with one key are of one kind and stand for one number. -/
theorem intKey_inj {k k' : IntKind} {v : BitVec k.width} {v' : BitVec k'.width}
    (h : intKey k v = intKey k' v') : Literal.int k v = .int k' v' := by
  have hkind : k = k' := by
    have hsort := congrArg Key.sort h
    have hwidth := congrArg Key.width h
    cases k <;> cases k' <;> cases hsort <;> cases hwidth <;> rfl
  subst hkind
  have hnumber := congrArg Key.number h
  have hv : v = v' := by
    cases k with
    | char | uint8 | uint16 | uint32 | uint64 | nuint =>
      exact BitVec.eq_of_toNat_eq (Int.ofNat.inj hnumber)
    | int8 | int16 | int32 | int64 | nint => exact BitVec.eq_of_toInt_eq hnumber
  rw [hv]

/-- Only floating-point numbers have the key of another literal. -/
theorem eq_of_key (hl : ¬l.IsFloat) (hkey : (literal l').key = (literal l).key) : l' = l := by
  have hsort := congrArg Key.sort hkey
  cases l with
  | float k v => exact absurd ⟨k, v, rfl⟩ hl
  | null =>
    cases l' with
    | null => rfl
    | int k v => cases k <;> cases hsort
    | float k v => cases k <;> cases hsort
    | bool | str => cases hsort
  | bool b =>
    cases l' with
    | bool b' => rw [Key.bool.inj hkey]
    | int k v => cases k <;> cases hsort
    | float k v => cases k <;> cases hsort
    | null | str => cases hsort
  | int k v =>
    cases l' with
    | int k' v' => exact intKey_inj hkey
    | float k' v' => cases k <;> cases k' <;> cases hsort
    | null | bool | str => cases k <;> cases hsort
  | str text =>
    cases l' with
    | str text' => rw [Key.str.inj hkey]
    | int k v => cases k <;> cases hsort
    | float k v => cases k <;> cases hsort
    | null | bool => cases hsort

theorem floatKey_inj {k k' : FloatKind} {n n' : Nat} (h : floatKey k n = floatKey k' n') :
    k = k' ∧ n = n' := by
  cases k <;> cases k' <;> cases h <;> exact ⟨rfl, rfl⟩

theorem typeHash_of_key (hkey : (literal l').key = (literal l).key) : l'.typeHash = l.typeHash := by
  by_cases hl : l.IsFloat
  · by_cases hl' : l'.IsFloat
    · obtain ⟨k, v, rfl⟩ := hl
      obtain ⟨k', v', rfl⟩ := hl'
      obtain ⟨rfl, -⟩ := floatKey_inj hkey
      rfl
    · rw [eq_of_key hl' hkey.symm]
  · rw [eq_of_key hl hkey]

end Constant

namespace Pool

variable {p q : Pool}

/-- The index gives for each key the place of the constant that has it. -/
def Valid (p : Pool) : Prop := ∀ (k : Constant.Key) (i : Nat),
    p.index[k]? = some i ↔ ∃ c : Constant, p.constants[i]? = some c ∧ c.key = k

/-- The constants of a pool are the first constants of another. -/
def Extends (p q : Pool) : Prop := p.constants.toList <+: q.constants.toList

theorem Extends.refl (p : Pool) : p.Extends p := List.prefix_refl _

theorem Extends.trans {s : Pool} (h : p.Extends q) (h' : q.Extends s) : p.Extends s :=
  List.IsPrefix.trans h h'

theorem Extends.get? (h : p.Extends q) (hc : p.get? i = some c) : q.get? i = some c := by
  obtain ⟨rest, hrest⟩ := h
  rw [Pool.get?, ← Array.getElem?_toList] at hc ⊢
  rw [← hrest]
  exact List.getElem?_append_left (List.getElem?_eq_some_iff.mp hc).1 ▸ hc

theorem Extends.literal? (h : p.Extends q) (hl : p.literal? i = some l) :
    q.literal? i = some l := by
  unfold Pool.literal? at hl ⊢
  split at hl
  · rename_i l' hget
    rwa [h.get? hget]
  · cases hl

theorem Extends.typeHash? (h : p.Extends q) (ht : p.typeHash? i = some t) :
    q.typeHash? i = some t := by
  unfold Pool.typeHash? at ht ⊢
  split at ht
  · rename_i t' hget
    rwa [h.get? hget]
  · cases ht

theorem valid_empty : Valid empty := by
  intro k i
  simp [empty]

/-- A constant with the key of this one stands at a place. -/
def Has (p : Pool) (c : Constant) (k : Nat) : Prop := ∃ c', p.get? k = some c' ∧ c'.key = c.key

theorem Has.mono (h : p.Has c k) (hpq : p.Extends q) : q.Has c k := by
  obtain ⟨c', hget, hkey⟩ := h
  exact ⟨c', hpq.get? hget, hkey⟩

theorem Has.typeHash? (h : p.Has (.hash t) k) : p.typeHash? k = some t := by
  obtain ⟨c', hget, hkey⟩ := h
  rw [eq_hash_of_key hkey] at hget
  simp [Pool.typeHash?, hget]

theorem Has.literal? (h : p.Has (.literal l) k) :
    ∃ l', p.literal? k = some l' ∧ (literal l').key = (literal l).key := by
  obtain ⟨c', hget, hkey⟩ := h
  obtain ⟨l', rfl⟩ := eq_literal_of_key hkey
  exact ⟨l', by simp [Pool.literal?, hget], hkey⟩

/-- What adding a constant does: the pool stays valid and keeps its constants, and the place that is
answered holds a constant with the same key. -/
theorem Valid.add (h : p.Valid) (c : Constant) :
    (p.add c).2.Valid ∧ p.Extends (p.add c).2 ∧ (p.add c).2.Has c (p.add c).1 := by
  unfold Pool.add
  cases hfound : p.index[c.key]? with
  | some i => exact ⟨h, .refl p, (h c.key i).mp hfound⟩
  | none =>
    have hnew : ∀ (i : Nat) (c' : Constant), p.constants[i]? = some c' → c'.key ≠ c.key := by
      intro i c' hc' hkey
      have := (h c.key i).mpr ⟨c', hc', hkey⟩
      rw [hfound] at this
      cases this
    refine ⟨?_, ?_, c, ?_, rfl⟩
    · intro k i
      simp only [Std.TreeMap.getElem?_insert, Array.getElem?_push,
        Std.LawfulEqOrd.compare_eq_iff_eq]
      by_cases hk : c.key = k
      · subst hk
        simp only [if_true, Option.some.injEq]
        constructor
        · rintro rfl
          exact ⟨c, by simp, rfl⟩
        · rintro ⟨c', hc', hkey⟩
          split at hc'
          · rename_i hi
            exact hi.symm
          · exact absurd hkey (hnew i c' hc')
      · rw [if_neg hk, h k i]
        refine exists_congr fun c' => ?_
        constructor
        · rintro ⟨hc', hkey⟩
          have hlt := (Array.getElem?_eq_some_iff.mp hc').1
          exact ⟨by rw [if_neg (by omega)]; exact hc', hkey⟩
        · rintro ⟨hc', hkey⟩
          split at hc'
          · cases hc'
            exact absurd hkey hk
          · exact ⟨hc', hkey⟩
    · simp [Extends]
    · simp [Pool.get?]

end Pool

end StackCode
