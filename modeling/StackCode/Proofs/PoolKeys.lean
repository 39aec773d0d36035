import Mathlib.Data.Finset.Card
import StackCode.Proofs.Literals

/-!
# Constants keep their indexes

A constant that is added to a pool gets the index of the first constant that is the same, or the
next free one. Whatever is added later, that index stands for that first constant. Floating-point
numbers are the same if they are equal as numbers or both NaNs, and everything else if it is
identical.
-/

namespace StackCode

open List FloatKind Constant

namespace FloatKind

variable {k : FloatKind} {v w : BitVec k.width}

theorem eq_of_rank (h : k.rank v = k.rank w) : v = w ∨ k.magnitude v = 0 ∧ k.magnitude w = 0 := by
  have hv := v.isLt
  have hw := w.isLt
  rw [← BitVec.toNat_inj]
  simp only [rank, negative, decide_eq_true_eq] at h
  split at h <;> split at h <;> cases k <;> simp only [magnitude, signWeight, width] at * <;> omega

theorem rank_of_magnitude (h : k.magnitude v = 0) : k.rank v = 0 := by
  simp [rank, h]

theorem isNaN_of_magnitude (h : k.magnitude v = 0) : k.isNaN v = false := by
  simp [isNaN, h]

theorem equal_iff : k.equal v w ↔ k.isNaN v = false ∧ k.isNaN w = false ∧ k.rank v = k.rank w := by
  unfold equal order
  cases k.isNaN v <;> cases k.isNaN w <;> simp

end FloatKind

namespace Constant

/-- Constants that are the same: numbers of one floating-point type are compared as numbers, and all
NaNs of one type are the same. -/
inductive Same : Constant → Constant → Prop
  | refl (c : Constant) : Same c c
  | number {k : FloatKind} {v w : BitVec k.width} (h : k.equal v w) :
      Same (.literal (.float k v)) (.literal (.float k w))
  | nan {k : FloatKind} {v w : BitVec k.width} (hv : k.isNaN v) (hw : k.isNaN w) :
      Same (.literal (.float k v)) (.literal (.float k w))

/-- Keys are equal exactly for constants that are the same. -/
theorem key_eq_iff {c c' : Constant} : c.key = c'.key ↔ c.Same c' := by
  constructor
  · intro h
    cases c' with
    | hash t =>
      rw [eq_hash_of_key h]
      exact .refl _
    | literal l =>
      obtain ⟨l', rfl⟩ := eq_literal_of_key h
      rcases eq_or_merged_of_key h with rfl | hmerged
      · exact .refl _
      cases hmerged with
      | zero hv hw =>
        refine .number (equal_iff.mpr ⟨isNaN_of_magnitude hv, isNaN_of_magnitude hw, ?_⟩)
        rw [rank_of_magnitude hv, rank_of_magnitude hw]
      | nan hv hw => exact .nan hv hw
  · intro h
    cases h with
    | refl => rfl
    | @number k v w h =>
      obtain ⟨hv, hw, hrank⟩ := equal_iff.mp h
      rcases eq_of_rank hrank with rfl | ⟨hv0, hw0⟩
      · rfl
      · simp [key, canonical, hv, hw, hv0, hw0]
    | nan hv hw => simp [key, canonical, hv, hw]

end Constant

namespace Pool

variable {p : Pool} {c : Constant} {cs : List Constant} {i j : Nat}

theorem Valid.unique (h : p.Valid) (hi : p.Has c i) (hj : p.Has c j) : i = j :=
  Option.some.inj (((h c.key i).mpr hi).symm.trans ((h c.key j).mpr hj))

/-- A pool has the first of the constants that are the same, and no others. -/
structure Gathers (p : Pool) (cs : List Constant) : Prop where
  valid : p.Valid
  known : ∀ c ∈ cs, ∃ i, p.Has c i
  first : ∀ i c, p.get? i = some c → cs.find? (fun d => d.key = c.key) = some c
  size : p.size = (cs.map Constant.key).toFinset.card

theorem gathers_empty : empty.Gathers [] where
  valid := valid_empty
  known := by simp
  first i c h := by simp [get?, empty] at h
  size := rfl

/-- A constant that is the same as another one is found; otherwise there is one more constant. -/
theorem Gathers.add (h : p.Gathers cs) (c : Constant) : (p.add c).2.Gathers (cs ++ [c]) ∧
    ((∀ d ∈ cs, d.key ≠ c.key) → (p.add c).1 = (cs.map key).toFinset.card) := by
  obtain ⟨hvalid, hext, hhas⟩ := h.valid.add c
  have hknown : ∀ d ∈ cs ++ [c], ∃ i, (p.add c).2.Has d i := by
    intro d hd
    rcases mem_append.mp hd with hd | hd
    · obtain ⟨i, hi⟩ := h.known d hd
      exact ⟨i, hi.mono hext⟩
    · rw [mem_singleton.mp hd]
      exact ⟨_, hhas⟩
  unfold Pool.add at hvalid hknown ⊢
  cases hfound : p.index[c.key]? with
  | some i =>
    rw [hfound] at hvalid hknown
    obtain ⟨d, hd, hkey⟩ := (h.valid c.key i).mp hfound
    have hmem : d ∈ cs := mem_of_find?_eq_some (h.first i d hd)
    refine ⟨⟨hvalid, hknown, fun j e he => ?_, ?_⟩, fun hnew => absurd hkey (hnew d hmem)⟩
    · rw [find?_append, h.first j e he]
      rfl
    · have hkeys : c.key ∈ (cs.map key).toFinset := by
        rw [mem_toFinset, ← hkey]
        exact mem_map_of_mem hmem
      rw [map_append, toFinset_append, Finset.union_eq_left.mpr (by simpa using hkeys)]
      exact h.size
  | none =>
    rw [hfound] at hvalid hknown
    have hnew : ∀ d ∈ cs, d.key ≠ c.key := by
      intro d hd hkey
      obtain ⟨i, hi⟩ := h.known d hd
      have hidx := (h.valid d.key i).mpr hi
      rw [hkey, hfound] at hidx
      cases hidx
    refine ⟨⟨hvalid, hknown, fun j e he => ?_, ?_⟩, fun _ => h.size⟩
    · rw [get?, Array.getElem?_push] at he
      split at he
      · cases he
        rw [find?_append, find?_eq_none.mpr (by simpa using hnew)]
        simp
      · rw [find?_append, h.first j e he]
        rfl
    · have hkeys : c.key ∉ (cs.map key).toFinset := by simpa using hnew
      have hsize : p.constants.size = (cs.map key).toFinset.card := h.size
      rw [map_append, toFinset_append, Finset.union_comm]
      show (p.constants.push c).size = (insert c.key (cs.map key).toFinset).card
      rw [Finset.card_insert_of_notMem hkeys, Array.size_push, hsize]

theorem ofList_append (cs more : List Constant) :
    ofList (cs ++ more) = more.foldl (fun p c => (p.add c).2) (ofList cs) := foldl_append

theorem ofList_concat (cs : List Constant) (c : Constant) :
    ofList (cs ++ [c]) = ((ofList cs).add c).2 :=
  ofList_append cs [c]

theorem gathers_ofList (cs : List Constant) : (ofList cs).Gathers cs := by
  induction cs using reverseRecOn with
  | nil => exact gathers_empty
  | append_singleton cs c ih =>
    rw [ofList_concat]
    exact (ih.add c).1

/-- Whatever is added later, a pool keeps its constants. -/
theorem extends_ofList (cs more : List Constant) : (ofList cs).Extends (ofList (cs ++ more)) := by
  induction more using reverseRecOn with
  | nil =>
    rw [append_nil]
    exact .refl _
  | append_singleton more c ih =>
    rw [← append_assoc, ofList_concat]
    exact ih.trans ((gathers_ofList _).valid.add c).2.1

theorem has_ofList (cs : List Constant) (c : Constant) (more : List Constant) :
    (ofList (cs ++ c :: more)).Has c ((ofList cs).add c).1 := by
  have hhas := ((gathers_ofList cs).valid.add c).2.2
  rw [← ofList_concat] at hhas
  rw [append_cons]
  exact hhas.mono (extends_ofList _ more)

/-- Constants are added one after the other. An index that was given stands for the first constant
with the key of the added one, whatever is added later. Two constants get one index if and only if
their keys are equal, which they are exactly for constants that are the same. A constant with a new
key gets as index the number of keys that were added before it, and the pool has as many constants
as keys were added. -/
theorem indexes_are_stable (cs : List Constant) : (∀ before c after, cs = before ++ c :: after →
      (ofList cs).get? ((ofList before).add c).1 = (before ++ [c]).find? (fun d => d.key = c.key) ∧
      ((before ++ [c]).find? (fun d => d.key = c.key)).isSome ∧
      ((∀ d ∈ before, d.key ≠ c.key) → ((ofList before).add c).1 =
        (before.map key).toFinset.card)) ∧
    (∀ before c between c' after, cs = before ++ c :: (between ++ c' :: after) →
      (((ofList before).add c).1 = ((ofList (before ++ c :: between)).add c').1 ↔ c.key = c'.key)) ∧
    (∀ c c' : Constant, c.key = c'.key ↔ c.Same c') ∧
    (ofList cs).size = (cs.map key).toFinset.card := by
  refine ⟨?_, ?_, fun c c' => key_eq_iff, (gathers_ofList cs).size⟩
  · rintro before c after rfl
    have hsome : ((before ++ [c]).find? fun d => d.key = c.key).isSome := by simp
    refine ⟨?_, hsome, ((gathers_ofList before).add c).2⟩
    obtain ⟨d, hd, hkey⟩ := has_ofList before c after
    have hfirst := (gathers_ofList _).first _ d hd
    obtain ⟨e, he⟩ := Option.isSome_iff_exists.mp hsome
    rw [hkey, append_cons, find?_append, he] at hfirst
    rw [hd, he]
    exact hfirst.symm
  · rintro before c between c' after rfl
    have hc := has_ofList before c (between ++ c' :: after)
    have hc' := has_ofList (before ++ c :: between) c' after
    rw [append_assoc, cons_append] at hc'
    constructor
    · intro heq
      obtain ⟨d, hd, hkey⟩ := hc
      obtain ⟨d', hd', hkey'⟩ := hc'
      rw [← heq, hd] at hd'
      cases hd'
      exact hkey.symm.trans hkey'
    · intro hkey
      unfold Has at hc
      rw [hkey] at hc
      exact (gathers_ofList _).valid.unique hc hc'

end Pool

end StackCode
