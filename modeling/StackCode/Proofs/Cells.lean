import Mathlib.Logic.Function.Basic
import StackCode.Machine.Place

/-!
# Cells

The values of a state are in its cells: the slots of frames, static fields, objects and captured
values. What is found at a root is what its cell holds. Whatever is done to a state, a cell holds
what it held before or what was put there.
-/

namespace StackCode

open Option Root Std.TreeMap State

variable {f : Frame} {rest : List Frame}

/-! ### Frames -/

namespace State

variable {s : State} {n : Nat}

theorem mem_of_frame? (h : s.frame? n = some f) : f ∈ s.frames := by
  unfold frame? at h
  split at h
  · exact List.mem_of_getElem? h
  · cases h

theorem frame?_cons (s : State) (f : Frame) (n : Nat) :
    ({ s with frames := f :: s.frames } : State).frame? n =
      if n = s.depth then some f else s.frame? n := by
  have hdepth : ({ s with frames := f :: s.frames } : State).depth = s.depth + 1 := rfl
  by_cases hn : n = s.depth
  · rw [if_pos hn, frame?, hdepth, if_pos (by omega), hn]
    simp
  · rw [if_neg hn, frame?, frame?, hdepth]
    by_cases hlt : n < s.depth
    · rw [if_pos (by omega), if_pos hlt]
      have hidx : s.depth + 1 - 1 - n = s.depth - 1 - n + 1 := by omega
      rw [hidx, List.getElem?_cons_succ]
    · rw [if_neg (by omega), if_neg hlt]

theorem lt_of_frame? (h : s.frame? n = some f) : n < s.depth := by
  unfold frame? at h
  split at h
  · assumption
  · cases h

theorem frame?_top (hf : s.frames = f :: rest) : s.frame? rest.length = some f := by
  obtain ⟨frames, heap, statics, captured⟩ := s
  subst hf
  exact (frame?_cons ⟨rest, heap, statics, captured⟩ f _).trans (if_pos rfl)

theorem frame?_modifyFrame (s : State) (n m : Nat) (g : Frame → Frame) :
    (s.modifyFrame n g).frame? m = if m = n then (s.frame? m).map g else s.frame? m := by
  unfold modifyFrame
  by_cases hn : n < s.depth
  · rw [if_pos hn]
    have hdepth : depth { s with frames := s.frames.modify (s.depth - 1 - n) g } = s.depth :=
      List.length_modify ..
    simp only [frame?, hdepth]
    by_cases hm : m < s.depth
    · rw [if_pos hm, List.getElem?_modify]
      by_cases heq : m = n
      · subst heq
        simp [hm]
      · have hne : s.depth - 1 - n ≠ s.depth - 1 - m := by omega
        simp only [heq, hne, hm, if_true, if_false]
        exact id_map _
    · rw [if_neg hm]
      split <;> rfl
  · rw [if_neg hn]
    by_cases heq : m = n
    · subst heq
      rw [if_pos rfl, frame?, if_neg hn]
      rfl
    · rw [if_neg heq]

theorem storage_modifyFrame (s : State) (n : Nat) (g : Frame → Frame) :
    (s.modifyFrame n g).statics = s.statics ∧ (s.modifyFrame n g).heap = s.heap ∧
      (s.modifyFrame n g).captured = s.captured := by
  unfold modifyFrame
  split <;> exact ⟨rfl, rfl, rfl⟩

theorem modifyTop_eq (s : State) (g : Frame → Frame) :
    s.modifyTop g = s.modifyFrame (s.depth - 1) g := by
  obtain ⟨_ | ⟨f, rest⟩, heap, statics, captured⟩ := s
  · rfl
  · simp [modifyTop, modifyFrame, depth]

/-- The state with other contents of the innermost operand stack and another offset. -/
def moved (s : State) (vs : List Value) (n : Nat) : State :=
  s.modifyTop fun f => { f with stack := vs, offset := n }

/-- The state with more values on the innermost operand stack. -/
def pushed (s : State) (vs : List Value) : State :=
  s.modifyTop fun f => { f with stack := vs ++ f.stack }

theorem moved_eq (hs : s.frames = f :: rest) (vs : List Value) (n : Nat) :
    s.moved vs n = { s with frames := { f with stack := vs, offset := n } :: rest } := by
  unfold moved modifyTop
  rw [hs]

theorem frames_moved (hs : s.frames = f :: rest) (vs : List Value) (n : Nat) :
    (s.moved vs n).frames = { f with stack := vs, offset := n } :: rest := by
  rw [s.moved_eq hs]

theorem pushed_eq (hs : s.frames = f :: rest) (vs : List Value) :
    s.pushed vs = { s with frames := { f with stack := vs ++ f.stack } :: rest } := by
  unfold pushed modifyTop
  rw [hs]

theorem pushed_nil (s : State) : s.pushed [] = s := by
  obtain ⟨frames, heap, statics, captured⟩ := s
  cases frames <;> rfl

end State

/-! ### Cells -/

/-- A place that holds a value, like a root, with a number of any size. -/
inductive Cell
  | localSlot (frame slot : Nat)
  | argument (frame slot : Nat)
  | static (field : TypeHash)
  | object (id : ObjectId)
  | captured (owner : TypeHash) (index : Nat)

namespace Root

/-- The cell that a root names. -/
def cell : Root → Cell
  | .localSlot frame slot => .localSlot frame slot.toNat
  | .argument frame slot => .argument frame slot.toNat
  | .static field => .static field
  | .heap id => .object id
  | .captured owner index => .captured owner index.toNat

theorem cell_injective : Function.Injective cell := by
  intro a b h
  cases a <;> cases b <;> simp_all [cell, UInt16.toNat_inj]

/-- What a lookup says of a root whose cell holds something or nothing. -/
def read (r : Registry) : Root → Option Value → Except Fault Value
  | .static field, some v =>
    if (r.fieldByHash? field).isSome then .ok v else .error (.invalidAddress (.static field))
  | _, some v => .ok v
  | .heap id, none => .error (.danglingReference id)
  | root, none => .error (.invalidAddress root)

/-- What a cell holds after a value is put there. Only a static field need not have held one. -/
def put (v : Value) : Root → Option Value → Option Value
  | .static _, _ => some v
  | _, old => old.map fun _ => v

/-- What a root that holds nothing gets when it is looked up. -/
def default? (r : Registry) : Root → Option Value
  | .static field => (r.fieldByHash? field).map fun f => r.defaultValue f.type.hash
  | _ => none

end Root

namespace State

variable {r : Registry} {s : State} {c : Cell} {v w : Value} {root : Root}

/-- What a cell holds, if it is there. -/
def cell? (s : State) : Cell → Option Value
  | .localSlot frame slot => (s.frame? frame).bind fun f => f.locals[slot]?
  | .argument frame slot => (s.frame? frame).bind fun f => f.args[slot]?
  | .static field => s.statics[field]?
  | .object id => s.heap.objects[id.number]?.map HeapObject.value
  | .captured owner index => s.captured[owner]?.bind fun vs => vs[index]?

theorem root_eq (s : State) (root : Root) : s.root r root = root.read r (s.cell? root.cell) := by
  cases root with
  | localSlot frame slot =>
    simp only [root, cell?, cell, bind_eq_bind]
    cases (s.frame? frame).bind fun f => f.locals[slot.toNat]? <;> rfl
  | argument frame slot =>
    simp only [root, cell?, Root.cell, bind_eq_bind]
    cases (s.frame? frame).bind fun f => f.args[slot.toNat]? <;> rfl
  | static field =>
    simp only [root, cell?, cell]
    cases hf : r.fieldByHash? field <;> cases s.statics[field]? <;> simp [Root.read, hf]
  | heap id =>
    simp only [root, Heap.get, cell?, cell]
    cases s.heap.objects[id.number]? <;> rfl
  | captured owner index =>
    simp only [root, cell?, cell, bind_eq_bind]
    cases s.captured[owner]?.bind fun vs => vs[index.toNat]? <;> rfl

theorem cell?_of_root (h : s.root r root = .ok v) : s.cell? root.cell = some v := by
  rw [root_eq] at h
  cases hcell : s.cell? root.cell with
  | none =>
    rw [hcell] at h
    cases root <;> simp [Root.read] at h
  | some w =>
    rw [hcell] at h
    cases root with
    | static =>
      simp only [Root.read] at h
      split at h <;> cases h
      rfl
    | localSlot | argument | heap | captured =>
      cases h
      rfl

theorem getElem?_setIfInBounds_self (xs : Array Value) (n : Nat) :
    (xs.setIfInBounds n v)[n]? = xs[n]?.map fun _ => v := by
  rw [Array.getElem?_setIfInBounds_self]
  by_cases hn : n < xs.size <;> simp [hn]

theorem cell?_setRoot_self (s : State) (v : Value) (root : Root) :
    (s.setRoot v root).cell? root.cell = root.put v (s.cell? root.cell) := by
  cases root with
  | localSlot frame slot | argument frame slot =>
    simp only [cell?, setRoot, cell, put, frame?_modifyFrame, if_true]
    cases s.frame? frame <;> simp [getElem?_setIfInBounds_self]
  | static field => simp [cell?, setRoot, cell, put]
  | heap id =>
    simp only [cell?, setRoot, cell, put, Heap.setValue, Array.getElem?_modify, if_true]
    cases s.heap.objects[id.number]? <;> rfl
  | captured owner index =>
    simp only [cell?, setRoot, cell, put, getElem?_modify]
    cases s.captured[owner]? <;> simp [getElem?_setIfInBounds_self]

theorem cell?_setRoot_ne (s : State) (v : Value) (h : c ≠ root.cell) :
    (s.setRoot v root).cell? c = s.cell? c := by
  cases root with
  | localSlot frame slot | argument frame slot =>
    cases c with
    | localSlot frame' n | argument frame' n =>
      simp only [cell?, setRoot, frame?_modifyFrame]
      split
      · rename_i hframe
        cases s.frame? frame' <;> grind [cell]
      · rfl
    | static | object | captured => simp only [cell?, setRoot, storage_modifyFrame]
  | static field =>
    cases c with
    | static field' =>
      have hne : field ≠ field' := fun heq => h (by rw [heq]; rfl)
      simp [cell?, setRoot, getElem?_insert, hne]
    | localSlot | argument | object | captured => rfl
  | heap id =>
    cases c with
    | object id' =>
      have hne : id.number ≠ id'.number := fun heq => h (by cases id; cases id'; cases heq; rfl)
      simp [cell?, setRoot, Heap.setValue, Array.getElem?_modify, hne]
    | localSlot | argument | static | captured => rfl
  | captured owner index =>
    cases c with
    | captured owner' n =>
      simp only [cell?, setRoot, getElem?_modify, Std.LawfulEqCmp.compare_eq_iff_eq]
      split
      · rename_i howner
        subst howner
        have hidx : index.toNat ≠ n := fun hidx => h (by rw [← hidx]; rfl)
        cases s.captured[owner]? <;> simp [Array.getElem?_setIfInBounds_ne hidx]
      · rfl
    | localSlot | argument | static | object => rfl

theorem cell?_setRoot (h : (s.setRoot v root).cell? c = some w) :
    (c = root.cell ∧ w = v) ∨ s.cell? c = some w := by
  by_cases hc : c = root.cell
  · subst hc
    rw [cell?_setRoot_self] at h
    refine .inl ⟨rfl, ?_⟩
    cases root <;> simp_all [put]
  · exact .inr (cell?_setRoot_ne s v hc ▸ h)

theorem root_setRoot {old : Value} (h : s.root r root = .ok old) (v : Value) :
    (s.setRoot v root).root r root = .ok v := by
  have hcell := cell?_of_root h
  rw [root_eq, hcell] at h
  rw [root_eq, cell?_setRoot_self, hcell]
  cases root with
  | static =>
    simp only [Root.read] at h
    split at h <;> cases h
    exact if_pos ‹_›
  | localSlot | argument | heap | captured => rfl

theorem statics_setRoot (v : Value) (h : TypeHash) :
    (s.setRoot v root).statics[h]? = if root = .static h then some v else s.statics[h]? := by
  split
  · rename_i heq
    subst heq
    exact cell?_setRoot_self s v (.static h)
  · rename_i hne
    exact cell?_setRoot_ne s v (cell_injective.ne (Ne.symm hne) : cell (.static h) ≠ _)

/-! ### Changes of a state -/

theorem cell?_materialize_self (s : State) (root : Root) :
    (s.materialize r root).cell? root.cell = (s.cell? root.cell).or (root.default? r) := by
  cases root with
  | static field =>
    simp only [materialize, cell?, cell, default?]
    cases hold : s.statics[field]? <;> cases hf : r.fieldByHash? field <;> simp [hold]
  | localSlot | argument | heap | captured => exact (or_none ..).symm

theorem cell?_materialize_ne (s : State) (h : c ≠ root.cell) :
    (s.materialize r root).cell? c = s.cell? c := by
  cases root with
  | static field =>
    unfold materialize
    dsimp only
    split
    · cases c with
      | static field' =>
        have hne : field ≠ field' := fun heq => h (by rw [heq]; rfl)
        simp [cell?, getElem?_insert, hne]
      | localSlot | argument | object | captured => rfl
    · rfl
  | localSlot | argument | heap | captured => rfl

/-- Only a declared static field that was never touched gets a value, its default. -/
theorem cell?_materialize (h : (s.materialize r root).cell? c = some w) :
    s.cell? c = some w ∨ ∃ field f, c = .static field ∧ r.fieldByHash? field = some f ∧
      w = r.defaultValue f.type.hash := by
  by_cases hc : c = root.cell
  · subst hc
    rw [cell?_materialize_self, or_eq_some_iff] at h
    refine h.imp_right fun ⟨_, h⟩ => ?_
    cases root with
    | static field =>
      obtain ⟨f, hf, rfl⟩ := map_eq_some_iff.mp h
      exact ⟨field, f, rfl, hf, rfl⟩
    | localSlot | argument | heap | captured => cases h
  · exact .inl (cell?_materialize_ne s hc ▸ h)

theorem cell?_alloc {type : TypeHash}
    (h : ({ s with heap := (s.heap.alloc type v).2 } : State).cell? c = some w) :
    (c = .object (s.heap.alloc type v).1 ∧ w = v) ∨ s.cell? c = some w := by
  cases c with
  | object id =>
    simp only [cell?, Heap.alloc, Array.getElem?_push] at h
    obtain ⟨o, ho, rfl⟩ := map_eq_some_iff.mp h
    split at ho
    · rename_i hid
      cases ho
      refine .inl ⟨?_, rfl⟩
      cases id
      exact congrArg Cell.object (congrArg ObjectId.mk hid)
    · exact .inr (map_eq_some_iff.mpr ⟨o, ho, rfl⟩)
  | localSlot | argument | static | captured => exact .inr h

theorem cell?_cons (h : ({ s with frames := f :: s.frames } : State).cell? c = some w) :
    (∃ n, c = .localSlot s.depth n ∧ f.locals[n]? = some w) ∨
      (∃ n, c = .argument s.depth n ∧ f.args[n]? = some w) ∨ s.cell? c = some w := by
  cases c with
  | localSlot frame n =>
    simp only [cell?, frame?_cons] at h
    split at h
    · rename_i hframe
      exact .inl ⟨n, by rw [hframe], h⟩
    · exact .inr (.inr h)
  | argument frame n =>
    simp only [cell?, frame?_cons] at h
    split at h
    · rename_i hframe
      exact .inr (.inl ⟨n, by rw [hframe], h⟩)
    · exact .inr (.inr h)
  | static | object | captured => exact .inr (.inr h)

theorem cell?_tail (hs : s.frames = f :: rest)
    (h : ({ s with frames := rest } : State).cell? c = some w) : s.cell? c = some w := by
  obtain ⟨frames, heap, statics, captured⟩ := s
  subst hs
  have hcons := frame?_cons ⟨rest, heap, statics, captured⟩ f
  cases c with
  | localSlot frame n | argument frame n =>
    obtain ⟨g, hg, hw⟩ := bind_eq_some_iff.mp h
    have hne : frame ≠ rest.length := Nat.ne_of_lt (lt_of_frame? hg)
    exact bind_eq_some_iff.mpr ⟨g, (hcons frame).trans ((if_neg hne).trans hg), hw⟩
  | static | object | captured => exact h

theorem cell?_modifyTop {g : Frame → Frame} (hargs : ∀ f, (g f).args = f.args)
    (hlocs : ∀ f, (g f).locals = f.locals) : (s.modifyTop g).cell? c = s.cell? c := by
  rw [modifyTop_eq]
  cases c with
  | localSlot n k | argument n k =>
    simp only [cell?, frame?_modifyFrame]
    split
    · cases s.frame? n <;> simp [hargs, hlocs]
    · rfl
  | static | object | captured => simp only [cell?, storage_modifyFrame]

@[simp] theorem cell?_moved (vs : List Value) (n : Nat) : (s.moved vs n).cell? c = s.cell? c :=
  cell?_modifyTop (fun _ => rfl) fun _ => rfl

end State

end StackCode
