import StackCode.Proofs.Resting

/-!
# Bounds of arrays

An array has as many elements as it was allocated with. An access to one of them finds it through an
address, and an address has 16 bits for the index of a member: an element behind the first 65536 is
out of reach, whatever the length of the array.
-/

namespace StackCode

variable {id : ObjectId} {type : TypeHash} {items : List Value} {index n : BitVec 32}

namespace Heap

/-- The indices of the elements that have an address, in an array of some length. -/
def Reachable (index : BitVec 32) (length : Nat) : Prop :=
  0 ≤ index.toInt ∧ index.toInt < length ∧ index.toInt < 65536

instance (index : BitVec 32) (length : Nat) : Decidable (Reachable index length) :=
  inferInstanceAs (Decidable (_ ∧ _ ∧ _))

theorem toNat_of_toInt_nonneg (hn : 0 ≤ n.toInt) : n.toNat = n.toInt.toNat := by
  rw [BitVec.toInt_eq_toNat_cond] at hn ⊢
  split <;> omega

theorem elementAddress_eq {heap : Heap} (harray : heap.get id = .ok ⟨type, .aggregate items⟩)
    (index : BitVec 32) :
    heap.elementAddress (.ref id) (.lit (.int .int32 index)) =
      if Reachable index items.length then .ok ⟨.heap id, [UInt16.ofNat index.toInt.toNat]⟩
      else .error (.indexOutOfBounds index.toInt items.length) := by
  have hlen : heap.arrayLength id = .ok items.length := by
    rw [arrayLength, harray]
    rfl
  have hcheck : heap.elementAddress (.ref id) (.lit (.int .int32 index)) =
      if 0 ≤ index.toInt ∧ index.toInt < 65536 ∧ index.toInt < items.length then
        pure ((Address.ofRoot (.heap id)).member (UInt16.ofNat index.toNat))
      else throw (.indexOutOfBounds index.toInt items.length) := by
    show (heap.arrayLength id >>= _) = _
    rw [hlen]
    rfl
  rw [hcheck]
  by_cases hin : Reachable index items.length
  · rw [if_pos ⟨hin.1, hin.2.2, hin.2.1⟩, if_pos hin, toNat_of_toInt_nonneg hin.1]
    rfl
  · rw [if_neg fun h => hin ⟨h.1, h.2.2, h.2.1⟩, if_neg hin]
    rfl

/-- The number in the address of an element is the element's index. -/
theorem Reachable.getElem? (h : Reachable index items.length) :
    (UInt16.ofNat index.toInt.toNat).toNat = index.toInt.toNat ∧
      items[index.toInt.toNat]? = some (items.getD index.toInt.toNat .void) := by
  obtain ⟨hlow, hlen, hhigh⟩ := h
  refine ⟨Nat.mod_eq_of_lt (by omega), ?_⟩
  rw [List.getD_eq_getElem?_getD, List.getElem?_eq_getElem (by omega), Option.getD_some]

end Heap

/-- The state after an access to the element with an index: the element is pushed, it is replaced by
a value, or its address is pushed. -/
def State.accessed (s : State) (id : ObjectId) (items : List Value) (n : Nat) (v : Value) :
    Access → State
  | .get => s.pushed [items.getD n .void]
  | .set => { s with heap := s.heap.setValue id (.aggregate (items.set n v)) }
  | .address => s.pushed [.address ⟨.heap id, [UInt16.ofNat n]⟩]

namespace Exec

open Heap (Reachable)

variable {p : Program} {s : State} {f : Frame} {rest : List Frame} {i : Instr} {vs : List Value}

/-! ### Elements as places -/

section Places

variable (harray : s.heap.get id = .ok ⟨type, .aggregate items⟩)
  (hindex : Reachable index items.length)
include harray hindex

theorem exec_fetch_element : (fetch ⟨.heap id, [UInt16.ofNat index.toInt.toNat]⟩).exec p s =
    (.ok (items.getD index.toInt.toNat .void), s) := by
  have hroot : s.root p.registry (.heap id) = .ok (.aggregate items) := by
    rw [State.root, harray]
    rfl
  obtain ⟨hn, hitem⟩ := hindex.getElem?
  rw [exec_fetch]
  rw [State.materialize_of_root hroot, hroot]
  show ((Value.aggregate items).follow [UInt16.ofNat index.toInt.toNat], s) = _
  rw [Value.follow, Value.member, hn, hitem]
  rfl

theorem exec_store_element (v : Value) :
    (store ⟨.heap id, [UInt16.ofNat index.toInt.toNat]⟩ v).exec p s = (.ok (), { s with
      heap := s.heap.setValue id (.aggregate (items.set index.toInt.toNat v)) }) := by
  have hroot : s.root p.registry (.heap id) = .ok (.aggregate items) := by
    rw [State.root, harray]
    rfl
  obtain ⟨hn, hitem⟩ := hindex.getElem?
  have hreplace : Value.replace v (.aggregate items) [UInt16.ofNat index.toInt.toNat] =
      .ok (.aggregate (items.set index.toInt.toNat v)) := by
    rw [Value.replace, Value.member, hn, hitem]
    show Except.ok (Value.aggregate (items.set (UInt16.ofNat index.toInt.toNat).toNat v)) = _
    rw [hn]
  rw [store, exec_bind, exec_readRoot]
  rw [State.materialize_of_root hroot, hroot]
  dsimp only
  rw [hreplace]
  rfl

theorem exec_perform_onPlace (v : Value) (a : Access) :
    (a.onPlace ⟨.heap id, [UInt16.ofNat index.toInt.toNat]⟩ v).perform.exec p s =
      (.ok (), s.accessed id items index.toInt.toNat v a) := by
  cases a with
  | get => exact exec_bind_of_ok (exec_fetch_element harray hindex)
  | set => exact exec_store_element harray hindex v
  | address => rfl

end Places

/-! ### Steps -/

/-- An array is allocated with as many elements as were asked for. -/
theorem exec_step_of_newArray (hs : s.frames = f :: rest)
    (hfetch : f.method.fetch? f.offset = some i)
    (hop : i.op = .newArray) {element : TypeHash}
    (helem : f.method.constants.typeHash? i.operand = some element) (hn : 0 ≤ n.toInt)
    (hstack : f.stack = .lit (.int .int32 n) :: vs) :
    step.exec p s = (.ok .running, { s.moved (.ref ⟨s.heap.size⟩ :: vs) i.next with
      heap := (s.heap.alloc (.arrayOf element)
        (.aggregate (List.replicate n.toInt.toNat (p.registry.defaultValue element)))).2 }) := by
  have hoperand : f.stack = [.lit (.int .int32 n)] ++ vs := hstack
  have helements : p.registry.elements element (.lit (.int .int32 n)) =
      .ok (List.replicate n.toInt.toNat (p.registry.defaultValue element)) := by
    rw [← Heap.toNat_of_toInt_nonneg hn]
    exact if_neg (Int.not_lt.mpr hn)
  refine (step_iff_perform hs hfetch (by simp [hop]) (by simp [hop]) hoperand
    (by simp [Instr.pops, hop])).mpr ⟨.alloc (.arrayOf element) (.aggregate
      (List.replicate n.toInt.toNat (p.registry.defaultValue element))), ?_, ?_⟩
  · simp only [Instr.action, hop, Method.hashAt, helem]
    show (p.registry.elements element (.lit (.int .int32 n)) >>= _) = _
    rw [helements]
    rfl
  · rw [s.moved_eq hs, s.moved_eq hs]
    rfl

/-- An access to an element pops its operands, finds the address of the element and is done
there. -/
theorem exec_step_of_element (hs : s.frames = f :: rest)
    (hfetch : f.method.fetch? f.offset = some i)
    {a : Access} (hop : i.op = .element a) {index array : Value} {us : List Value}
    (hus : us.length = a.pops) (hstack : f.stack = index :: array :: (us ++ vs)) :
    step.exec p s = (act (do
        let place ← s.heap.elementAddress array index
        return a.onPlace place (us.getD 0 .void)) >>= fun _ => pure Progress.running).exec p
      (s.moved vs i.next) := by
  rw [exec_step_of_effect hs hfetch (by simp [hop]) (by simp [hop]), s.moved_eq hs, s.moved_eq hs,
    hstack, exec_bind, exec_bind]
  -- An address of an element depends on the heap alone, which popping the operands leaves as it is.
  have hread : Reads p { s with frames := { f with stack := vs, offset := i.next } :: rest }
      (elementAddress array index) (s.heap.elementAddress array index) :=
        reads_elementAddress rfl ..
  have hreads : ∀ g : Address → Exec Unit, (elementAddress array index >>= g).exec p _ =
      (MonadExcept.ofExcept (s.heap.elementAddress array index) >>= g).exec p _ := fun g => by
    rw [exec_bind, exec_bind, hread, reads_ofExcept]
  congr 1
  unfold effect
  rw [hop]
  cases a with
  | get =>
    rw [List.length_eq_zero_iff.mp hus]
    refine (hreads _).trans ?_
    cases s.heap.elementAddress array index <;> rfl
  | set =>
    obtain ⟨v, rfl⟩ := List.length_eq_one_iff.mp hus
    refine (hreads _).trans ?_
    cases s.heap.elementAddress array index <;> rfl
  | address =>
    rw [List.length_eq_zero_iff.mp hus]
    refine (hreads _).trans ?_
    cases s.heap.elementAddress array index <;> rfl

/-- An array has the length that it was allocated with. An access to an element pops its operands;
it finds the element with its index and no other if that is reachable, and fails with the index and
the length of the array otherwise. The address of an element is good for that element alone. -/
theorem elements_are_bounds_checked (hs : s.frames = f :: rest)
    (hfetch : f.method.fetch? f.offset = some i) :
    (∀ element (n : BitVec 32), i.op = .newArray →
      f.method.constants.typeHash? i.operand = some element → 0 ≤ n.toInt →
      f.stack = .lit (.int .int32 n) :: vs →
      ∃ heap, step.exec p s =
          (.ok .running, { s.moved (.ref ⟨s.heap.size⟩ :: vs) i.next with heap := heap }) ∧
        heap.get ⟨s.heap.size⟩ = .ok ⟨.arrayOf element,
          .aggregate (List.replicate n.toInt.toNat (p.registry.defaultValue element))⟩) ∧
    (∀ a id type items (index : BitVec 32) us, i.op = .element a →
      s.heap.get id = .ok ⟨type, .aggregate items⟩ → us.length = a.pops →
      f.stack = .lit (.int .int32 index) :: .ref id :: (us ++ vs) →
      step.exec p s = if Reachable index items.length then
          (.ok .running,
            (s.moved vs i.next).accessed id items index.toInt.toNat (us.getD 0 .void) a)
        else (.error (.indexOutOfBounds index.toInt items.length), s.moved vs i.next)) ∧
    ∀ t id type items (index : BitVec 32) w, t.heap.get id = .ok ⟨type, .aggregate items⟩ →
      Reachable index items.length →
      (fetch ⟨.heap id, [UInt16.ofNat index.toInt.toNat]⟩).exec p t =
          (.ok (items.getD index.toInt.toNat .void), t) ∧
        (store ⟨.heap id, [UInt16.ofNat index.toInt.toNat]⟩ w).exec p t = (.ok (), { t with
          heap := t.heap.setValue id (.aggregate (items.set index.toInt.toNat w)) }) := by
  refine ⟨fun element n hop helement hn hstack => ?_, ?_, ?_⟩
  · exact ⟨_, exec_step_of_newArray hs hfetch hop helement hn hstack,
      by simp [Heap.get, Heap.alloc, Heap.size]⟩
  · intro a id type items index us hop harray hus hstack
    have harray' : (s.moved vs i.next).heap.get id = .ok ⟨type, .aggregate items⟩ := by
      rw [s.moved_eq hs]
      exact harray
    rw [exec_step_of_element hs hfetch hop hus hstack, Heap.elementAddress_eq harray]
    by_cases hindex : Reachable index items.length
    · rw [if_pos hindex, if_pos hindex]
      exact exec_bind_of_ok (exec_perform_onPlace harray' hindex _ a)
    · rw [if_neg hindex, if_neg hindex]
      rfl
  · intro t id type items index w harray hindex
    exact ⟨exec_fetch_element harray hindex, exec_store_element harray hindex w⟩

end Exec

/-! ### A body that reads an element -/

namespace Reading

open Exec

def method : Method := ⟨default, ⟨#[(Opcode.element .get).byte], #[1]⟩, default, #[]⟩

def frame (index : BitVec 32) : Frame :=
  ⟨method, #[], #[], [.lit (.int .int32 index), .ref ⟨0⟩], 0, .host⟩

/-- The body is about to read an element of an array. -/
def state (items : List Value) (index : BitVec 32) : State :=
  ⟨[frame index], ⟨#[⟨.arrayOf .int32, .aggregate items⟩]⟩, ∅, ∅⟩

theorem fetch?_method : method.fetch? 0 = some ⟨0, .element .get, 0, 0⟩ := by decide

theorem get_heap_state (items : List Value) (index : BitVec 32) :
    (state items index).heap.get ⟨0⟩ = .ok ⟨.arrayOf .int32, .aggregate items⟩ := rfl

theorem stack_frame (index : BitVec 32) :
    (frame index).stack = .lit (.int .int32 index) :: .ref ⟨0⟩ :: ([] ++ []) := rfl

/-- An element is read, and behind the end of the array there is none. -/
theorem third_element_is_read :
    step.exec default (state [.int32 3, .int32 5, .int32 7] 2) =
        (.ok .running, ((state [.int32 3, .int32 5, .int32 7] 2).moved [] 1).pushed [.int32 7]) ∧
      step.exec default (state [.int32 3, .int32 5, .int32 7] 3) =
        (.error (.indexOutOfBounds 3 3), (state [.int32 3, .int32 5, .int32 7] 3).moved [] 1) := by
  constructor
  · exact (elements_are_bounds_checked rfl fetch?_method).2.1 .get ⟨0⟩ _ _ 2 [] rfl
      (get_heap_state _ 2) rfl (stack_frame 2)
  · refine ((elements_are_bounds_checked rfl fetch?_method).2.1 .get ⟨0⟩ _ _ 3 [] rfl
      (get_heap_state _ 3) rfl (stack_frame 3)).trans ?_
    exact if_neg (by decide)

/-- The last element of an array of 65537 elements is out of reach. -/
theorem last_element_is_refused :
    (65536#32).toInt < (List.replicate 65537 (Value.int32 0)).length ∧
      step.exec default (state (List.replicate 65537 (.int32 0)) 65536) =
        (.error (.indexOutOfBounds 65536 65537),
          (state (List.replicate 65537 (.int32 0)) 65536).moved [] 1) := by
  have hstep := exec_step_of_element (p := default)
    (s := state (List.replicate 65537 (.int32 0)) 65536)
    rfl fetch?_method rfl rfl (stack_frame 65536)
  rw [Heap.elementAddress_eq (get_heap_state _ _), List.length_replicate] at hstep
  exact ⟨by rw [List.length_replicate]; decide, hstep⟩

end Reading

end StackCode
