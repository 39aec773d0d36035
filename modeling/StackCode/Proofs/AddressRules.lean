import StackCode.Proofs.Obligations

/-!
# Where addresses may be

Statements leave addresses in few places. Operands and slots of by-reference types may be addresses;
a value, in a slot or on the heap or as a result, holds none of its own. What a value may hold is a
parameter here, for hosts that pass addresses inside of values. If values hold addresses of objects
at most, then every address that there is leads to a place that is there: a slot of the same frame
or of a frame further out, a declared static field, or an object.
-/

namespace StackCode

open Value

variable {path : List UInt16} {items : List Value} {new : Value}

/-- Instructions that name captured values. -/
def Opcode.isCapture : Opcode → Bool
  | .loadCaptured | .capturedAddress => true
  | _ => false

/-- Faults of places that are not there. -/
def Fault.Misses : Fault → Prop
  | .invalidAddress _ | .unknownField _ => True
  | _ => False

theorem Fault.misses_iff (e : Fault) : e.Misses ↔ e.kind = "InvalidAddress" := by
  cases e <;> simp [Misses, kind]

/-- Which roots values may hold, and whether places have to be there; then they are objects at
most. -/
structure Regime where
  free : Root → Prop
  strict : Prop
  heap : strict → ∀ root, free root → ∃ id, root = .heap id

namespace Regime

variable (G : Regime) (r : Registry)

/-- A value without `void` and with free addresses only. -/
structure Plain (v : Value) : Prop where
  clean : v.Clean
  within : v.Within G.free

/-- The place of a root is there. -/
def Stands (W : World) (root : Root) : Prop := G.strict → match root with
  | .localSlot k n => ∃ m, W.methods[k]? = some m ∧ n.toNat < m.locals.size
  | .argument k n => ∃ m, W.methods[k]? = some m ∧ n.toNat < m.function.stackArity
  | .static h => ∃ f, r.fieldByHash? h = some f
  | .heap _ => True
  | .captured _ _ => False

/-- What an operand of a kind is: a plain value, or perhaps nothing or an address. -/
def Means (W : World) : Kind → Value → Prop
  | .clean, v => G.Plain v
  | .loose, v => v = .void ∨ G.Plain v ∨ ∃ a, v = .address a ∧ G.Stands r W a.root

/-- What commands take and leave. Captured values may not be there. -/
def rules (m : Method) : StackRules Kind where
  le a b := a ≤ b
  refl := Kind.le_refl
  trans := Kind.le_trans
  effect x pops pushes :=
    (m.env r).effect? x = some (pops, pushes) ∧ (G.strict → x.op.isCapture = false)

/-- What a function may return: nothing if it has no result, a plain value otherwise. -/
def Returned (f : FunctionDecl) (v : Value) : Prop :=
  if f.returns.isVoid then v = .void else G.Plain v

variable {G r} {W W' : World} {k k' : Kind} {v w : Value}

theorem Plain.lit (l : Literal) : G.Plain (.lit l) := ⟨.lit l, .lit l⟩

theorem Plain.ref (id : ObjectId) : G.Plain (.ref id) := ⟨.ref id, .ref id⟩

theorem Plain.isVoid (h : G.Plain v) : v.isVoid = false := h.clean.isVoid

theorem Plain.item (h : G.Plain (.aggregate items)) : ∀ v ∈ items, G.Plain v := by
  intro v hv
  obtain ⟨hclean, hwithin⟩ := h
  cases hclean with
  | aggregate hitems => exact ⟨hitems v hv, hwithin.item v hv⟩

theorem Plain.aggregate (h : ∀ v ∈ items, G.Plain v) : G.Plain (.aggregate items) :=
  ⟨.aggregate fun v hv => (h v hv).clean, .aggregate fun v hv => (h v hv).within⟩

theorem Plain.follow (h : G.Plain v) (hw : v.follow path = .ok w) : G.Plain w :=
  ⟨fits_follow (k := .clean) h.clean hw, h.within.follow hw⟩

theorem Plain.replace (hnew : G.Plain new) (h : G.Plain v) (hw : replace new v path = .ok w) :
    G.Plain w :=
  ⟨clean_replace hnew.clean (.inr h.clean) hw, hnew.within.replace h.within hw⟩

theorem plain_of_literal (h : ∃ l, v = .lit l) : G.Plain v := by
  obtain ⟨l, rfl⟩ := h
  exact .lit l

theorem means_of_plain (h : G.Plain v) (k : Kind) : G.Means r W k v := by
  cases k with
  | clean => exact h
  | loose => exact .inr (.inl h)

theorem Means.mono (hk : k ≤ k') (h : G.Means r W k v) : G.Means r W k' v := by
  cases k' with
  | clean => exact hk rfl ▸ h
  | loose =>
    cases k with
    | clean => exact .inr (.inl h)
    | loose => exact h

theorem Stands.mono (hW : W.Below W') {root : Root} (h : G.Stands r W root) :
    G.Stands r W' root := by
  intro hstrict
  have h := h hstrict
  cases root with
  | localSlot k n | argument k n =>
    obtain ⟨m, hm, hn⟩ := h
    exact ⟨m, hW.method hm, hn⟩
  | static | heap | captured => exact h

theorem Means.below (hW : W.Below W') (h : G.Means r W k v) : G.Means r W' k v := by
  cases k with
  | clean => exact h
  | loose =>
    rcases h with rfl | h | ⟨a, rfl, ha⟩
    · exact .inl rfl
    · exact .inr (.inl h)
    · exact .inr (.inr ⟨a, rfl, ha.mono hW⟩)

theorem stands_heap (id : ObjectId) : G.Stands r W (.heap id) := fun _ => trivial

/-- What is an operand and an address leads to a place that is there. -/
theorem Means.stands {a : Address} (h : G.Means r W k (.address a)) : G.Stands r W a.root := by
  have hplain : G.Plain (.address a) → G.Stands r W a.root := by
    intro h hstrict
    obtain ⟨id, hid⟩ := G.heap hstrict _ h.within.root
    rw [hid]
    trivial
  cases k with
  | clean => exact hplain h
  | loose =>
    rcases h with h | h | ⟨b, hb, ha⟩
    · cases h
    · exact hplain h
    · cases hb
      exact ha

section

variable (h : G.Means r W k v)
include h

/-- What is neither nothing nor an address is a plain value. -/
theorem Means.plain (hvoid : v ≠ .void) (haddr : ∀ a, v ≠ .address a) : G.Plain v := by
  cases k with
  | clean => exact h
  | loose =>
    rcases h with h | h | ⟨a, ha, -⟩
    · exact absurd h hvoid
    · exact h
    · exact absurd ha (haddr a)

theorem Means.plain_of_member {index : UInt16} (hw : v.member index = .ok w) : G.Plain v := by
  obtain ⟨items, rfl, -⟩ := member_eq_ok hw
  exact h.plain (by simp) (by simp)

theorem Means.follow (hpath : path ≠ []) (hw : v.follow path = .ok w) : G.Plain w := by
  cases path with
  | nil => exact absurd rfl hpath
  | cons index path =>
    obtain ⟨item, hitem, -⟩ := follow_cons hw
    exact (h.plain_of_member hitem).follow hw

theorem Means.follow_means (hw : v.follow path = .ok w) : G.Means r W k w := by
  cases path with
  | nil =>
    cases hw
    exact h
  | cons index path => exact means_of_plain (h.follow (by simp) hw) k

end

/-- A plain value may replace any part of an operand. -/
theorem Means.replace (hnew : G.Plain new) (h : G.Means r W k v)
    (hw : replace new v path = .ok w) : G.Means r W k w := by
  cases path with
  | nil =>
    cases hw
    exact means_of_plain hnew k
  | cons index path =>
    obtain ⟨item, item', hitem, -, -⟩ := replace_cons hw
    exact means_of_plain (hnew.replace (h.plain_of_member hitem) hw) k

/-- The meaning of kinds, where nothing is known of objects. -/
def meaning (G : Regime) (r : Registry) : Meaning Kind where
  holdings _ _ := none
  rules := G.rules r
  Means := G.Means r
  localEntry m n := (m.env r).localKind n
  argumentEntry m n := (m.env r).argumentKind n
  Keeps _ _ v := G.Plain v
  results := FunctionDecl.resultKinds
  Returned _ f v := G.Returned f v
  Harmless e := G.strict → ¬e.Misses
  means_le h := Means.mono h
  means_below := Means.below
  keeps_grows _ h := h
  given {W f v} h := by
    unfold Returned at h
    unfold FunctionDecl.resultKinds
    split at h
    · rename_i hvoid
      rw [if_pos hvoid, h]
      exact .nil
    · rename_i hvoid
      rw [if_neg hvoid, if_neg (by simp [h.isVoid])]
      exact .cons (means_of_plain h _) .nil

end Regime

end StackCode
