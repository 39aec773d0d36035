import StackCode.Proofs.Obligations
import StackCode.Proofs.TypedSegments

/-!
# What typed operands mean

An operand of the type of a value fits this type. An operand of the type of a place is the address
of a place with exactly this type: a slot, a static field, a captured value or a cell, or something
below one of them, or something below a member of an instance. Such a place can be read and written
without anything losing its type.
-/

namespace StackCode

open HeapObject

namespace Schema

variable {r : Registry} (S : Schema r)

/-! ### Places -/

/-- The declared type of a root that can be addressed as a whole. -/
inductive RootType (W : World) : Root → TypeHash → Prop
  | localSlot {k slot m t} (hm : W.methods[k]? = some m) (ht : m.locals[slot.toNat]? = some t)
      (hplain : t.isByRef = false) : RootType W (.localSlot k slot) t.hash
  | argument {k slot m h} (hm : W.methods[k]? = some m)
      (hslot : (m.function.slotTypes r)[slot.toNat]? = some (.value h)) :
      RootType W (.argument k slot) h
  | static {hash f} (hf : r.fieldByHash? hash = some f) : RootType W (.static hash) f.type.hash
  | cell {id h} (hid : W.holdings id = some (.cell h)) : RootType W (.heap id) h
  | captured {owner index h} (hh : S.captured owner index = some h) : RootType W
    (.captured owner index) h

/-- The declared type of a place below a root, or below a member of an object. -/
inductive PlaceType (W : World) : Address → TypeHash → Prop
  | below {root h path t} (hroot : S.RootType W root h) (hpath : r.Path h path t) :
  PlaceType W ⟨root, path⟩ t
  | member {id k index u path t} (hid : W.holdings id = some k) (hmember : r.Member k.type index u)
      (hpath : r.Path u path t) : PlaceType W ⟨.heap id, index :: path⟩ t

/-- What a type says of an operand. An address may still be missing. -/
def Means (W : World) : OperandType → Value → Prop
  | .value h, v => r.Fits W.holdings h v
  | .place h, v => v = .void ∨ ∃ a, v = .address a ∧ S.PlaceType W a h

/-- What static fields, objects and captured values may hold. -/
def Keeps (H : Holdings) : Cell → Value → Prop
  | .localSlot _ _, _ | .argument _ _, _ => True
  | .static hash, v => ∀ f, r.fieldByHash? hash = some f → r.Fits H f.type.hash v
  | .object id, v => ∃ k, H id = some k ∧ r.Stored H k v
  | .captured owner n, v => ∀ h, S.captured owner (UInt16.ofNat n) = some h → r.Fits H h v

/-- What a function may return: nothing if it has no result, a value of its type otherwise. -/
def Returned (r : Registry) (H : Holdings) (f : FunctionDecl) (v : Value) : Prop :=
  if f.returns.isVoid then v = .void else r.Fits H f.returns.hash v

variable {S} {W W' : World} {root : Root} {a : Address} {h t : TypeHash} {v w new old : Value}

theorem RootType.mono (hW : W.Below W') (h' : S.RootType W root h) : S.RootType W' root h := by
  cases h' with
  | localSlot hm ht hplain => exact .localSlot (hW.method hm) ht hplain
  | argument hm hslot => exact .argument (hW.method hm) hslot
  | static hf => exact .static hf
  | cell hid => exact .cell (hW.holdings _ _ hid)
  | captured hh => exact .captured hh

theorem PlaceType.mono (hW : W.Below W') (h' : S.PlaceType W a t) : S.PlaceType W' a t := by
  cases h' with
  | below hroot hpath => exact .below (hroot.mono hW) hpath
  | member hid hmem hpath => exact .member (hW.holdings _ _ hid) hmem hpath

theorem PlaceType.snoc {index : UInt16} {u : TypeHash} (h' : S.PlaceType W a t)
    (hmem : r.Member t index u) : S.PlaceType W (a.member index) u := by
  cases h' with
  | below hroot hpath => exact .below hroot (hpath.snoc hmem)
  | member hid hfirst hpath => exact .member hid hfirst (hpath.snoc hmem)

/-! ### The meaning of types -/

/-- The type of a local slot of a method. -/
def localEntry (m : Method) (n : Nat) : OperandType :=
  (m.locals[n]?.map DataType.operandType).getD (.place .empty)

/-- The type of an argument slot of a method. -/
def argumentEntry (r : Registry) (m : Method) (n : Nat) : OperandType :=
  (m.function.slotTypes r)[n]?.getD (.place .empty)

theorem localEntry_of_some {m : Method} {n : Nat} {t : DataType} (ht : m.locals[n]? = some t) :
    localEntry m n = t.operandType := by
  rw [localEntry, ht]
  rfl

theorem argumentEntry_of_some {m : Method} {n : Nat} {k : OperandType}
    (hk : (m.function.slotTypes r)[n]? = some k) : argumentEntry r m n = k := by
  rw [argumentEntry, hk]
  rfl

theorem Means.le {k k' : OperandType} (hk : OperandType.Le r k k') (hv : S.Means W k v) :
    S.Means W k' v := by
  cases k with
  | value h =>
    cases k' with
    | value h' => exact Registry.Fits.upcast S.regular hv hk
    | place h' => exact hk.elim
  | place h =>
    cases k' with
    | value h' => exact hk.elim
    | place h' =>
      cases hk
      exact hv

theorem Means.mono {k : OperandType} (hW : W.Below W') (hv : S.Means W k v) : S.Means W' k v := by
  cases k with
  | value h => exact Registry.Fits.mono hW.holdings hv
  | place h =>
    rcases hv with rfl | ⟨a, rfl, ha⟩
    · exact .inl rfl
    · exact .inr ⟨a, rfl, ha.mono hW⟩

theorem Keeps.mono {H H' : Holdings} (hgrows : H.Grows H') {c : Cell} (hv : S.Keeps H c v) :
    S.Keeps H' c v := by
  cases c with
  | localSlot | argument => trivial
  | static hash => exact fun f hf => (hv f hf).mono hgrows
  | object id =>
    obtain ⟨k, hk, hv⟩ := hv
    exact ⟨k, hgrows id k hk, hv.mono hgrows⟩
  | captured owner n => exact fun h hh => (hv h hh).mono hgrows

variable (S)

/-- What operands of a type are, and which values cells may hold. -/
def meaning : Meaning OperandType where
  holdings := Heap.holdings r
  rules m := S.rules m.function m.locals
  Means := S.Means
  localEntry := localEntry
  argumentEntry := argumentEntry r
  Keeps := S.Keeps
  results := FunctionDecl.resultTypes
  Returned := Returned r
  Harmless _ := True
  means_le hk hv := Means.le hk hv
  means_below := Means.mono
  keeps_grows hgrows hv := Keeps.mono hgrows hv
  given {W f v} hv := by
    unfold Returned at hv
    unfold FunctionDecl.resultTypes
    split at hv
    · rename_i hvoid
      rw [if_pos hvoid, hv]
      exact .nil
    · rename_i hvoid
      have hne : v.isVoid = false := by
        have := hv.ne_void
        cases v <;> simp_all [Value.isVoid]
      rw [if_neg hvoid, hne]
      exact .cons hv .nil

variable {S}

/-! ### Reading and writing -/

/-- A root holds a value of its declared type, and may hold any. -/
theorem RootType.holds_iff (h' : S.RootType W root h) :
    S.meaning.Holds W v root.cell ↔ r.Fits W.holdings h v := by
  cases h' with
  | @localSlot k slot m t hm ht hplain =>
    have hent : localEntry m slot.toNat = .value t.hash := by
      rw [localEntry_of_some ht, DataType.operandType_of_plain hplain]
    constructor
    · rintro ⟨m', hm', hv⟩
      cases hm.symm.trans hm'
      have hv : S.Means (W.upto k) (localEntry m slot.toNat) v := hv
      rwa [hent] at hv
    · intro hv
      refine ⟨m, hm, ?_⟩
      show S.Means (W.upto k) (localEntry m slot.toNat) v
      rwa [hent]
  | @argument k slot m h hm hslot =>
    have hent := argumentEntry_of_some hslot
    constructor
    · rintro ⟨m', hm', hv⟩
      cases hm.symm.trans hm'
      have hv : S.Means (W.upto k) (argumentEntry r m slot.toNat) v := hv
      rwa [hent] at hv
    · intro hv
      refine ⟨m, hm, ?_⟩
      show S.Means (W.upto k) (argumentEntry r m slot.toNat) v
      rwa [hent]
  | static hf =>
    constructor
    · exact fun hv => hv _ hf
    · intro hv f hf'
      cases hf.symm.trans hf'
      exact hv
  | cell hid =>
    constructor
    · rintro ⟨k, hk, hv⟩
      cases hid.symm.trans hk
      exact hv
    · exact fun hv => ⟨_, hid, hv⟩
  | @captured owner index h hh =>
    have hidx : UInt16.ofNat index.toNat = index := UInt16.ofNat_toNat
    constructor
    · exact fun hv => hv h (by rw [hidx]; exact hh)
    · intro hv h' hh'
      rw [hidx, hh] at hh'
      cases hh'
      exact hv

theorem PlaceType.follow (h' : S.PlaceType W a t) (hv : S.meaning.Holds W v a.root.cell)
    (hw : v.follow a.path = .ok w) : r.Fits W.holdings t w := by
  cases h' with
  | below hroot hpath => exact (hroot.holds_iff.mp hv).follow hpath hw
  | member hid hmem hpath =>
    obtain ⟨k, hk, hv⟩ := hv
    cases hid.symm.trans hk
    obtain ⟨item, hitem, hw⟩ := Value.follow_cons hw
    exact (hv.member hmem hitem).follow hpath hw

/-- Objects stay what they are when one gets a value that it may hold. -/
theorem grows_setValue {heap : Heap} {id : ObjectId}
    (hv : ∀ o, heap.objects[id.number]? = some o → holding r ⟨o.type, v⟩ = o.holding r) :
    (heap.holdings r).Grows ((heap.setValue id v).holdings r) := by
  intro id' k hk
  obtain ⟨o, ho, rfl⟩ := Option.map_eq_some_iff.mp hk
  show ((heap.setValue id v).objects[id'.number]?).map _ = _
  unfold Heap.setValue
  dsimp only
  rw [Array.getElem?_modify, ho]
  split
  · rename_i hid
    rw [hid] at hv
    rw [Option.map_some, Option.map_some, hv o ho]
  · rfl

theorem grows_setRoot {s : State} (hroot : ∀ id, root ≠ .heap id) :
    (s.heap.holdings r).Grows ((s.setRoot v root).heap.holdings r) := by
  have hheap : (s.setRoot v root).heap = s.heap := by
    cases root with
    | localSlot | argument =>
      unfold State.setRoot State.modifyFrame
      dsimp only
      split <;> rfl
    | static | captured => rfl
    | heap id => exact absurd rfl (hroot id)
  rw [hheap]
  exact .refl _

/-- A value that fits a place can be put there. -/
theorem PlaceType.replace (h' : S.PlaceType W a t) (hnew : r.Fits W.holdings t new)
    (hold : S.meaning.Holds W old a.root.cell) (hv : Value.replace new old a.path = .ok v) :
    S.meaning.Holds W v a.root.cell ∧
      ∀ id, a.root = .heap id → ∀ o : HeapObject, W.holdings id = some (o.holding r) →
        holding r ⟨o.type, v⟩ = o.holding r := by
  cases h' with
  | @below root h path t hroot hpath =>
    have hfits : r.Fits W.holdings h v := (hroot.holds_iff.mp hold).replace S.regular hpath hnew hv
    refine ⟨hroot.holds_iff.mpr hfits, fun id hid o ho => ?_⟩
    have hid : root = .heap id := hid
    subst hid
    -- a root that can be addressed as a whole is a cell
    cases hroot with
    | cell hcell =>
      have hsame : Holding.cell h = o.holding r := Option.some.inj (hcell.symm.trans ho)
      have htype : h = o.type := by
        rw [← o.type_holding r, ← hsame]
        rfl
      rw [← hsame, ← htype]
      exact hfits.holding
  | @member id k index u path t hid hmem hpath =>
    obtain ⟨k', hk', hstored⟩ := hold
    cases hid.symm.trans hk'
    obtain ⟨item, item', hitem, hrepl, rfl⟩ := Value.replace_cons hv
    have hitem' := (hstored.member hmem hitem).replace S.regular hpath hnew hrepl
    cases k with
    | «instance» h =>
      have hcont : r.Content W.holdings h (old.setMember index item') :=
        Registry.Content.setMember S.regular hstored hmem hitem'
      refine ⟨⟨_, hid, hcont⟩, fun id' hid' o ho => ?_⟩
      cases hid'
      have hsame : Holding.instance h = o.holding r := Option.some.inj (hid.symm.trans ho)
      have hagg : (old.setMember index item').isAggregate = true := by
        rw [Value.isAggregate_setMember]
        exact Value.isAggregate_of_member hitem
      unfold holding at hsame ⊢
      split at hsame
      · rename_i hinst
        rw [if_pos (by simp [hagg, (Bool.and_eq_true_iff.mp hinst).1]), if_pos hinst]
      · cases hsame
    | cell h =>
      have hpath' : r.Path h (index :: path) t := .cons hmem hpath
      have hfits : r.Fits W.holdings h (old.setMember index item') :=
        Registry.Fits.replace S.regular hpath' hstored hnew hv
      refine ⟨⟨_, hid, hfits⟩, fun id' hid' o ho => ?_⟩
      cases hid'
      have hsame : Holding.cell h = o.holding r := Option.some.inj (hid.symm.trans ho)
      have htype : h = o.type := by
        rw [← o.type_holding r, ← hsame]
        rfl
      rw [← hsame, ← htype]
      exact hfits.holding

variable {p : Program} {s : State} {ks : List OperandType}

theorem replaces (h' : S.PlaceType (s.world S.meaning.holdings) a t)
    (hnew : r.Fits (s.heap.holdings r) t new) : S.meaning.Replaces p s a new := by
  refine ⟨fun _ _ => trivial, fun old v hold hv => ?_⟩
  obtain ⟨hholds, hkeeps⟩ := h'.replace hnew hold hv
  refine ⟨hholds, ?_⟩
  rcases a with ⟨root, path⟩
  cases root with
  | heap id =>
    refine grows_setValue fun o ho => hkeeps id rfl o ?_
    show (s.heap.objects[id.number]?).map _ = _
    rw [ho]
    rfl
  | localSlot | argument | static | captured => exact grows_setRoot (by simp)

/-! ### New objects -/

theorem holdings_alloc (r : Registry) (heap : Heap) (type : TypeHash) (v : Value) :
    (heap.holdings r).Grows ((heap.alloc type v).2.holdings r) ∧
      (heap.alloc type v).2.holdings r (heap.alloc type v).1 = some (holding r ⟨type, v⟩) := by
  refine ⟨fun id k hk => ?_, ?_⟩
  · obtain ⟨o, ho, rfl⟩ := Option.map_eq_some_iff.mp hk
    obtain ⟨hlt, -⟩ := Array.getElem?_eq_some_iff.mp ho
    show ((heap.objects.push ⟨type, v⟩)[id.number]?).map _ = _
    rw [Array.getElem?_push, if_neg (by omega), ho]
    rfl
  · show ((heap.objects.push ⟨type, v⟩)[heap.objects.size]?).map _ = _
    rw [Array.getElem?_push_size]
    rfl

theorem allocates {type : TypeHash} (hv : r.Stored (s.heap.holdings r) (holding r ⟨type, v⟩) v) :
    S.meaning.Allocates s type v := by
  obtain ⟨hgrows, hid⟩ := holdings_alloc r s.heap type v
  exact ⟨hgrows, _, hid, hv.mono hgrows⟩

end Schema

end StackCode
