import StackCode.Proofs.Crossing
import StackCode.Proofs.Refusals

/-!
# Places that code leads to

The code for the address of a symbol leads to the place of the symbol if it has one: a slot, an
object, a static field or a captured value, or whatever an address in a slot leads to. If it has
none, then its value is put in a temporary first, and the address is that of the temporary or of a
place inside.
-/

namespace StackCode

open Instr List Method Opcode StackCode.Symbol DataType Meaning.Rests Subset

variable {v : Value} {act : Action} {x : Symbol} {slot : UInt16} {T : Track} {s : State}
  {σ : List Value}
  {o o' : Nat} {ts : List Temporary} {xs : List Command}

/-- What an access does with a place: an action on it, with the value to be stored. -/
def Access.Does (a : Access) (place : Address) (v : Value) (act : Action) : Prop :=
  act = a.onPlace place v ∨ ∃ root, place = .ofRoot root ∧ act = a.onRoot root v

theorem Access.Does.address {place : Address} (h : Access.address.Does place v act) :
    act = .push [.address place] := by
  rcases h with rfl | ⟨root, rfl, rfl⟩ <;> rfl

namespace Instr

variable {p : Program} {m : Method} {i : Instr} {heap : Heap} {level : Nat} {us : List Value}
  {a : Access}

theorem action_local (h : (Command.onLocal a slot).Encoded m.constants i) :
    i.action p m heap level us = .ok (a.onRoot (.localSlot level slot) (us.getD 0 .void)) := by
  obtain ⟨hop, -, hmeans⟩ := h
  have hoperand : i.operand = slot.toNat := hmeans
  unfold action
  rw [hop, hoperand]
  simp [Command.onLocal, pure, Except.pure]

theorem action_argument (h : Command.Encoded m.constants ⟨.argument a, .slot slot⟩ i) :
    i.action p m heap level us = .ok (a.onRoot (.argument level slot) (us.getD 0 .void)) := by
  obtain ⟨hop, -, hmeans⟩ := h
  have hoperand : i.operand = slot.toNat := hmeans
  unfold action
  rw [hop, hoperand]
  simp [pure, Except.pure]

/-- What is not a slot of the frame or below an operand is no slot at all. -/
theorem does_lasting (h : i.action p m heap level us = .ok act)
    (hop : i.op = .staticField a ∨ i.op = .element a ∨ a = .address ∧ i.op = .capturedAddress) :
    ∃ place v, place.root.Lasting ∧ a.Does place v act := by
  unfold action at h
  rcases hop with hop | hop | ⟨rfl, hop⟩ <;> rw [hop] at h
  · obtain ⟨hash, -, h⟩ := bind_eq_ok h
    cases h
    exact ⟨.ofRoot (.static hash), _, rfl, .inr ⟨_, rfl, rfl⟩⟩
  · obtain ⟨place, hplace, h⟩ := bind_eq_ok h
    cases h
    obtain ⟨id, n, -, rfl⟩ := Heap.elementAddress_eq_ok hplace
    exact ⟨(Address.ofRoot (.heap id)).member n, _, rfl, .inl rfl⟩
  · obtain ⟨root, hroot, h⟩ := bind_eq_ok h
    cases h
    obtain ⟨owner, index, rfl⟩ := capturedAt_eq_ok hroot
    exact ⟨.ofRoot (.captured owner index), .void, rfl, .inr ⟨_, rfl, rfl⟩⟩

theorem does_field (ha : a ≠ .get) (hop : i.op = .field a)
    (h : i.action p m heap level (v :: us) = .ok act) : ∃ place w, a.Does place w act ∧
      ((∃ id, v = .ref id ∧ place.root = .heap id) ∨ ∃ b, v = .address b ∧
        place.root = b.root) := by
  unfold action at h
  rw [hop] at h
  obtain ⟨hash, -, h⟩ := bind_eq_ok h
  obtain ⟨index, -, h⟩ := bind_eq_ok h
  rcases Access.onField_eq_ok h with ⟨item, hget, -⟩ | ⟨place, hplace, rfl⟩
  · exact absurd hget ha
  · refine ⟨place, _, .inl rfl, ?_⟩
    rcases Value.memberAddress?_eq_ok hplace with ⟨id, hv, rfl⟩ | ⟨b, hv, rfl⟩
    · exact .inl ⟨id, hv, rfl⟩
    · exact .inr ⟨b, hv, rfl⟩

end Instr

/-- The slot in which the storage of a symbol is, if it is one, and what it holds lead to roots of a
sort. -/
def Symbol.Spared (n : Nat) (P : Root → Prop) (s : State) : Symbol → Prop
  | .localSlot _ slot _ =>
    P (.localSlot n slot) ∧ ∀ v, s.cell? (.localSlot n slot.toNat) = some v → v.Leads P
  | .argument _ slot _ =>
    P (.argument n slot) ∧ ∀ v, s.cell? (.argument n slot.toNat) = some v → v.Leads P
  | .field _ holder _ => holder.Spared n P s
  | _ => True

namespace Track

/-- The frame stands before the last instruction of some code, which accesses a place of the
sort. -/
def Before (T : Track) (a : Access) (σ : List Value) (o' : Nat) (u : State) : Prop :=
  ∃ o i us, T.Rests (us ++ σ) o u ∧ T.method.fetch? o = some i ∧ i.next = o' ∧ us.length = i.pops ∧
    i.op.stays ∧ ∀ act, i.action T.program T.method u.heap T.below.length us = .ok act →
      ∃ place v, T.roots place.root ∧ a.Does place v act

/-- The address of a symbol leads to roots of the sort, if it is that of storage. -/
def Addresses (T : Track) (x : Symbol) : Prop :=
  ∀ allow ts xs o o' s σ, T.Lays (.load x (.reference allow)) ts xs o o' →
    (x.dataType.isByRef ∨ x.inPlace T.setting.registry) → x.Spared T.below.length T.roots s →
      T.Rests σ o s →
      T.Via s fun u => ∃ v, T.Rests (v :: σ) o' u ∧ v.Leads T.roots

variable (hT : T.Proper)
include hT

theorem Proper.leads (h : Regime.lasting.Plain v) : v.Leads T.roots := by
  rintro a rfl
  exact hT.roots _ h.within.root

theorem Lays.via_target (h : T.Lays (.load x .callTarget) ts xs o o') (hx : T.Addresses x)
    (hplace : T.setting.registry.isValueType x.valueType.hash →
      x.inPlace T.setting.registry) (hspared : x.Spared T.below.length T.roots s)
        (hs : T.Rests σ o s) :
    T.Via s fun u => ∃ v, T.Rests (v :: σ) o' u ∧ v.Leads T.roots := by
  obtain ⟨hmade, hval⟩ := h.ready
  cases h.code with
  | target hload =>
    have hlays := h.sub hload (Piece.ready_load hmade hval) (refl _) h.carries (Nat.le_refl _)
    by_cases htype : T.setting.registry.isValueType x.valueType.hash
    · rw [if_pos htype] at hlays
      exact hx _ _ _ _ _ _ _ hlays (.inr (hplace htype)) hspared hs
    · rw [if_neg htype] at hlays
      refine (hlays.via_value hT hval hs).mono fun u hu => ?_
      obtain ⟨v, hu, hv⟩ := hu
      exact ⟨v, hu, hT.leads hv⟩

/-- The code of an access comes to its last instruction, and that one finds a place of the sort. -/
theorem Lays.via_before {a : Access} (ha : a ≠ .get) (h : T.Lays (.access x a) ts xs o o')
    (hplace : x.inPlace T.setting.registry) (hspared : x.Spared T.below.length T.roots s)
    (hhold : ∀ c holder f, x = .field c holder f → T.Addresses holder) {ws : List Value}
    (hws : ws.length = a.pops) (hs : T.Rests (ws ++ σ) o s) : T.Via s (T.Before a σ o') := by
  -- a single instruction is the last one
  have hsingle : ∀ {y : Command}, T.method.Carries o [y] o' → y.op.stays →
      (∀ i : Instr, i.op = y.op → a.pops = i.pops) →
      (∀ i act, y.Encoded T.method.constants i →
        i.action T.program T.method s.heap T.below.length ws = .ok act →
          ∃ place v, T.roots place.root ∧ a.Does place v act) → T.Via s (T.Before a σ o') := by
    intro y hcarry hstays hpops hdoes
    obtain ⟨i, hfetch, hx, hnext⟩ := hcarry.single
    exact .here ⟨o, i, ws, hs, hfetch, hnext, hws.trans (hpops i hx.1), hx.1 ▸ hstays,
      fun act hact => hdoes i act hx hact⟩
  have hready := h.ready
  cases hcode : h.code with
  | localSlot =>
    refine hsingle h.carries rfl (fun i hi => by rw [Instr.pops, hi]; rfl) fun i act hx hact => ?_
    rw [action_local hx] at hact
    cases hact
    exact ⟨.ofRoot (.localSlot T.below.length _), _, hspared.1, .inr ⟨_, rfl, rfl⟩⟩
  | argument =>
    refine hsingle h.carries rfl (fun i hi => by rw [Instr.pops, hi]) fun i act hx hact => ?_
    rw [action_argument hx] at hact
    cases hact
    exact ⟨.ofRoot (.argument T.below.length _), _, hspared.1, .inr ⟨_, rfl, rfl⟩⟩
  | staticField =>
    refine hsingle h.carries rfl (fun i hi => by rw [Instr.pops, hi]) fun i act hx hact => ?_
    obtain ⟨place, v, hroot, hdoes⟩ := does_lasting hact (.inl hx.1)
    exact ⟨place, v, hT.roots _ hroot, hdoes⟩
  | capturedAddress =>
    refine hsingle h.carries rfl (fun i hi => by rw [Instr.pops, hi]; rfl) fun i act hx hact => ?_
    obtain ⟨place, v, hroot, hdoes⟩ := does_lasting hact (.inr (.inr ⟨rfl, hx.1⟩))
    exact ⟨place, v, hT.roots _ hroot, hdoes⟩
  | @field c holder f _ _ xs' _ hload =>
    obtain ⟨o₁, hcarry, hlast⟩ := h.carries.split
    obtain ⟨i, hfetch, hx, rfl⟩ := hlast.single
    have hlays := h.sub hload (hready.part _) (refl _) hcarry (lt_next hfetch).le
    have hin : T.setting.registry.isValueType holder.valueType.hash →
      holder.inPlace T.setting.registry := by
      intro htype
      simpa [inPlace, htype] using hplace
    -- the field is where its instance is
    refine (hlays.via_target hT (hhold c holder f rfl) hin hspared hs).mono fun u hu => ?_
    obtain ⟨v, hu, hv⟩ := hu
    refine ⟨o₁, i, v :: ws, hu, hfetch, rfl, ?_, by rw [hx.1]; rfl, fun act hact => ?_⟩
    · rw [length_cons, hws, Instr.pops, hx.1]
    · obtain ⟨place, w, hdoes, ⟨id, -, hroot⟩ | ⟨b, rfl, hroot⟩⟩ := does_field ha hx.1 hact
      · exact ⟨place, w, hT.roots _ (by rw [hroot]; rfl), hdoes⟩
      · exact ⟨place, w, hroot ▸ hv b rfl, hdoes⟩
  | @element c array index t _ _ _ xs₁ xs₂ harray hidx =>
    -- whatever the array and the index are, an element is in an object
    obtain ⟨o₁, hcarry, hrest⟩ := h.carries.split
    obtain ⟨o₂, hcarry', hlast⟩ := hrest.split
    obtain ⟨i, hfetch, hx, rfl⟩ := hlast.single
    have hlt := lt_next hfetch
    have hle := hcarry'.le
    have hfirst := h.sub harray (hready.part _) (subset_append_left _ _) hcarry (by omega)
    have hsecond := h.sub hidx (hready.part _) (subset_append_right _ _) hcarry' hlt.le
    refine (hfirst.via_value hT (hready.made.part_ne_void _ (by simp [parts])) hs).trans
      fun u hu => ?_
    obtain ⟨v, hu, -⟩ := hu
    refine (hsecond.via_value hT (hready.made.part_ne_void _ (by simp [parts])) hu).mono
      fun t ht => ?_
    obtain ⟨w, ht, -⟩ := ht
    refine ⟨o₂, i, w :: v :: ws, ht, hfetch, rfl, ?_, by rw [hx.1]; rfl, fun act hact => ?_⟩
    · rw [length_cons, length_cons, hws, Instr.pops, hx.1]
      rfl
    · obtain ⟨place, v, hroot, hdoes⟩ := does_lasting hact (.inr (.inl hx.1))
      exact ⟨place, v, hT.roots _ hroot, hdoes⟩
  | _ => exact absurd rfl ha

omit hT in
/-- The last instruction pushes the address of the place. -/
theorem Before.via_address {u : State} (h : T.Before .address σ o' u) (hstop : o' ≤ T.stop) :
    T.Via u fun t => ∃ v, T.Rests (v :: σ) o' t ∧ v.Leads T.roots := by
  obtain ⟨o, i, us, hu, hfetch, rfl, hus, hstays, hdoes⟩ := h
  have hlt := lt_next hfetch
  refine via_pushes hu (by omega) hfetch (ne_ret hstays) (ne_retVoid hstays) hus fun act hact => ?_
  obtain ⟨place, v, hroot, hdoes⟩ := hdoes act hact
  refine ⟨.address place, hdoes.address, ?_⟩
  rintro a ha
  cases ha
  exact hroot

/-- What a symbol holds that is declared to hold an address. -/
theorem Lays.via_held (h : T.Lays (.access x .get) ts xs o o') (href : x.dataType.isByRef)
    (hval : x.dataType.hash ≠ .void) (hspared : x.Spared T.below.length T.roots s)
    (hs : T.Rests σ o s) :
    T.Via s fun u => ∃ v, T.Rests (v :: σ) o' u ∧ v.Leads T.roots := by
  have hr : T.setting.registry.Registered := hT.registry ▸ hT.heeds.registered
  have hplain : (T.Via s fun u => ∃ v, T.Rests (v :: σ) o' u ∧ Regime.lasting.Plain v) →
      T.Via s fun u => ∃ v, T.Rests (v :: σ) o' u ∧ v.Leads T.roots := by
    refine fun hvia => hvia.mono fun u hu => ?_
    obtain ⟨v, hu, hv⟩ := hu
    exact ⟨v, hu, hT.leads hv⟩
  have hslot : ∀ root {i}, T.method.fetch? o = some i → i.next = o' → ¬root.Lasting → i.op.stays →
      i.pops = 0 → i.action T.program T.method s.heap T.below.length [] = .ok (.get root) →
      (∀ v, s.cell? root.cell = some v → v.Leads T.roots) →
      T.Via s fun u => ∃ v, T.Rests (v :: σ) o' u ∧ v.Leads T.roots := by
    rintro root i hfetch rfl hroot hstays hpops haction hleads
    have hlt := lt_next hfetch
    have hstop := h.stop
    have hs : T.Rests ([] ++ σ) o s := hs
    refine (via_slot hs (by omega) hfetch (ne_ret hstays) (ne_retVoid hstays)
      hpops.symm hroot haction).mono fun u hu => ?_
    obtain ⟨v, hv, hu⟩ := hu
    exact ⟨v, hu, hleads v hv⟩
  have hready := h.ready
  cases hcode : h.code with
  | @localSlot _ slot =>
    obtain ⟨i, hfetch, hx, hnext⟩ := h.carries.single
    have hpops : i.pops = 0 := by rw [Instr.pops, hx.1]; rfl
    exact hslot (.localSlot T.below.length slot) hfetch hnext (by simp [Root.Lasting, Root.frame?])
      (by rw [hx.1]; rfl) hpops (action_local hx) hspared.2
  | @argument _ slot =>
    obtain ⟨i, hfetch, hx, hnext⟩ := h.carries.single
    have hpops : i.pops = 0 := by rw [Instr.pops, hx.1]; rfl
    exact hslot (.argument T.below.length slot) hfetch hnext (by simp [Root.Lasting, Root.frame?])
      (by rw [hx.1]; rfl) hpops (action_argument hx) hspared.2
  | @field _ holder f _ _ _ _ hload =>
    obtain ⟨name, hf, -⟩ := hready.made.checked
    have hmoves := (hload.moves hr (hready.part _) h.typed).mono (below_loose _)
    exact hplain (h.via_clean hT (hmoves.next (effect?_field (hr.field hf).1 .get)) hs)
  | @staticField _ f =>
    obtain ⟨owner, name, hf, -⟩ := hready.made.checked
    exact hplain
      (h.via_clean hT (StackRules.Moves.command _ (effect?_staticField (hr.field hf).1 .get)) hs)
  | capturedValue =>
    have howner : T.setting.function.owner.isSome := by rw [hready.made.checked.1]; rfl
    exact hplain (h.via_clean hT (StackRules.Moves.command _ (if_pos howner)) hs)
  | @call _ f args =>
    obtain ⟨function, hf, -⟩ := hready.made.checked
    have hf := hT.registry ▸ hr.coherent.function hf
    exact hplain (h.via_call hT (.inl rfl) rfl hf (isVoid_eq_false hval) hs)
  | @callOn _ f receiver args _ _ xs₁ xs₂ =>
    obtain ⟨function, hf, -⟩ := hready.made.checked
    have hf := hT.registry ▸ hr.coherent.function hf
    have h := h
    rw [← append_assoc] at h
    exact hplain (h.via_call hT (.inr rfl) rfl hf (isVoid_eq_false hval) hs)
  | element =>
    obtain ⟨e, -, rfl, -⟩ := hready.made.checked
    cases href
  | @binary _ op lhs rhs =>
    obtain ⟨rfl, -⟩ := hready.made.checked
    have hplain := lhs.isByRef_valueType
    cases hop : op.isComparison <;> simp [dataType, hop, isByRef, plain] at href
    simp [isByRef, href] at hplain
  | @unary _ _ operand =>
    obtain ⟨rfl, -⟩ := hready.made.checked
    exact absurd href (by simp [dataType, operand.isByRef_valueType])
  | literal | construct | newArray | arrayLength | converted => cases href

end Track

/-- Fields of fields are reached from what is no field. -/
theorem Symbol.fieldInduction {P : Symbol → Prop}
    (step : ∀ x, (∀ c holder f, x = .field c holder f → P holder) → P x) : ∀ x, P x
  | .field c holder f => step _ fun c' holder' f' h => by
    cases h
    exact fieldInduction step holder
  | .localSlot .. | .argument .. | .staticField .. | .element .. | .captured .. | .literal
    .. | .binary ..
  | .unary .. | .call .. | .callOn .. | .construct .. | .newArray .. | .arrayLength .. | .converted
    .. =>
    step _ fun _ _ _ h => by cases h

namespace Track

variable (hT : T.Proper)
include hT

/-- The address of storage leads to roots of the sort. -/
theorem Proper.addresses (x : Symbol) : T.Addresses x := by
  induction x using fieldInduction with
  | step x ih =>
    intro allow ts xs o o' s σ h hplace hspared hs
    obtain ⟨hmade, hval⟩ := h.ready
    cases h.code with
    | held href hget =>
      have hlays := h.sub hget (.get hmade hval) (refl _) h.carries (Nat.le_refl _)
      exact hlays.via_held hT href hval hspared hs
    | placed hplain _ _ haddr =>
      have hlays := h.sub haddr ⟨hmade, hval⟩ (refl _) h.carries (Nat.le_refl _)
      have hin := hplace.resolve_left (by simp [hplain])
      have hs : T.Rests ([] ++ σ) o s := hs
      exact (hlays.via_before hT (by simp) hin hspared ih rfl hs).trans fun u hu =>
        hu.via_address h.stop
    | spilled hplain hcannot _ =>
      have hin := hplace.resolve_left (by simp [hplain])
      rw [Emission.address_of_inPlace hin hplain] at hcannot
      cases hcannot

end Track

/-- What has no place of its own is not by reference, if fields are not. -/
theorem Symbol.plain_of_not_inPlace {r : Registry} (h : x.inPlace r = false)
    (hfield : ∀ c holder f, x = .field c holder f → f.type.isByRef = false) :
    x.dataType.isByRef = false := by
  unfold inPlace at h
  split at h
  · exact hfield _ _ _ rfl
  · cases h
  · exact (Bool.or_eq_false_iff.mp h).1

/-- Instance fields and static fields are declared without indirection. -/
def Registry.FieldsPlain (r : Registry) : Prop :=
  ∀ h f, r.fieldByHash? h = some f → f.type.isByRef = false

namespace Track

variable (hT : T.Proper)
include hT

/-- The address of a temporary that was filled with a value. -/
theorem Lays.via_spilled (h : T.Lays (.load x (.reference true)) (⟨x.dataType, slot⟩ :: ts)
      (xs ++ [.onLocal .set slot, .onLocal .address slot]) o o')
    (hget : Code T.setting.registry (.access x .get) ts xs) (hplain : x.dataType.isByRef = false)
    (hs : T.Rests σ o s) : T.Via s fun u =>
      T.Rests (.address (.ofRoot (.localSlot T.below.length slot)) :: σ) o' u := by
  obtain ⟨hmade, hval⟩ := h.ready
  obtain ⟨o₁, hcarry, hrest⟩ := h.carries.split
  obtain ⟨o₂, hset, haddr⟩ := hrest.split_cons
  obtain ⟨i, hfetch, hx, rfl⟩ := hset.single
  obtain ⟨j, hfetch', hx', rfl⟩ := haddr.single
  have hlt := lt_next hfetch
  have hlt' := lt_next hfetch'
  have hstop := h.stop
  have hlays := h.sub hget (.get hmade hval) (subset_cons_self _ _) hcarry (by omega)
  have hmoves := hlays.moves hT
  rw [Piece.pushes, results_eq hval, kind_of_plain hplain] at hmoves
  have hsize : slot.toNat < T.method.locals.size :=
    (Array.getElem?_eq_some_iff.mp (h.typed _ mem_cons_self)).1
  -- the value is pushed, parked, and its slot is addressed
  refine (hlays.via_clean hT hmoves hs).trans fun u hu => ?_
  obtain ⟨v, hu, hv⟩ := hu
  have hu : T.Rests ([v] ++ σ) o₁ u := hu
  refine (hT.heeds.via_site hT.part hu (by omega) hfetch hx rfl (Command.within_onLocal _ hsize)
    ⟨rfl, fun h => h.elim⟩ (.cons (Regime.means_of_plain hv _) .nil) fun hsite ha =>
      hT.heeds.meets hsite (by simp [Command.onLocal, Opcode.sort]) ha).trans fun t ht => ?_
  obtain ⟨ws, ht, hws⟩ := ht
  cases hws
  refine (via_pushes (R := fun v => v = .address (.ofRoot (.localSlot T.below.length slot)))
    ht (by omega) hfetch' (by rw [hx'.1]; exact ne_ret rfl)
    (by rw [hx'.1]; exact ne_retVoid rfl) ?_ fun act hact => ?_).mono fun w hw => ?_
  · rw [Instr.pops, hx'.1]
    rfl
  · rw [action_local hx'] at hact
    cases hact
    exact ⟨_, rfl, rfl⟩
  · obtain ⟨_, hw, rfl⟩ := hw
    exact hw

/-- What has no place of its own is spilled: its address is that of a temporary, or inside of
one. -/
theorem Proper.spills (hfields : T.setting.registry.FieldsPlain) (x : Symbol) : ∀ ts xs o o' s σ,
    T.Lays (.load x (.reference true)) ts xs o o' → x.dataType.isByRef = false →
    x.inPlace T.setting.registry = false → T.Rests σ o s → T.Via s fun u => ∃ a,
      T.Rests (.address a :: σ) o' u ∧ ∃ t ∈ ts, a.root = .localSlot T.below.length t.slot := by
  induction x using fieldInduction with
  | step x ih =>
    intro ts xs o o' s σ h hplain hin hs
    obtain ⟨hmade, hval⟩ := h.ready
    cases hcode : h.code with
    | held href =>
      rw [hplain] at href
      cases href
    | @spilled _ slot ts xs _ _ hget =>
      refine (h.via_spilled hT hget hplain hs).mono fun u hu => ?_
      exact ⟨_, hu, _, mem_cons_self, rfl⟩
    | placed _ _ _ haddr =>
      cases haddr with
      | localSlot | argument | staticField | element | capturedAddress =>
        simp [inPlace, capabilities, Capabilities.storage] at hin
      | @field _ holder f _ _ xs' _ hload =>
        obtain ⟨htype, hin'⟩ : T.setting.registry.isValueType holder.valueType.hash = true ∧
            holder.inPlace T.setting.registry = false := by
          simpa [inPlace] using hin
        have hready : (Piece.access (.field _ holder f) .address).Ready T.setting T.method.locals :=
          ⟨hmade, hval⟩
        have hhold := hready.part (p := holder) .callTarget
        obtain ⟨o₁, hcarry, hlast⟩ := h.carries.split
        obtain ⟨i, hfetch, hx, rfl⟩ := hlast.single
        have hlt := lt_next hfetch
        have hplain' : holder.dataType.isByRef = false := by
          refine plain_of_not_inPlace hin' ?_
          rintro c holder' f' rfl
          obtain ⟨name, hf, -⟩ := hhold.1.checked
          exact hfields _ _
            ((hT.registry ▸ hT.heeds.registered : T.setting.registry.Registered).field hf).1
        cases hload with
        | target hload =>
          rw [if_pos htype] at hload
          have hlays := h.sub hload (Piece.ready_load hhold.1 hhold.2) (refl _) hcarry hlt.le
          have hstop := h.stop
          -- the instance is in a temporary, and the field is inside
          refine (ih _ _ _ rfl _ _ _ _ _ _ hlays hplain' hin' hs).trans fun u hu => ?_
          obtain ⟨a, hu, t, ht, hroot⟩ := hu
          have hu : T.Rests ([.address a] ++ σ) o₁ u := hu
          refine (via_pushes
            (R := fun v => ∃ b, v = .address b ∧ b.root = .localSlot T.below.length t.slot) hu
              (by omega)
            hfetch (by rw [hx.1]; exact ne_ret rfl) (by rw [hx.1]; exact ne_retVoid rfl) ?_
            fun act hact => ?_).mono fun w hw => ?_
          · rw [Instr.pops, hx.1]
            rfl
          · obtain ⟨place, v, hdoes, ⟨id, hv, -⟩ | ⟨b, hv, hroot'⟩⟩ :=
              does_field (by simp) hx.1 hact
            · cases hv
            · cases hv
              exact ⟨_, hdoes.address, place, rfl, hroot'.trans hroot⟩
          · obtain ⟨_, hw, b, rfl, hb⟩ := hw
            exact ⟨b, hw, t, ht, hb⟩

end Track

end StackCode
