import StackCode.Proofs.Isolation
import StackCode.Proofs.Variables

/-!
# The slots of a context

A slot that is declared is a variable, or a temporary in the pool, or a temporary of the current
statement. This holds whatever is asked of a context, also when it fails.
-/

namespace StackCode

open Emission List Temporary

namespace Call

/-- The call up to the end of its statement. -/
def work : Call → Emission Unit
  | .operation op => op.work
  | k => do let _ ← k.emission

/-- Whether a call ends the statement when it succeeds. -/
def endsStatement : Call → Bool
  | .operation op => op.endsStatement
  | _ => false

/-- The call declares a variable. -/
def Declares (k : Call) : Prop := ∃ type, k = .operation (.declare type)

theorem closes_work (k : Call) (c : Setting) : k.work.Closes c k.endsStatement k.emission := by
  cases k with
  | operation op => exact op.closes_work c
  | _ => exact closes_discard _

theorem covers_work {P : (α : Type) → Emission α → Emission α → Prop} (h : Emission.Covers P)
    {k : Call} (hk : ¬k.Declares) : P Unit k.work k.work := by
  cases k with
  | operation op =>
    refine op.covers_work h ?_
    rintro ⟨type, rfl⟩
    exact hk ⟨type, rfl⟩
  | access x a =>
    exact h.bind (h.bind (h.access x a) fun _ _ => h.pure Answer.done Answer.done) fun _ _ =>
      h.pure () ()
  | _ =>
    exact h.bind (h.bind (h.onEmitter _ _) fun _ _ => h.pure Answer.done Answer.done) fun _ _ =>
      h.pure () ()

end Call

/-! ### No slot is lost and none is shared -/

/-- The slots are parted among variables and temporaries. Temporaries are declared with their types.
If they are used again, then there are no other slots. -/
structure Slots.Parted (options : EmitOptions) (vars : List UInt16) (s : Slots) : Prop where
  few : s.locals.size ≤ options.maxLocals.toNat
  typed : ∀ t ∈ s.pooled ++ s.live, s.locals[t.slot.toNat]? = some t.type
  declared : ∀ slot ∈ vars, slot.toNat < s.locals.size
  distinct : (vars ++ (s.pooled ++ s.live).map Temporary.slot).Nodup
  complete : options.reuseTemporaries → ∀ slot : UInt16, slot.toNat < s.locals.size →
    slot ∈ vars ∨ ∃ t ∈ s.pooled ++ s.live, t.slot = slot

namespace Slots.Parted

variable {options : EmitOptions} {vars : List UInt16} {s m : Slots}

section

variable (h : Parted options vars s)
include h

theorem lt_size {slot : UInt16} (hslot : slot ∈ vars ++ (s.pooled ++ s.live).map Temporary.slot) :
    slot.toNat < s.locals.size := by
  rcases mem_append.mp hslot with hvariable | htemp
  · exact h.declared slot hvariable
  · obtain ⟨t, ht, rfl⟩ := mem_map.mp htemp
    exact (Array.getElem?_eq_some_iff.mp (h.typed t ht)).1

/-- Temporaries go from the pool to the statement and back. -/
theorem perm (hlocs : m.locals = s.locals)
    (hperm : (m.pooled ++ m.live).Perm (s.pooled ++ s.live)) :
    Parted options vars m := by
  have hslots := (hperm.map slot).append_left vars
  refine ⟨hlocs ▸ h.few, fun t ht => ?_, fun slot hslot => ?_, hslots.nodup_iff.mpr h.distinct, ?_⟩
  · rw [hlocs]
    exact h.typed t (hperm.mem_iff.mp ht)
  · rw [hlocs]
    exact h.declared slot hslot
  · intro hreuse slot hslot
    rw [hlocs] at hslot
    refine (h.complete hreuse slot hslot).imp_right ?_
    rintro ⟨t, ht, rfl⟩
    exact ⟨t, hperm.mem_iff.mpr ht, rfl⟩

theorem fresh_slot (hroom : s.locals.size < options.maxLocals.toNat) :
    (UInt16.ofNat s.locals.size).toNat = s.locals.size ∧
      .ofNat s.locals.size ∉ vars ++ (s.pooled ++ s.live).map slot := by
  have hlimit := options.maxLocals.toNat_lt
  have hslot : (UInt16.ofNat s.locals.size).toNat = s.locals.size := by
    rw [UInt16.toNat_ofNat']
    omega
  refine ⟨hslot, fun hmem => ?_⟩
  have hlt := h.lt_size hmem
  omega

theorem typed_push (type : DataType) {t : Temporary} (ht : t ∈ s.pooled ++ s.live) :
    (s.locals.push type)[t.slot.toNat]? = some t.type := by
  have htyped := h.typed t ht
  have hlt := (Array.getElem?_eq_some_iff.mp htyped).1
  rwa [Array.getElem?_push, if_neg (Nat.ne_of_lt hlt)]

end

/-- With one more slot, the slots are the old ones and the new one. -/
theorem eq_of_lt_push (type : DataType) {slot : UInt16}
    (hlt : slot.toNat < (s.locals.push type).size) :
    slot.toNat < s.locals.size ∨ slot = .ofNat s.locals.size := by
  rw [Array.size_push] at hlt
  by_cases hold : slot.toNat < s.locals.size
  · exact .inl hold
  · right
    rw [show s.locals.size = slot.toNat by omega, UInt16.ofNat_toNat]

section

variable (h : Parted options vars s)
include h

theorem declare (hroom : s.locals.size < options.maxLocals.toNat) (type : DataType) :
    Parted options (.ofNat s.locals.size :: vars) (s.declare type) := by
  obtain ⟨hslot, hnew⟩ := h.fresh_slot hroom
  have hsize : (s.declare type).locals.size = s.locals.size + 1 := Array.size_push ..
  refine ⟨by omega, fun t ht => h.typed_push type ht, ?_, nodup_cons.mpr ⟨hnew, h.distinct⟩, ?_⟩
  · refine forall_mem_cons.mpr ⟨by omega, fun slot hmem => ?_⟩
    have hold := h.declared slot hmem
    omega
  · intro hreuse slot hlt
    rcases eq_of_lt_push type hlt with hold | rfl
    · exact (h.complete hreuse slot hold).imp_left (mem_cons_of_mem _)
    · exact .inl (mem_cons_self ..)

theorem draw (hdraw : Draw options s m) : Parted options vars m := by
  cases hdraw with
  | again hreuse htake =>
    obtain ⟨-, hperm⟩ := Body.takePooled_some htake
    exact h.perm rfl (perm_middle.trans (hperm.symm.append_right _))
  | @fresh type hroom hnone =>
    obtain ⟨hslot, hnew⟩ := h.fresh_slot hroom
    -- up to the order, the new temporary stands before the old ones
    have hmiddle : (s.pooled ++ ⟨type, .ofNat s.locals.size⟩ :: s.live).Perm
        (⟨type, .ofNat s.locals.size⟩ :: (s.pooled ++ s.live)) := perm_middle
    have hsize : (s.locals.push type).size = s.locals.size + 1 := Array.size_push ..
    refine ⟨?_, fun t ht => ?_, fun slot hmem => ?_, ?_, fun hreuse slot hlt => ?_⟩
    · exact hsize.trans_le hroom
    · rcases mem_cons.mp (hmiddle.mem_iff.mp ht) with rfl | hold
      · simp [hslot]
      · exact h.typed_push type hold
    · have hold := h.declared slot hmem
      show slot.toNat < (s.locals.push type).size
      omega
    · have hslots := (hmiddle.map slot).append_left vars
      refine hslots.nodup_iff.mpr ?_
      rw [map_cons]
      exact perm_middle.nodup_iff.mpr (nodup_cons.mpr ⟨hnew, h.distinct⟩)
    · rcases eq_of_lt_push type hlt with hold | rfl
      · refine (h.complete hreuse slot hold).imp_right ?_
        rintro ⟨t, ht, rfl⟩
        exact ⟨t, hmiddle.mem_iff.mpr (mem_cons_of_mem _ ht), rfl⟩
      · exact .inr ⟨_, hmiddle.mem_iff.mpr (mem_cons_self ..), rfl⟩

theorem draws (hdraws : Draws options s m) : Parted options vars m := by
  induction hdraws with
  | refl => exact h
  | tail _ hdraw ih => exact ih.draw hdraw

theorem release : Parted options vars (s.release options) := by
  by_cases hreuse : options.reuseTemporaries
  · refine h.perm rfl ?_
    simpa [Slots.release, hreuse] using perm_append_comm
  · have hsub : ((s.release options).pooled ++ (s.release options).live).Sublist
      (s.pooled ++ s.live) := by
      simp [Slots.release, hreuse]
    refine ⟨h.few, fun t ht => h.typed t (hsub.subset ht), h.declared, ?_, fun h => absurd h hreuse⟩
    exact h.distinct.sublist ((hsub.map _).append_left _)

end

end Slots.Parted

namespace Session

variable {s : Session} {k : Call}

/-- Make calls one after the other, whatever comes of them. -/
def callAll (s : Session) (ks : List Call) : Session := ks.foldl (fun s k => (s.call k).2) s

theorem setting_callAll (s : Session) (ks : List Call) : (s.callAll ks).setting = s.setting := by
  induction ks generalizing s with
  | nil => rfl
  | cons k ks ih => exact (ih (s.call k).2).trans (setting_call s k)

/-- The slots are parted among the variables that the user was given and temporaries. -/
def Parted (s : Session) : Prop := s.body.slots.Parted s.setting.options s.variableSlots

theorem parted_start (id : ContextId) (registry : Registry) (function : FunctionDecl)
    (options : EmitOptions) : (start id registry function options).Parted where
  few := Nat.zero_le _
  typed t ht := by cases ht
  declared slot hslot := by cases hslot
  distinct := nodup_nil
  complete _ slot hlt := absurd hlt (Nat.not_lt_zero _)

/-- Only a declaration hands out a variable. -/
theorem variableSlots_keep {c : Setting} {b b' : Body} {a : Answer} (hk : ¬k.Declares)
    (hout : k.emission.outcome c b = (.ok a, b')) : (s.keep a).variableSlots = s.variableSlots := by
  cases a with
  | symbol x =>
    suffices hx : x.slot? = none by simp [keep, variableSlots, hx]
    cases k with
    | operation op =>
      cases op with
      | declare type => exact absurd ⟨type, rfl⟩ hk
      | make f =>
        have hmake : (Emission.checking f.make >>= fun x => pure (Answer.symbol x)).outcome c b =
            (.ok (.symbol x), b') := hout
        rw [outcome_checking_bind] at hmake
        cases hx : f.make c with
        | error e =>
          rw [hx] at hmake
          cases hmake
        | ok y =>
          rw [hx] at hmake
          cases hmake
          by_contra hsome
          obtain ⟨slot, hslot⟩ := Option.ne_none_iff_exists'.mp hsome
          obtain ⟨id, type, rfl⟩ := Symbol.slot?_eq_some hslot
          exact Factory.make_ne_localSlot hx id slot type rfl
      | _ =>
        obtain ⟨_, _, -, hpure⟩ := bind_ok hout
        cases hpure
    | _ =>
      obtain ⟨_, _, -, hpure⟩ := bind_ok hout
      cases hpure
  | _ => rfl

theorem call_declare (s : Session) (type : DataType) :
    (s.call (.operation (.declare type))).2.body.slots = s.body.slots ∧
        (s.call (.operation (.declare type))).2.variableSlots = s.variableSlots ∨
      s.body.locals.size < s.setting.options.maxLocals.toNat ∧
        (s.call (.operation (.declare type))).2.body.slots = s.body.slots.declare type ∧
        (s.call (.operation (.declare type))).2.variableSlots = .ofNat s.body.locals.size ::
          s.variableSlots := by
  have hemission : (Operation.declare type).emission =
      Emission.declareVariable type >>= fun x => pure (Answer.symbol x) := rfl
  rcases s.call_cases (.operation (.declare type)) with ⟨e, b, hout, hcall⟩ | ⟨a, b, hout,
    hcall⟩ <;>
    rw [Call.emission, hemission, outcome_bind] at hout <;>
    rcases declareVariable_cases type s.setting s.body with ⟨e', hcase⟩ | ⟨hroom, hcase⟩ <;>
    rw [hcase] at hout <;> cases hout <;> rw [hcall]
  · exact .inl ⟨rfl, rfl⟩
  · exact .inr ⟨hroom, rfl, rfl⟩

theorem call_ok {a : Answer} (hcall : (s.call k).1 = .ok a) : ∃ b,
    k.emission.outcome s.setting s.body = (.ok a, b) ∧ (s.call k).2.body = b := by
  have hrun : s.context.run k.emission = ((k.emission.outcome s.setting s.body).1,
      ⟨s.setting, (k.emission.outcome s.setting s.body).2⟩) := rfl
  rw [call, hrun] at hcall ⊢
  generalize k.emission.outcome s.setting s.body = out at hcall ⊢
  obtain ⟨e | a', b⟩ := out
  · cases hcall
  · cases hcall
    exact ⟨b, rfl, by cases a <;> rfl⟩

/-- What a call does to the slots when it declares no variable: it draws temporaries, and then it
may end the statement. -/
theorem call_slots (s : Session) (hk : ¬k.Declares) : ∃ m : Slots,
    m = (k.work.outcome s.setting s.body).2.slots ∧ Slots.Draws s.setting.options s.body.slots m ∧
      ((s.call k).2.body.slots = m ∨ (s.call k).2.body.slots = m.release s.setting.options) ∧
      (s.call k).2.variableSlots = s.variableSlots := by
  have hdraws := k.covers_work (covers_draws s.setting) hk s.body
  have hcloses := k.closes_work s.setting s.body
  refine ⟨_, rfl, hdraws, ?_⟩
  rcases s.call_cases k with ⟨e, b, hout, hcall⟩ | ⟨a, b, hout, hcall⟩
  · rw [hcall]
    rw [hout] at hcloses
    generalize k.work.outcome s.setting s.body = before at hcloses
    cases hcloses with
    | failed h => exact ⟨h, rfl⟩
  · have hbody : (s.call k).2.body = b := by
      rw [hcall]
      cases a <;> rfl
    have hslots : (s.call k).2.variableSlots = s.variableSlots := by
      rw [hcall]
      exact variableSlots_keep hk hout
    rw [hout] at hcloses
    generalize k.work.outcome s.setting s.body = before at hcloses
    cases hcloses with
    | done h =>
      refine ⟨?_, hslots⟩
      rw [hbody]
      split at h
      · exact .inr h
      · exact .inl h

theorem Parted.call (h : s.Parted) (k : Call) : (s.call k).2.Parted := by
  unfold Parted at h ⊢
  rw [setting_call]
  by_cases hk : k.Declares
  · obtain ⟨type, rfl⟩ := hk
    rcases s.call_declare type with ⟨hslots, hvars⟩ | ⟨hroom, hslots, hvars⟩
    · rwa [hslots, hvars]
    · rw [hslots, hvars]
      exact h.declare hroom type
  · obtain ⟨m, -, hdraws, hslots, hvars⟩ := s.call_slots hk
    have hm := h.draws hdraws
    rw [hvars]
    rcases hslots with hslots | hslots <;> rw [hslots]
    · exact hm
    · exact hm.release

theorem Parted.steps {rule : Operation → Prop} {s' : Session} (h : s.Parted)
    (hsteps : Steps rule s s') :
    s'.Parted := by
  induction hsteps with
  | refl => exact h
  | tail _ hstep ih =>
    obtain ⟨op, -, -, rfl⟩ := hstep
    exact ih.call (.operation op)

theorem Parted.callAll (h : s.Parted) (ks : List Call) : (s.callAll ks).Parted := by
  induction ks generalizing s with
  | nil => exact h
  | cons k ks ih => exact ih (h.call k)

/-- A temporary that is acquired is no variable and no temporary of the statement. -/
theorem Parted.acquire (h : s.Parted) {type : DataType} {slot : UInt16} {b : Body}
    (hout : (Emission.acquireTemporary type).outcome s.setting s.body = (.ok slot, b)) :
    b.locals[slot.toNat]? = some type ∧ slot ∉ s.variableSlots ∧ ∀ t ∈ s.body.live,
      t.slot ≠ slot := by
  have hdraws : Slots.Draws s.setting.options s.body.slots b.slots := by
    have hdraws := draws_acquireTemporary (c := s.setting) type s.body
    rwa [hout] at hdraws
  have hb : b.slots.Parted s.setting.options s.variableSlots := h.draws hdraws
  have hlive := live_acquireTemporary hout
  have hmem : ⟨type, slot⟩ ∈ b.pooled ++ b.live := by
    rw [hlive]
    simp
  have hdist := hb.distinct
  have hslots : (b.slots.pooled ++ b.slots.live).map Temporary.slot =
      b.pooled.map Temporary.slot ++ slot :: s.body.live.map Temporary.slot := by
    show (b.pooled ++ b.live).map Temporary.slot = _
    rw [hlive, map_append, map_cons]
  rw [hslots, nodup_append] at hdist
  obtain ⟨-, htemps, hapart⟩ := hdist
  have hrest := (nodup_cons.mp (nodup_append.mp htemps).2.1).1
  refine ⟨hb.typed _ hmem, fun hvariable => ?_, fun t ht heq => ?_⟩
  · exact hapart slot hvariable slot (by simp) rfl
  · exact hrest (heq ▸ mem_map_of_mem ht)

/-- Whatever is asked of a context, and whether it succeeds or fails: there are never more slots
than allowed; every temporary, in the pool or of the statement, is declared with its type; variables
and temporaries all have different slots; and if temporaries are used again, then every slot is one
of them. So a temporary that is acquired is never a variable nor already used in the statement. -/
theorem slots_are_parted (id : ContextId) (registry : Registry) (function : FunctionDecl)
    (options : EmitOptions) (ks : List Call) :
    ((start id registry function options).callAll ks).body.slots.Parted options
        ((start id registry function options).callAll ks).variableSlots ∧
      ∀ type slot b, (Emission.acquireTemporary type).outcome
          ((start id registry function options).callAll ks).setting
          ((start id registry function options).callAll ks).body = (.ok slot, b) →
        b.locals[slot.toNat]? = some type ∧
        slot ∉ ((start id registry function options).callAll ks).variableSlots ∧
        ∀ t ∈ ((start id registry function options).callAll ks).body.live, t.slot ≠ slot := by
  have hparted := (parted_start id registry function options).callAll ks
  refine ⟨?_, fun type slot b hout => hparted.acquire hout⟩
  rwa [Parted, setting_callAll] at hparted

end Session

end StackCode
