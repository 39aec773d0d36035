import StackCode.Proofs.Runs
import StackCode.Proofs.Slots

/-!
# Variables

A variable has a slot of its own. Symbols are made of variables that the user holds as well, and a
new variable gets a slot that was not there before.
-/

namespace StackCode

open List Setting Emission

variable {slot : UInt16} {rule : Operation → Prop}

/-- A symbol uses the slot of a variable. -/
inductive Symbol.Uses : Symbol → UInt16 → Prop
  | slot {c slot type} : Uses (.localSlot c slot type) slot
  | part {s p slot} (hp : p ∈ s.parts) (h : Uses p slot) : Uses s slot

/-- The slot of a variable. -/
def Symbol.slot? : Symbol → Option UInt16
  | .localSlot _ slot _ => some slot
  | _ => none

theorem Symbol.slot?_eq_some {s : Symbol} (h : s.slot? = some slot) :
    ∃ c type, s = .localSlot c slot type := by
  cases s with
  | localSlot c slot' type =>
    cases h
    exact ⟨c, type, rfl⟩
  | _ => cases h

theorem Factory.make_ne_localSlot {c : Setting} {f : Factory} {s : Symbol} (h : f.make c = .ok s)
    (id : ContextId) (slot : UInt16) (type : DataType) : s ≠ .localSlot id slot type := by
  rintro rfl
  cases f with
  | argument index => obtain ⟨_, -, heq⟩ := argument_ok h; cases heq
  | this => obtain ⟨_, -, -, heq⟩ := this_ok h; cases heq
  | literal l => cases h
  | field holder name => obtain ⟨-, _, -, -, heq⟩ := field_ok h; cases heq
  | staticField owner name => obtain ⟨_, -, -, heq⟩ := staticField_ok h; cases heq
  | element array index => obtain ⟨-, -, _, -, -, heq⟩ := element_ok h; cases heq
  | captured id => obtain ⟨-, heq⟩ := captured_ok h; cases heq
  | binary op lhs rhs => obtain ⟨-, -, -, -, heq⟩ := binary_ok h; cases heq
  | unary op operand => obtain ⟨-, -, heq⟩ := unary_ok h; cases heq
  | call function receiver args =>
    obtain ⟨_, -, -, -, ⟨_, -, -, -, heq⟩ | ⟨-, -, heq⟩⟩ := call_ok h <;> cases heq
  | construct function args => obtain ⟨_, _, -, -, -, -, heq⟩ := construct_ok h; cases heq
  | newArray type length => obtain ⟨-, -, -, heq⟩ := newArray_ok h; cases heq
  | arrayLength array => obtain ⟨-, heq⟩ := arrayLength_ok h; cases heq
  | convert source target => obtain ⟨-, _, -, heq⟩ := convert_ok h; cases heq

namespace Session

variable {s s' : Session}

/-- A symbol that is handed out comes from a factory, or it is a variable in a new slot. -/
theorem handed_out_cases {op : Operation} {x : Symbol} {b : Body}
    (hout : op.emission.outcome s.setting s.body = (.ok (.symbol x), b)) :
    (∃ f : Factory, op = .make f ∧ f.make s.setting = .ok x) ∨
      ∃ slot type, x = .localSlot s.setting.id slot type ∧ slot.toNat = s.body.locals.size ∧
        b.locals = s.body.locals.push type := by
  cases op with
  | make f =>
    have hmake : (checking f.make >>= fun x => pure (Answer.symbol x)).outcome
        s.setting s.body = (.ok (.symbol x), b) := hout
    rw [outcome_checking_bind] at hmake
    cases hx : f.make s.setting with (rw [hx] at hmake; cases hmake)
    | ok y => exact .inl ⟨f, rfl, hx⟩
  | declare type =>
    have hdecl : (declareVariable type >>= fun x => pure (Answer.symbol x)).outcome
        s.setting s.body = (.ok (.symbol x), b) := hout
    rw [outcome_bind] at hdecl
    rcases declareVariable_cases type s.setting s.body with ⟨e, hcase⟩ | ⟨hroom, hcase⟩ <;>
      rw [hcase] at hdecl <;> cases hdecl
    have hlimit := s.setting.options.maxLocals.toNat_lt
    refine .inr ⟨_, type, rfl, ?_, rfl⟩
    rw [UInt16.toNat_ofNat', Nat.mod_eq_of_lt (by omega)]
  | _ =>
    obtain ⟨a, b₁, -, hpure⟩ := bind_ok hout
    cases hpure

/-- A symbol that is handed out uses slots that other symbols use, or it is a variable in a new
slot. -/
theorem uses_handed_out {op : Operation}
    (hsyms : ∀ y ∈ op.symbols, y ∈ s.symbols ∨ y.context ≠ s.setting.id) {x : Symbol} {b : Body}
    (hout : op.emission.outcome s.setting s.body = (.ok (.symbol x), b)) (huses : x.Uses slot) :
    (∃ y ∈ s.symbols, y.Uses slot) ∨
      (∃ c type, x = .localSlot c slot type) ∧ slot.toNat = s.body.locals.size := by
  rcases handed_out_cases hout with ⟨f, rfl, hx⟩ | ⟨new, type, rfl, hslot, -⟩
  · obtain ⟨-, hparts, hctx⟩ := Factory.make_ok hx
    obtain _ | ⟨hp, huses⟩ := huses
    · exact absurd rfl (Factory.make_ne_localSlot hx _ _ _)
    · rw [hparts] at hp
      exact .inl ⟨_, (hsyms _ hp).resolve_right fun hne => hne (hctx _ hp), huses⟩
  · obtain _ | ⟨hp, -⟩ := huses
    · exact .inr ⟨⟨_, _, rfl⟩, hslot⟩
    · simp [Symbol.parts] at hp

theorem locals_of_steps (hsteps : Steps rule s s') :
    s.body.locals.toList <+: s'.body.locals.toList := by
  induction hsteps with
  | refl => exact prefix_refl _
  | @tail t _ _ hstep ih =>
    obtain ⟨op, -, -, rfl⟩ := hstep
    have hlocs := op.locals_grow t.setting t.body
    refine ih.trans ?_
    rw [perform_eq]
    rcases hcase : op.emission.outcome t.setting t.body with ⟨e | a, b⟩ <;> rw [hcase] at hlocs
    · exact hlocs
    · cases a <;> exact hlocs

/-- The slots of the variables that the user holds. -/
def variableSlots (s : Session) : List UInt16 := s.symbols.filterMap Symbol.slot?

/-- The declared slots that are no variables of the user. -/
def temporaries (s : Session) : List UInt16 :=
  ((List.range s.body.locals.size).map UInt16.ofNat).filter (· ∉ s.variableSlots)

theorem mem_temporaries (hsize : s.body.locals.size ≤ 65536) :
    slot ∈ s.temporaries ↔ slot.toNat < s.body.locals.size ∧ slot ∉ s.variableSlots := by
  simp only [temporaries, mem_filter, mem_map, mem_range, decide_eq_true_eq]
  refine and_congr_left fun _ => ⟨?_, fun hlt => ⟨slot.toNat, hlt, UInt16.ofNat_toNat⟩⟩
  rintro ⟨n, hn, rfl⟩
  rw [UInt16.toNat_ofNat']
  omega

/-- The variables that symbols use are held as symbols themselves. -/
def Knows (s : Session) : Prop := ∀ x ∈ s.symbols, ∀ slot, x.Uses slot → slot ∈ s.variableSlots

theorem knows_start (id : ContextId) (registry : Registry) (function : FunctionDecl)
    (options : EmitOptions) : (start id registry function options).Knows := by
  simp [Knows, start]

/-- The symbols after a step: one may be new. Its slots are known, or it is a variable in a new
slot. -/
theorem symbols_of_step (hstep : Step rule s s') :
    s'.symbols = s.symbols ∨ ∃ x, s'.symbols = x :: s.symbols ∧ ∀ slot, x.Uses slot →
      (∃ y ∈ s.symbols, y.Uses slot) ∨
        (∃ c type, x = .localSlot c slot type) ∧ slot.toNat = s.body.locals.size := by
  obtain ⟨op, hpermit, -, rfl⟩ := hstep
  rw [perform_eq]
  rcases hcase : op.emission.outcome s.setting s.body with ⟨e | a, b⟩
  · exact .inl rfl
  · cases a with
    | symbol x =>
      refine .inr ⟨x, rfl, fun slot huses => ?_⟩
      exact uses_handed_out hpermit.symbols hcase huses
    | done | label _ | scope _ | slot _ => exact .inl rfl

theorem Step.symbols_subset (hstep : Step rule s s') : s.symbols ⊆ s'.symbols := by
  rcases symbols_of_step hstep with hsame | ⟨x, hsyms, -⟩
  · rw [hsame]
    exact Subset.refl _
  · rw [hsyms]
    exact subset_cons_self x _

/-- One more symbol, whose slots are known, or which is a variable. -/
theorem Knows.extend (h : s.Knows) (hsyms : s'.symbols = s.symbols ∨ ∃ x,
    s'.symbols = x :: s.symbols ∧
    ∀ slot, x.Uses slot → (∃ y ∈ s.symbols, y.Uses slot) ∨
      (∃ c type, x = .localSlot c slot type) ∧ slot.toNat = s.body.locals.size) : s'.Knows := by
  rcases hsyms with hsame | ⟨x, hsyms, hx⟩
  · simpa only [Knows, variableSlots, hsame] using h
  · have hsub : s.variableSlots ⊆ s'.variableSlots := by
      rw [variableSlots, variableSlots, hsyms]
      exact ((sublist_cons_self ..).filterMap _).subset
    intro y hy slot huses
    rw [hsyms] at hy
    obtain rfl | hy := mem_cons.mp hy
    · rcases hx slot huses with ⟨z, hz, huses⟩ | ⟨⟨c, type, rfl⟩, -⟩
      · exact hsub (h z hz slot huses)
      · rw [variableSlots, hsyms]
        exact mem_filterMap.mpr ⟨_, mem_cons_self .., rfl⟩
    · exact hsub (h y hy slot huses)

theorem Knows.step (h : s.Knows) (hstep : Step rule s s') : s'.Knows :=
  h.extend (symbols_of_step hstep)

theorem Knows.steps (h : s.Knows) (hsteps : Steps rule s s') : s'.Knows := by
  induction hsteps with
  | refl => exact h
  | tail _ hstep ih => exact ih.step hstep

theorem variableSlots_of_step (h : s.Knows) (hstep : Step rule s s') :
    s.variableSlots ⊆ s'.variableSlots ∧
      ∀ slot ∈ s'.variableSlots, slot ∈ s.variableSlots ∨ s.body.locals.size ≤ slot.toNat := by
  rcases symbols_of_step hstep with hsame | ⟨x, hsyms, hx⟩
  · rw [variableSlots, variableSlots, hsame]
    exact ⟨Subset.refl _, fun slot hslot => .inl hslot⟩
  · rw [variableSlots, variableSlots, hsyms]
    refine ⟨((sublist_cons_self ..).filterMap _).subset, fun slot hslot => ?_⟩
    obtain ⟨y, hmem, hy⟩ := mem_filterMap.mp hslot
    obtain rfl | hmem := mem_cons.mp hmem
    · obtain ⟨c, type, rfl⟩ := Symbol.slot?_eq_some hy
      rcases hx slot .slot with ⟨z, hz, huses⟩ | ⟨-, hnew⟩
      · exact .inl (h z hz slot huses)
      · exact .inr (Nat.le_of_eq hnew.symm)
    · exact .inl (mem_filterMap.mpr ⟨y, hmem, hy⟩)

/-- Variables are kept, and new ones have slots that were not declared before. -/
theorem variableSlots_of_steps (h : s.Knows) (hsteps : Steps rule s s') :
    s.variableSlots ⊆ s'.variableSlots ∧
      ∀ slot ∈ s'.variableSlots, slot ∈ s.variableSlots ∨ s.body.locals.size ≤ slot.toNat := by
  induction hsteps with
  | refl => exact ⟨Subset.refl _, fun slot hslot => .inl hslot⟩
  | tail hsteps hstep ih =>
    obtain ⟨hsub, hnew⟩ := variableSlots_of_step (h.steps hsteps) hstep
    refine ⟨Subset.trans ih.1 hsub, fun slot hslot => ?_⟩
    rcases hnew slot hslot with hold | hlarge
    · exact ih.2 slot hold
    · have hlocs := (locals_of_steps hsteps).length_le
      exact .inr (hlocs.trans hlarge)

end Session

end StackCode
