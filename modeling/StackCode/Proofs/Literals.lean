import StackCode.Proofs.ReadBack
import StackCode.Proofs.Resting

/-!
# Literals are pushed as they were emitted

A literal is pushed by the instruction that was emitted for it, whatever the pool held before and
whatever is emitted later. A pool does not tell floating-point numbers apart that are equal as
numbers, nor NaNs: a zero is pushed as the zero that was emitted first, whatever its sign.
-/

namespace StackCode

/-! ### Keys of floating-point numbers -/

/-- Different literals that a pool does not tell apart. -/
inductive Literal.Merged : Literal → Literal → Prop
  | zero {k : FloatKind} {v w : BitVec k.width} (hv : k.magnitude v = 0) (hw : k.magnitude w = 0) :
      Merged (.float k v) (.float k w)
  | nan {k : FloatKind} {v w : BitVec k.width} (hv : k.isNaN v) (hw : k.isNaN w) :
      Merged (.float k v) (.float k w)

namespace FloatKind

variable (k : FloatKind) (v : BitVec k.width)

theorem isNaN_canonical : k.isNaN (k.canonical v) = k.isNaN v := by
  unfold canonical
  split
  · rename_i hnan
    rw [hnan]
    cases k <;> decide
  · split
    · rename_i hnan _
      rw [Bool.not_eq_true] at hnan
      rw [hnan]
      cases k <;> decide
    · rfl

theorem magnitude_canonical : k.magnitude (k.canonical v) = 0 ↔ k.magnitude v = 0 := by
  unfold canonical
  split
  · rename_i hnan
    have hpositive : 0 < k.magnitude v :=
      Nat.lt_of_le_of_lt (Nat.zero_le _) (of_decide_eq_true hnan)
    refine iff_of_false ?_ (Nat.ne_of_gt hpositive)
    cases k <;> decide
  · split
    · rename_i hzero
      refine iff_of_true ?_ hzero
      cases k <;> decide
    · rfl

end FloatKind

/-- Literals with one key are the same or merged. -/
theorem Constant.eq_or_merged_of_key {l l' : Literal}
    (hkey : (Constant.literal l').key = (Constant.literal l).key) : l' = l ∨ l'.Merged l := by
  by_cases hl : l.IsFloat
  · by_cases hl' : l'.IsFloat
    · obtain ⟨k', v, rfl⟩ := hl
      obtain ⟨k, v', rfl⟩ := hl'
      obtain ⟨rfl, hbits⟩ := floatKey_inj hkey
      have hcanonical : k.canonical v' = k.canonical v := BitVec.eq_of_toNat_eq hbits
      have hnan := k.isNaN_canonical v
      have hzero := k.magnitude_canonical v
      rw [← hcanonical, k.isNaN_canonical] at hnan
      rw [← hcanonical, k.magnitude_canonical] at hzero
      -- Apart from NaNs and zeros, a number is its own canonical form.
      by_cases hv : k.isNaN v
      · exact .inr (.nan (hnan.trans hv) hv)
      by_cases hv0 : k.magnitude v = 0
      · exact .inr (.zero (hzero.mpr hv0) hv0)
      rw [FloatKind.canonical, if_neg (hnan ▸ hv), if_neg (mt hzero.mp hv0), FloatKind.canonical,
        if_neg hv, if_neg hv0] at hcanonical
      exact .inl (by rw [hcanonical])
    · exact .inl (eq_of_key hl' hkey.symm).symm
  · exact .inl (eq_of_key hl hkey)

/-- A constant that is added is new, or stands for one that was there before. -/
theorem Pool.Valid.add_cases {p : Pool} (h : p.Valid) (c : Constant) :
    (p.add c).2.get? (p.add c).1 = some c ∨
      ∃ c', p.get? (p.add c).1 = some c' ∧ c'.key = c.key := by
  unfold Pool.add
  cases hfound : p.index[c.key]? with
  | some i => exact .inr ((h c.key i).mp hfound)
  | none => exact .inl (by simp [get?])

namespace Journal

variable {s t : Journal} {code : List Instr}

theorem Reaches.constants (h : Reaches s t) : s.emitter.constants.Extends t.emitter.constants ∧
    (s.emitter.constants.Valid → t.emitter.constants.Valid) := by
  induction h with
  | refl => exact ⟨.refl _, id⟩
  | perform _ ha ih =>
    obtain ⟨hconsts, hvalid⟩ := constants_perform ha _
    exact ⟨ih.1.trans hconsts, hvalid ∘ ih.2⟩
  | rollback _ _ ih ih' => exact ⟨ih.1.trans ih'.1, ih'.2 ∘ ih.2⟩

/-- An instruction that is accepted and no jump stays in the code, whatever comes later. -/
theorem Reaches.fetch_straight {a : Emitter.Action} (ha : a.WellFormed) (hstraight : a.Straight)
    (hs : s.Sound code) (hok : (a.emitting.outcome s.emitter).1 = .ok ())
    (h : Reaches (s.perform a) t)
    {m : Method} (hm : m.chunk = t.emitter.chunk) : ∃ i,
      a.instr? s.emitter.offset (a.place s.emitter) = some i ∧ m.fetch? s.emitter.offset = some i ∧
        i.next = (s.perform a).emitter.offset := by
  obtain ⟨i, more, hi, hw, -, hcase⟩ := a.writes_emitting ha hstraight s.emitter
  rcases hcase with ⟨hfits, -, rfl⟩ | ⟨-, ⟨err, herr⟩, -⟩
  · have hoff := Emitter.Action.offset_instr? hi
    have hjumps := a.jumps_of_straight hstraight s.emitter
    have hsound : (s.perform a).Sound (code ++ [i]) := by
      rw [Journal.perform, hjumps, List.append_nil]
      exact hs.writes hw
    obtain ⟨code', ht, hlater⟩ := h.sound hsound
    obtain ⟨f, more, rfl, hf⟩ := hlater.code
    have hmem : i ∈ code ++ [i] := by simp
    -- Later marks fill in targets of four bytes, and only jumps have one.
    have hfi : f i = i := by
      rcases hf i hmem with hf | ⟨hwaits, -⟩
      · exact hf
      · exact absurd (hsound.operandSize_of_waits hmem hwaits)
          (Emitter.Action.operandSize_instr? ha hstraight hi)
    have hfetch : m.fetch? (f i).offset = some (f i) :=
      (hm ▸ ht.holds).fetch (List.mem_append_left _ (List.mem_map_of_mem hmem))
    rw [hfi, hoff] at hfetch
    refine ⟨i, hi, hfetch, ?_⟩
    show i.next = Chunk.size (a.emitting.outcome s.emitter).2.chunk
    rw [hw.chunk, Chunk.size_writeBytes, Instr.next, hoff]
    simp [Instr.length_bytes, Emitter.offset, Nat.add_assoc]
  · rw [hok] at herr
    cases herr

/-- What a pool keeps for a literal: the literal itself, or an earlier one that is merged with
it. -/
theorem Reaches.kept_literal {l : Literal} (hvalid : s.emitter.constants.Valid)
    (hl : Emitter.Action.constant? (.literal l) = some (.literal l))
    (h : Reaches (s.perform (.literal l)) t) :
    ∃ l', t.emitter.constants.literal? (s.emitter.constants.add (.literal l)).1 = some l' ∧
      (l' = l ∨ l'.Merged l ∧ ∃ k, s.emitter.constants.literal? k = some l') := by
  have hperf : (s.perform (.literal l)).emitter.constants =
    (s.emitter.constants.add (.literal l)).2 := by
    obtain ⟨-, -, -, -, hconsts, -⟩ :=
      Emitter.Action.writes_emitting (a := .literal l) trivial trivial s.emitter
    rw [Journal.perform, hconsts, Emitter.Action.provide, hl]
    rfl
  have hext := h.constants.1
  rw [hperf] at hext
  rcases hvalid.add_cases (.literal l) with hget | ⟨c', hget, hkey⟩
  · exact ⟨l, hext.literal? (by simp [Pool.literal?, hget]), .inl rfl⟩
  · obtain ⟨l', rfl⟩ := Constant.eq_literal_of_key hkey
    have hl' : s.emitter.constants.literal? (s.emitter.constants.add (.literal l)).1 = some l' := by
      simp [Pool.literal?, hget]
    refine ⟨l', hext.literal? ((hvalid.add _).2.1.literal? hl'), ?_⟩
    exact (Constant.eq_or_merged_of_key hkey).imp_right fun hmerged => ⟨hmerged, _, hl'⟩

open Exec

/-- Whatever an emitter was asked for before and is asked for later, and whatever it takes back of
that: the instruction for a literal pushes the literal and goes on behind itself. Where a pool does
not tell two numbers apart, the one that was emitted first is pushed. -/
theorem literals_are_pushed {context : ContextId} {line : Nat} (hs : Reaches (start context line) s)
    {l : Literal} (hok : ((Emitter.emitLiteral l).outcome s.emitter).1 = .ok ())
    (ht : Reaches (s.perform (.literal l)) t) {p : Program} {u : State} {f : Frame}
    {rest : List Frame}
    (hf : u.frames = f :: rest) (hchunk : f.method.chunk = t.emitter.chunk)
    (hconstants : f.method.constants = t.emitter.constants)
    (hoffset : f.offset = s.emitter.offset) :
    ∃ l', step.exec p u =
        (.ok .running, u.moved (.lit l' :: f.stack) (s.perform (.literal l)).emitter.offset) ∧
      (l' = l ∨ l'.Merged l ∧ ∃ k, s.emitter.constants.literal? k = some l') := by
  obtain ⟨code, hsound, -⟩ := hs.sound (sound_start context line)
  have hvalid := hs.constants.2 Pool.valid_empty
  obtain ⟨i, hi, hfetch, hnext⟩ :=
    ht.fetch_straight (a := .literal l) trivial trivial hsound hok hchunk
  rw [← hoffset] at hfetch
  have hpush : ∀ l', i.pops = 0 → i.op ≠ .ret → i.op ≠ .retVoid →
      i.action p f.method u.heap rest.length [] = .ok (.push [.lit l']) →
      step.exec p u =
        (.ok .running, u.moved (.lit l' :: f.stack) (s.perform (.literal l)).emitter.offset) := by
    intro l' hpops hret hretVoid haction
    refine (step_iff_perform hf hfetch hret hretVoid (List.nil_append _).symm hpops.symm).mpr
      ⟨_, haction, ?_⟩
    rw [u.moved_eq hf, u.moved_eq hf, hnext]
    rfl
  have hpooled : Emitter.Action.constant? (.literal l) = some (.literal l) → ∀ wide,
      i = ⟨s.emitter.offset, .constant wide, (s.emitter.constants.add (.literal l)).1, 0⟩ →
      ∃ l', step.exec p u = (.ok .running, u.moved (.lit l' :: f.stack)
        (s.perform (.literal l)).emitter.offset) ∧
      (l' = l ∨ l'.Merged l ∧ ∃ k, s.emitter.constants.literal? k = some l') := by
    rintro hl wide rfl
    obtain ⟨l', hl', hkept⟩ := ht.kept_literal hvalid hl
    refine ⟨l', hpush l' rfl (by simp) (by simp) ?_, hkept⟩
    simp only [Instr.action, Method.literalAt, hconstants, hl']
    rfl
  cases l with
  | null =>
    cases hi
    exact ⟨.null, hpush .null rfl (by simp) (by simp) rfl, .inl rfl⟩
  | bool b =>
    cases hi
    exact ⟨.bool b, hpush (.bool b) rfl (by simp) (by simp) rfl, .inl rfl⟩
  | int kind v => exact hpooled rfl _ (Option.some.inj hi).symm
  | float kind v => exact hpooled rfl _ (Option.some.inj hi).symm
  | str text => exact hpooled rfl _ (Option.some.inj hi).symm

/-! ### Zeros of either sign -/

/-- A body that pushes two literals. -/
def pushing (l l' : Literal) : Journal := ((start ⟨0⟩ 1).perform (.literal l)).perform (.literal l')

/-- The body is run, at an offset. -/
def pushingAt (l l' : Literal) (offset : Nat) : State :=
  ⟨[⟨⟨default, (pushing l l').emitter.chunk, (pushing l l').emitter.constants, #[]⟩, #[], #[], [],
    offset, .host⟩], .empty, ∅, ∅⟩

/-- Numbers other than zeros are pushed as they are. -/
theorem numbers_are_pushed :
    step.exec default (pushingAt (.float .float64 1) (.float .float64 2) 2) = (.ok .running,
      (pushingAt (.float .float64 1) (.float .float64 2) 2).moved [.lit (.float .float64 2)]
        4) := by
  obtain ⟨l', hstep, rfl | ⟨hmerged, -⟩⟩ := literals_are_pushed (p := default)
    (u := pushingAt (.float .float64 1) (.float .float64 2) 2) (l := .float .float64 2)
    (s := (start ⟨0⟩ 1).perform (.literal (.float .float64 1))) (.perform .refl trivial)
    (by decide +kernel) .refl rfl rfl rfl rfl
  · exact hstep
  · cases hmerged with
    | zero _ hw => exact absurd hw (by decide)
    | nan _ hw => exact absurd hw (by decide)

/-- A negative zero behind a zero is pushed as the zero. -/
theorem negative_zero_is_pushed_as_zero :
    step.exec default (pushingAt (.float .float64 0) (.float .float64 0x8000000000000000) 2) =
      (.ok .running, (pushingAt (.float .float64 0) (.float .float64 0x8000000000000000) 2).moved
        [.lit (.float .float64 0)] 4) := by
  rfl

end Journal

end StackCode
