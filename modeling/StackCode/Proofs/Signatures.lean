import Mathlib.Data.Fintype.EquivFin
import StackCode.Proofs.MethodLookup

/-!
# Signatures that differ in one component

The hash of a signature is an injective function of each of its components while the others stay
fixed. Mixing in a parameter is a multiplication by an odd number, which has an inverse modulo 2⁶⁴,
and an addition. So a difference that enters at one position is carried through all later ones,
however many there are.
-/

namespace StackCode.TypeHash

open List Function

variable {ps qs : List TypeHash}

/-! ### One changed parameter -/

/-- Lists of one length that differ at exactly one position. -/
def DifferOnce (ps qs : List TypeHash) : Prop := ps.length = qs.length ∧ ∃! i : Nat, ps[i]? ≠ qs[i]?

theorem DifferOnce.split (h : DifferOnce ps qs) :
    ∃ before after p q, p ≠ q ∧ ps = before ++ p :: after ∧ qs = before ++ q :: after := by
  obtain ⟨hlen, i, hi, honly⟩ := h
  have hps : i < ps.length := by
    by_contra hge
    exact hi (by rw [getElem?_eq_none (by omega), getElem?_eq_none (by omega)])
  have hqs : i < qs.length := hlen ▸ hps
  have hset : qs = ps.set i qs[i] := by
    apply ext_getElem?
    intro j
    rcases eq_or_ne i j with rfl | hne
    · rw [getElem?_set_self hps, getElem?_eq_getElem hqs]
    · rw [getElem?_set_ne hne]
      exact (not_not.mp fun hj => hne (honly j hj).symm).symm
  refine ⟨ps.take i, ps.drop (i + 1), ps[i], qs[i], ?_, ?_, ?_⟩
  · rwa [getElem?_eq_getElem hps, getElem?_eq_getElem hqs, Ne, Option.some_inj] at hi
  · rw [getElem_cons_drop, take_append_drop]
  · rwa [set_eq_take_append_cons_drop, if_pos hps] at hset

theorem DifferOnce.mix_ne (hdiffer : DifferOnce ps qs) (h : UInt64) : mix h ps ≠ mix h qs := by
  -- Up to the position the words agree; from there on the mixing is injective in the word.
  obtain ⟨before, after, p, q, hne, rfl, rfl⟩ := hdiffer.split
  exact fun heq => hne (mixFrom_param_inj heq)

/-! ### Words -/

/-- Words are finitely many, so that a map that takes no two of them to one reaches all of them. -/
theorem mix_bijective (params : List TypeHash) : Bijective (mix · params) := by
  have hfinite : Finite UInt64 := .of_injective UInt64.toFin fun _ _ => UInt64.toFin_inj.mp
  exact Finite.injective_iff_bijective.mp fun _ _ => mixFrom_inj

/-- A bit of a word stands 17 places higher after the rotation, or 47 places lower. -/
theorem rotateLeft_injective : Injective (Xxh64.rotateLeft · 17) := by
  intro x y h
  have hbit (k : Nat) := congrArg (fun z : UInt64 => z.toBitVec.getLsbD k) h
  simp only [Xxh64.rotateLeft, UInt64.toBitVec_or, UInt64.toBitVec_shiftLeft,
    UInt64.toBitVec_shiftRight,
    BitVec.getLsbD_or] at hbit
  apply UInt64.toBitVec_inj.mp
  apply BitVec.eq_of_getLsbD_eq
  intro k hk
  rcases Nat.lt_or_ge k 47 with hlow | hhigh
  · have hout (z : UInt64) : z.toBitVec.getLsbD (47 + (k + 17)) = false :=
      BitVec.getLsbD_of_ge _ _ (by omega)
    simpa [hlow, hk, hout, show k + 17 < 64 by omega, show ¬k + 17 < 17 by omega] using hbit
      (k + 17)
  · simpa [show k - 47 < 17 by omega, Nat.add_sub_of_le hhigh] using hbit (k - 47)

/-! ### Hashes -/

/-- Signatures that differ in one component have different hashes, for parameters of any number. -/
theorem signature_hashes_are_injective :
    (∀ params, Bijective (mix · params)) ∧
    (∀ h ps qs, DifferOnce ps qs → mix h ps ≠ mix h qs) ∧
    (∀ params, Injective (ofConstructor · params)) ∧
    (∀ name params, Injective (ofMethod · name params)) ∧
    (∀ name, Injective (ofField · name)) ∧
    (∀ owner name params, Injective (ofOperator owner name params)) ∧
    (∀ ps qs, DifferOnce ps qs →
      (∀ name, ofFunction name ps ≠ ofFunction name qs) ∧
      (∀ owner name, ofMethod owner name ps ≠ ofMethod owner name qs) ∧
      (∀ owner, ofConstructor owner ps ≠ ofConstructor owner qs) ∧
      ∀ owner name returns, ofOperator owner name ps returns ≠ ofOperator owner name qs returns) ∧
    Injective arrayOf := by
  refine ⟨mix_bijective, fun h ps qs hd => hd.mix_ne h, ?_, fun name params _ _ =>
    ofMethod_owner_inj, ?_, ?_, ?_, ?_⟩
  · intro params a b h
    exact bits_injective ((UInt64.xor_right_inj _).mp (mixFrom_inj (congrArg bits h)))
  · intro name a b h
    have hbits := (UInt64.xor_right_inj _).mp ((UInt64.xor_left_inj _).mp (congrArg bits h))
    exact bits_injective (rotateLeft_injective hbits)
  · intro owner name params a b h
    exact bits_injective ((UInt64.xor_right_inj _).mp (congrArg bits h))
  · intro ps qs hd
    refine ⟨fun name h => hd.mix_ne _ (congrArg bits h), fun owner name h =>
      hd.mix_ne _ (congrArg bits h),
      fun owner h => hd.mix_ne _ (congrArg bits h), fun owner name returns h => ?_⟩
    have hbits := (UInt64.xor_left_inj _).mp (congrArg bits h)
    exact hd.mix_ne _ (mul_separator_inj hbits)
  · intro a b h
    have hmix : mix arrayDomain ([] ++ [a]) = mix arrayDomain ([] ++ [b]) := congrArg bits h
    exact mixFrom_param_inj hmix

/-- A parameter is changed behind the sixteen positions that have markers of their own. -/
theorem late_parameters_differ_once :
    DifferOnce (replicate 20 empty) ((replicate 20 empty).set 18 ⟨1⟩) ∧
    ofFunction "f" (replicate 20 empty) ≠ ofFunction "f" ((replicate 20 empty).set 18 ⟨1⟩) := by
  have hd : DifferOnce (replicate 20 empty) ((replicate 20 empty).set 18 ⟨1⟩) := by
    refine ⟨by decide, 18, by decide, fun j hj => ?_⟩
    by_contra hne
    exact hj (getElem?_set_ne (Ne.symm hne)).symm
  exact ⟨hd, (signature_hashes_are_injective.2.2.2.2.2.2.1 _ _ hd).1 "f"⟩

end StackCode.TypeHash
