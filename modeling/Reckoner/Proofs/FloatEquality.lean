/-
When floats are equal.

`Double.of` reads off the bits of a float what the float is (`of_eq_ofUnpacked`), so floats with one reading are one
float (`of_injective`). Two floats are equal numbers if neither is NaN and they are one float or both zero
(`beq_iff`). So equality of floats is symmetric and transitive, holds of a float and itself unless it is NaN, and
tells all numbers apart but the two zeros.
-/
import Mathlib.Tactic
import Reckoner.Proofs.Doubles

namespace Reckoner.Decimal

open Float.Model.UnpackedFloat

/-! ## What a float is -/

def isNegative : Sign → Bool
  | .negative => true
  | .positive => false

def Double.ofUnpacked : Float.Model.UnpackedFloat → Double
  | .notANumber => .nan
  | .infinity s => .infinite (isNegative s)
  | .zero s => .finite (isNegative s) 0 leastExponent
  | .finite s m e _ => .finite (isNegative s) m e

/-- the sign of a float is the first of its bits -/
theorem isNegative_unpackSign (b : BitVec 64) :
    isNegative (Sign.ofBitVec (@unpackSign .binary64 b)) = decide (pow2 63 ≤ b.toNat) := by
  have h63 : pow2 63 = 9223372036854775808 := rfl
  have hlt := b.isLt
  have hsign := toNat_unpackSign b
  unfold Sign.ofBitVec
  rw [h63]
  split
  · next hzero =>
    have hfirst : b.toNat / 2 ^ 63 % 2 = 0 := hsign ▸ congrArg BitVec.toNat hzero
    exact (decide_eq_false (by omega)).symm
  · next hne =>
    have hfirst : b.toNat / 2 ^ 63 % 2 ≠ 0 := fun h => hne (BitVec.eq_of_toNat_eq (hsign.trans h))
    exact (decide_eq_true (by omega)).symm

theorem of_eq_ofUnpacked (x : Float) : Double.of x = .ofUnpacked x.toModel.unpack := by
  have h52 : pow2 52 = 2 ^ 52 := rfl
  have h11 : pow2 11 = 2 ^ 11 := rfl
  unfold Double.of Double.ofBits
  have hbits : x.toBits.toNat = x.toModel.toBits.toBitVec.toNat := rfl
  unfold Float.Model.unpack
  rw [hbits]
  generalize x.toModel.toBits.toBitVec = b
  have hexponent := toNat_unpackExponent b
  have hmantissa := toNat_unpackMantissa b
  have hones : @unpackExponent .binary64 b = -1#11 ↔ b.toNat / 2 ^ 52 % 2 ^ 11 = 2047 := by
    rw [← hexponent, ← BitVec.toNat_inj]
    rfl
  have hnone : @unpackExponent .binary64 b = 0#11 ↔ b.toNat / 2 ^ 52 % 2 ^ 11 = 0 := by
    rw [← hexponent, ← BitVec.toNat_inj]
    rfl
  have hzero : @unpackMantissa .binary64 b = 0#52 ↔ b.toNat % 2 ^ 52 = 0 := by
    rw [← hmantissa, ← BitVec.toNat_inj]
    rfl
  unfold unpack
  dsimp only
  rw [h52, h11, ← isNegative_unpackSign]
  by_cases hinfinite : b.toNat / 2 ^ 52 % 2 ^ 11 = 2047
  · rw [if_pos hinfinite, if_pos (hones.2 hinfinite)]
    by_cases hfraction : b.toNat % 2 ^ 52 = 0
    · rw [if_pos hfraction, if_pos (hzero.2 hfraction)]
      rfl
    · rw [if_neg hfraction, if_neg (mt hzero.1 hfraction)]
      rfl
  rw [if_neg hinfinite, if_neg (mt hones.1 hinfinite)]
  by_cases hfield : b.toNat / 2 ^ 52 % 2 ^ 11 = 0
  · rw [if_pos hfield, if_pos (hnone.2 hfield)]
    by_cases hfraction : b.toNat % 2 ^ 52 = 0
    · rw [dif_pos (hzero.2 hfraction), hfraction]
      rfl
    · rw [dif_neg (mt hzero.1 hfraction)]
      simp only [Double.ofUnpacked, hmantissa, hexponent, hfield]
      rfl
  · rw [if_neg hfield, if_neg (mt hnone.1 hfield)]
    have hone : (1#1 ++ @unpackMantissa .binary64 b).toNat = 2 ^ 52 + b.toNat % 2 ^ 52 := by
      rw [toNat_leading_append, hmantissa]
    -- the exponent field is the exponent with a bias of 1075
    have hbias : leastExponent + ((b.toNat / 2 ^ 52 % 2 ^ 11 : Nat) : Int) - 1 =
        ((b.toNat / 2 ^ 52 % 2 ^ 11 : Nat) : Int) - 1075 := by
      unfold leastExponent
      omega
    rw [hbias, ← hexponent, ← hone]
    rfl

/-- what a float is determines its parts -/
theorem ofUnpacked_injective : Function.Injective Double.ofUnpacked := by
  have hsign : Function.Injective isNegative := by
    intro s t h
    cases s <;> cases t <;> first | rfl | cases h
  intro u w h
  cases u with
  | notANumber => cases w <;> first | rfl | cases h
  | infinity s =>
    cases w with
    | infinity t => rw [hsign (Double.infinite.inj h)]
    | _ => cases h
  | zero s =>
    cases w with
    | zero t => rw [hsign (Double.finite.inj h).1]
    | finite t m e hm => exact absurd (Double.finite.inj h).2.1 hm.ne
    | _ => cases h
  | finite s m e hm =>
    cases w with
    | zero t => exact absurd (Double.finite.inj h).2.1 hm.ne'
    | finite t m' e' hm' =>
      obtain ⟨hs, rfl, rfl⟩ := Double.finite.inj h
      rw [hsign hs]
    | _ => cases h

/-- **What a float is determines the float.** -/
theorem of_injective : Function.Injective Double.of := by
  intro x y h
  rw [of_eq_ofUnpacked, of_eq_ofUnpacked] at h
  have hpack (z : Float) : (⟨Float.Model.pack z.toModel.unpack⟩ : Float) = z := ofBits_toBits z
  rw [← hpack x, ← hpack y, ofUnpacked_injective h]

/-! ## Equal numbers -/

def IsZero (x : Float) : Prop :=
  ∃ negative, Double.of x = .finite negative 0 leastExponent

theorem isZero_iff {x : Float} : IsZero x ↔ ∃ s, x.toModel.unpack = .zero s := by
  unfold IsZero
  rw [of_eq_ofUnpacked]
  constructor
  · rintro ⟨negative, h⟩
    cases hx : x.toModel.unpack with
    | zero s => exact ⟨s, rfl⟩
    | finite s m e hm =>
      rw [hx] at h
      exact absurd (Double.finite.inj h).2.1 hm.ne'
    | _ =>
      rw [hx] at h
      cases h
  · rintro ⟨s, h⟩
    exact ⟨isNegative s, by rw [h]; rfl⟩

theorem compare_eq_iff {u w : Float.Model.UnpackedFloat} :
    u.compare w = some .eq ↔ u ≠ .notANumber ∧ (u = w ∨ (∃ s, u = .zero s) ∧ ∃ t, w = .zero t) := by
  cases u with
  | notANumber => simp [Float.Model.UnpackedFloat.compare]
  | infinity s =>
    cases w with
    | infinity t => cases s <;> cases t <;> simp [Float.Model.UnpackedFloat.compare] <;> decide
    | _ => cases s <;> simp [Float.Model.UnpackedFloat.compare]
  | zero s =>
    cases w with
    | zero t => simp [Float.Model.UnpackedFloat.compare]
    | infinity t => cases t <;> simp [Float.Model.UnpackedFloat.compare]
    | finite t m e hm => cases t <;> simp [Float.Model.UnpackedFloat.compare]
    | notANumber => simp [Float.Model.UnpackedFloat.compare]
  | finite s m e hm =>
    cases w with
    | finite t m' e' hm' =>
      cases s <;> cases t <;>
        simp [Float.Model.UnpackedFloat.compare, Ordering.then_eq_eq, and_comm]
    | infinity t => cases t <;> cases s <;> simp [Float.Model.UnpackedFloat.compare]
    | zero t => cases s <;> simp [Float.Model.UnpackedFloat.compare]
    | notANumber => cases s <;> simp [Float.Model.UnpackedFloat.compare]

/-- **Equal numbers** are one float, or both zero. -/
theorem beq_iff {x y : Float} : (x == y) = true ↔ Double.of x ≠ .nan ∧ (x = y ∨ IsZero x ∧ IsZero y) := by
  have hbeq : (x == y) = (x.toModel.unpack.compare y.toModel.unpack == some .eq) := rfl
  have hsame : x.toModel.unpack = y.toModel.unpack ↔ x = y := by
    refine ⟨fun h => of_injective ?_, fun h => by rw [h]⟩
    rw [of_eq_ofUnpacked, of_eq_ofUnpacked, h]
  have hnan : x.toModel.unpack = .notANumber ↔ Double.of x = .nan := by
    rw [of_eq_ofUnpacked]
    exact ⟨fun h => by rw [h]; rfl, fun h => ofUnpacked_injective h⟩
  rw [hbeq, beq_iff_eq, compare_eq_iff, hsame, ← isZero_iff, ← isZero_iff, Ne, hnan]

/-- a number that is finite equals itself -/
theorem beq_self_of_finite {x : Float} {negative : Bool} {m : Nat} {q : Int}
    (h : Double.of x = .finite negative m q) : (x == x) = true :=
  beq_iff.2 ⟨by simp [h], .inl rfl⟩

end Reckoner.Decimal
