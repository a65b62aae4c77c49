/-
Doubles: their bits, and what rounds to them.

A float is determined by its bits (`ofBits_toBits`), and a finite one has its mantissa and its exponent in a canonical
form (`canonical_of_finite`). A number rounds to the double `m * 2 ^ q` if it is at most half a unit away from it; this
is said of rationals (`Rounds`), apart from how quotients are rounded.
-/
import Mathlib
import Reckoner.Decimal.Binary

namespace Reckoner.Decimal

/-! ## Bits -/

section
open Float.Model.UnpackedFloat

/-- sign, exponent and mantissa are slices of the bits -/
theorem toNat_unpackSign (b : BitVec 64) : (@unpackSign .binary64 b).toNat = b.toNat / 2 ^ 63 % 2 := by
  simp only [unpackSign, BitVec.toNat_cast, BitVec.extractLsb_toNat, Nat.shiftRight_eq_div_pow]

theorem toNat_unpackExponent (b : BitVec 64) : (@unpackExponent .binary64 b).toNat = b.toNat / 2 ^ 52 % 2 ^ 11 := by
  simp only [unpackExponent, BitVec.toNat_cast, BitVec.extractLsb_toNat, Nat.shiftRight_eq_div_pow]

theorem toNat_unpackMantissa (b : BitVec 64) : (@unpackMantissa .binary64 b).toNat = b.toNat % 2 ^ 52 := by
  simp only [unpackMantissa, BitVec.toNat_cast, BitVec.extractLsb_toNat, Nat.shiftRight_eq_div_pow, pow_zero, Nat.div_one]

theorem slices_append (b : BitVec 64) :
    BitVec.extractLsb 63 63 b ++ BitVec.extractLsb 62 52 b ++ BitVec.extractLsb 51 0 b = b := by
  apply BitVec.eq_of_getLsbD_eq
  intro i hi
  simp only [BitVec.getLsbD_append, BitVec.getLsbD_extractLsb]
  split_ifs with h1 h2
  · simp
    omega
  · have hplace : 52 + (i - 52) = i := by omega
    simp [hplace]
    omega
  · have hlast : i = 63 := by omega
    simp [hlast]

/-- sign, exponent and mantissa make up the bits -/
theorem components_append (b : BitVec 64) :
    packComponents .binary64 (.ofBitVec (@unpackSign .binary64 b)) (@unpackExponent .binary64 b)
      (@unpackMantissa .binary64 b) = b := by
  have hsign : ∀ s : BitVec 1, (Sign.ofBitVec s).toBitVec = s := by decide
  unfold packComponents
  rw [hsign]
  exact slices_append b

theorem pack_subnormal (s : Sign) {m : BitVec 52} (hm : 0 < m.toNat) :
    pack .binary64 (.finite s m.toNat (-1074) hm) = packComponents .binary64 s 0#11 m := by
  have hlog : m.toNat.log2 < 52 := (Nat.log2_lt hm.ne').2 m.isLt
  have hbits : m.toNat.log2 + 1 ≠ Float.Model.Format.mantissaBits .binary64 := by
    change _ ≠ 53
    omega
  unfold pack
  dsimp only
  rw [if_neg (by decide), if_neg hbits, BitVec.ofNat_toNat, BitVec.setWidth_eq]

/-- the bit in front of the fraction of a normal number -/
theorem toNat_leading_append (m : BitVec 52) : (1#1 ++ m).toNat = 2 ^ 52 + m.toNat := by
  rw [BitVec.toNat_append, ← Nat.shiftLeft_add_eq_or_of_lt m.isLt]
  rfl

theorem pack_normal (s : Sign) {e : BitVec 11} (m : BitVec 52) (he : e ≠ -1#11) (hm : 0 < (1#1 ++ m).toNat) :
    pack .binary64 (.finite s (1#1 ++ m).toNat ((e.toNat : Int) - 1075) hm) = packComponents .binary64 s e m := by
  have hlt : e.toNat < 2047 := by
    have hne : e.toNat ≠ 2047 := fun h => he (BitVec.eq_of_toNat_eq h)
    have := e.isLt
    omega
  have hm52 := m.isLt
  have hbits : (2 ^ 52 + m.toNat).log2 + 1 = Float.Model.Format.mantissaBits .binary64 := by
    have hlog : (2 ^ 52 + m.toNat).log2 = 52 := by
      rw [Nat.log2_eq_iff (by omega)]
      omega
    rw [hlog]
    rfl
  have hbiased : ((e.toNat : Int) - 1075 + Float.Model.Format.exponentBias .binary64 + (52 : Nat)).toNat = e.toNat := by
    change ((e.toNat : Int) - 1075 + 1023 + 52).toNat = e.toNat
    omega
  have hmantissa : BitVec.ofNat 52 (2 ^ 52 + m.toNat) = m := by
    apply BitVec.eq_of_toNat_eq
    rw [BitVec.toNat_ofNat, Nat.add_mod_left, Nat.mod_eq_of_lt m.isLt]
  unfold pack
  simp only [toNat_leading_append, hbiased, hbits, if_true, hmantissa, BitVec.ofNat_toNat, BitVec.setWidth_eq]
  rw [if_neg (by omega)]

/-- bits taken apart and put together again -/
theorem pack_unpack {b : BitVec 64} (hvalid : Float.Model.Format.Valid .binary64 b) :
    pack .binary64 (unpack .binary64 b) = b := by
  have hb := components_append b
  unfold unpack
  dsimp only
  split
  · next he =>
    split
    · next hm =>
      rw [he, hm] at hb
      exact hb
    · next hm => exact (hvalid.eq_packedNaN he hm).symm
  · next he =>
    split
    · next hzero =>
      rw [hzero] at hb ⊢
      split
      · next hm =>
        rw [hm] at hb
        exact hb
      · exact (pack_subnormal _ _).trans hb
    · exact (pack_normal _ _ he _).trans hb

end

theorem ofBits_toBits (x : Float) : Float.ofBits x.toBits = x := by
  obtain ⟨⟨bits, hvalid⟩⟩ := x
  simp only [Float.ofBits, Float.toBits, Float.Model.ofBits, Float.Model.pack, pack_unpack hvalid]

/-! ## Finite doubles -/

/-- Mantissa and exponent of a double: a normal one has all its 53 bits, and one with fewer has the least exponent. -/
structure Canonical (m : Nat) (q : Int) : Prop where
  mantissa_lt : m < 2 ^ 53
  least_le : leastExponent ≤ q
  le_greatest : q ≤ 971
  normal : q = leastExponent ∨ 2 ^ 52 ≤ m

theorem canonical_of_finite {x : Float} {negative : Bool} {m : Nat} {q : Int}
    (h : Double.of x = .finite negative m q) : Canonical m q := by
  have h52 : pow2 52 = 4503599627370496 := rfl
  have h11 : pow2 11 = 2048 := rfl
  unfold Double.of Double.ofBits at h
  generalize x.toBits.toNat = bits at h
  simp only [h52, h11] at h
  split_ifs at h with hinfinite hnan hzero
  · obtain ⟨-, rfl, rfl⟩ := Double.finite.inj h
    exact ⟨by omega, le_refl _, by decide, .inl rfl⟩
  · obtain ⟨-, rfl, rfl⟩ := Double.finite.inj h
    unfold leastExponent
    refine ⟨by omega, ?_, by omega, .inr (by omega)⟩
    unfold leastExponent
    omega

/-! ## Quotients and powers of two -/

theorem cast_pow2 {n : Int} (h : 0 ≤ n) : ((pow2 n.toNat : Nat) : ℚ) = 2 ^ n := by
  obtain ⟨k, rfl⟩ := Int.eq_ofNat_of_zero_le h
  simp [pow2]

/-- the quotient `num / (den * 2 ^ q)` as a quotient of naturals -/
theorem scaled_quotient (num den : Nat) (q : Int) :
    (if 0 ≤ q then (num / (den * pow2 q.toNat : Nat) : ℚ) else ((num * pow2 (-q).toNat : Nat) / den : ℚ)) =
      (num / den : ℚ) / 2 ^ q := by
  split_ifs with h
  · rw [Nat.cast_mul, cast_pow2 h, div_div]
  · rw [Nat.cast_mul, cast_pow2 (by omega), zpow_neg]
    field_simp

theorem floorLog2_spec {num den : Nat} (hnum : 0 < num) (hden : 0 < den) :
    (2 : ℚ) ^ floorLog2 num den ≤ num / den ∧ (num / den : ℚ) < 2 ^ (floorLog2 num den + 1) := by
  have hden' : (0 : ℚ) < den := by exact_mod_cast hden
  -- a quotient of two numbers of known length
  have hn1 : (2 : ℚ) ^ num.log2 ≤ num := by exact_mod_cast Nat.log2_self_le hnum.ne'
  have hn2 : (num : ℚ) < 2 ^ (num.log2 + 1) := by exact_mod_cast Nat.lt_log2_self
  have hd1 : (2 : ℚ) ^ den.log2 ≤ den := by exact_mod_cast Nat.log2_self_le hden.ne'
  have hd2 : (den : ℚ) < 2 ^ (den.log2 + 1) := by exact_mod_cast Nat.lt_log2_self
  have hreaches : (if 0 ≤ (num.log2 : Int) - den.log2 then den * pow2 ((num.log2 : Int) - den.log2).toNat ≤ num
      else den ≤ num * pow2 (-((num.log2 : Int) - den.log2)).toNat) ↔
      (2 : ℚ) ^ ((num.log2 : Int) - den.log2) ≤ num / den := by
    rw [le_div_iff₀ hden']
    split_ifs with h
    · rw [← cast_pow2 h, mul_comm]
      exact_mod_cast Iff.rfl
    · have hp : (2 : ℚ) ^ ((num.log2 : Int) - den.log2) =
          ((pow2 (-((num.log2 : Int) - den.log2)).toNat : Nat) : ℚ)⁻¹ := by
        rw [cast_pow2 (by omega), zpow_neg, inv_inv]
      have hpos : (0 : ℚ) < (pow2 (-((num.log2 : Int) - den.log2)).toNat : Nat) := by
        rw [cast_pow2 (by omega)]
        positivity
      rw [hp, inv_mul_le_iff₀ hpos, mul_comm num]
      exact_mod_cast Iff.rfl
  have hbelow : (2 : ℚ) ^ ((num.log2 : Int) - den.log2 - 1) ≤ num / den := by
    rw [le_div_iff₀ hden']
    calc (2 : ℚ) ^ ((num.log2 : Int) - den.log2 - 1) * den
        ≤ 2 ^ ((num.log2 : Int) - den.log2 - 1) * 2 ^ ((den.log2 : Int) + 1) := by
          gcongr
          exact_mod_cast hd2.le
      _ = 2 ^ (num.log2 : Int) := by
          rw [← zpow_add₀ two_ne_zero]
          congr 1
          ring
      _ ≤ num := by exact_mod_cast hn1
  have habove : (num / den : ℚ) < 2 ^ ((num.log2 : Int) - den.log2 + 1) := by
    rw [div_lt_iff₀ hden']
    calc (num : ℚ) < 2 ^ ((num.log2 : Int) + 1) := by exact_mod_cast hn2
      _ = 2 ^ ((num.log2 : Int) - den.log2 + 1) * 2 ^ (den.log2 : Int) := by
          rw [← zpow_add₀ two_ne_zero]
          congr 1
          ring
      _ ≤ 2 ^ ((num.log2 : Int) - den.log2 + 1) * den := by
          gcongr
          exact_mod_cast hd1
  unfold floorLog2
  dsimp only
  by_cases h : (2 : ℚ) ^ ((num.log2 : Int) - den.log2) ≤ num / den
  · rw [if_pos (hreaches.2 h)]
    exact ⟨h, habove⟩
  · rw [if_neg (mt hreaches.1 h), sub_add_cancel]
    exact ⟨hbelow, not_le.1 h⟩

/-! ## What rounds to a double -/

/-- A number that rounds to `m * 2 ^ q`: it is at most half a unit away, and less if `m` is odd. At the start of a binade
the lower neighbour is nearer. -/
structure Rounds (m : Nat) (q : Int) (v : ℚ) : Prop where
  low : (2 * m - 1) * 2 ^ q ≤ 2 * v
  high : 2 * v ≤ (2 * m + 1) * 2 ^ q
  odd : m % 2 = 1 → (2 * m - 1) * 2 ^ q < 2 * v ∧ 2 * v < (2 * m + 1) * 2 ^ q
  binade : m = 2 ^ 52 → leastExponent < q → (4 * m - 1) * 2 ^ q ≤ 4 * v

theorem rounds_self {m : Nat} {q : Int} : Rounds m q (m * 2 ^ q) := by
  have hunit : (0 : ℚ) < 2 ^ q := by positivity
  constructor
  · linarith
  · linarith
  · intro _
    constructor <;> linarith
  · intro _ _
    linarith

end Reckoner.Decimal
