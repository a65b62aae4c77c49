/-
Whole numbers as doubles, and doubles as 32-bit words, as `to_i32` makes them.

A whole number of at most 53 bits is a double (`isWhole_ofInt`): its digits are moved up until the mantissa is full, and
no rounding on the way loses any of them (`Normal.roundWithAccuracy`). The other way, a double is truncated toward zero and
saturated (`truncates_iff`); this is said of the rational that it is, apart from how mantissas are shifted. So a word
that becomes a double becomes the same word again (`toWord_ofInt`).
-/
import Mathlib.Tactic
import Reckoner.Expr.Eval
import Reckoner.Proofs.FloatEquality

namespace Reckoner.Decimal

def Double.number (negative : Bool) (m : Nat) (q : Int) : ℚ :=
  (if negative then -1 else 1) * (m * 2 ^ q)

/-- the float is finite, and exactly this number -/
def IsExactly (x : Float) (v : ℚ) : Prop :=
  ∃ negative m q, Double.of x = .finite negative m q ∧ Double.number negative m q = v

/-! ## Normal numbers -/

/-- mantissa and exponent of a normal double: the mantissa has all its 53 bits -/
structure Normal (m : Nat) (q : Int) : Prop where
  le_mantissa : 2 ^ 52 ≤ m
  mantissa_lt : m < 2 ^ 53
  least_le : leastExponent ≤ q
  le_greatest : q ≤ 971

namespace Normal

variable {m : Nat} {q : Int} (h : Normal m q)
include h

theorem pos : 0 < m :=
  lt_of_lt_of_le (by decide) h.le_mantissa

theorem log2_eq : m.log2 = 52 :=
  (Nat.log2_eq_iff h.pos.ne').2 ⟨h.le_mantissa, h.mantissa_lt⟩

end Normal

section
open Float.Model.UnpackedFloat

theorem unpackSign_packComponents (s : Sign) (e : BitVec 11) (m : BitVec 52) :
    @unpackSign .binary64 (packComponents .binary64 s e m) = s.toBitVec := by
  apply BitVec.eq_of_getLsbD_eq
  intro i hi
  obtain rfl : i = 0 := by omega
  have hfirst : (s.toBitVec ++ e ++ m).getLsbD 63 = s.toBitVec.getLsbD 0 := by
    rw [BitVec.getLsbD_append, BitVec.getLsbD_append]
    rfl
  simp only [unpackSign, packComponents, BitVec.getLsbD_cast, BitVec.getLsbD_extractLsb]
  exact hfirst

theorem unpack_pack_fields (s : Sign) {e : BitVec 11} (m : BitVec 52) (hinfinite : e ≠ -1#11) (hsubnormal : e ≠ 0#11)
    (hm : 0 < (1#1 ++ m).toNat) :
    unpack .binary64 (pack .binary64 (.finite s (1#1 ++ m).toNat ((e.toNat : Int) - 1075) hm)) =
      .finite s (1#1 ++ m).toNat ((e.toNat : Int) - 1075) hm := by
  have hsign : Sign.ofBitVec s.toBitVec = s := by cases s <;> rfl
  rw [pack_normal s m hinfinite hm]
  unfold unpack
  simp only [unpackMantissa_packComponents, unpackExponent_packComponents, unpackSign_packComponents, hinfinite, hsubnormal,
    if_false, hsign]
  rfl

/-- a normal number is kept when it is packed -/
theorem Normal.unpack_pack (s : Sign) {m : Nat} {q : Int} (h : Normal m q) :
    Float.Model.unpack (Float.Model.pack (.finite s m q h.pos)) = .finite s m q h.pos := by
  have h1074 : leastExponent = -1074 := rfl
  obtain ⟨hlow, hhigh, hleast, hgreatest⟩ := h
  -- the exponent field and the fraction field
  obtain ⟨e, rfl⟩ : ∃ e : BitVec 11, q = (e.toNat : Int) - 1075 := by
    refine ⟨BitVec.ofNat 11 (q + 1075).toNat, ?_⟩
    rw [BitVec.toNat_ofNat, Nat.mod_eq_of_lt (by omega)]
    omega
  obtain ⟨f, rfl⟩ : ∃ f : BitVec 52, m = (1#1 ++ f).toNat := by
    refine ⟨BitVec.ofNat 52 (m - 2 ^ 52), ?_⟩
    rw [toNat_leading_append, BitVec.toNat_ofNat, Nat.mod_eq_of_lt (by omega)]
    omega
  apply unpack_pack_fields
  · rintro rfl
    exact absurd hgreatest (by decide)
  · rintro rfl
    exact absurd hleast (by decide)

/-! ## Rounding what needs none -/

/-- zeros at the end are shifted out, and nothing is lost -/
theorem shiftRight_zeros (m k : Nat) :
    (k.repeat ExtendedMantissa.shiftRightOne ⟨m * 2 ^ k, false, false⟩) = ⟨m, false, false⟩ := by
  induction k generalizing m with
  | zero => simp [Nat.repeat]
  | succ k ih =>
    have hdouble : m * 2 ^ (k + 1) = m * 2 * 2 ^ k := by ring
    rw [Nat.repeat, hdouble, ih]
    simp [ExtendedMantissa.shiftRightOne]

theorem log2_mul_pow {m : Nat} (hm : m ≠ 0) (k : Nat) : (m * 2 ^ k).log2 = m.log2 + k := by
  obtain ⟨hlow, hhigh⟩ := (Nat.log2_eq_iff hm).1 rfl
  rw [Nat.log2_eq_iff (by positivity)]
  constructor
  · calc 2 ^ (m.log2 + k) = 2 ^ m.log2 * 2 ^ k := pow_add ..
      _ ≤ m * 2 ^ k := Nat.mul_le_mul_right _ hlow
  · calc m * 2 ^ k < 2 ^ (m.log2 + 1) * 2 ^ k := Nat.mul_lt_mul_of_pos_right hhigh (by positivity)
      _ = 2 ^ (m.log2 + k + 1) := by ring

theorem Normal.shiftToTargetExponent {m : Nat} {q : Int} (h : Normal m q) (k : Nat) :
    shiftToTargetExponent .binary64 (m * 2 ^ k) (q - k) .exact = (⟨m, false, false⟩, q) := by
  have h1074 : leastExponent = -1074 := rfl
  have hleast := h.least_le
  have htarget : Float.Model.Format.targetExponent .binary64 (Float.Model.totalExponent (m * 2 ^ k) (q - k)) = q := by
    change max (((m * 2 ^ k).log2 + 1 + (q - k)) - 53) (-1074) = q
    rw [log2_mul_pow h.pos.ne', h.log2_eq]
    omega
  have hamount : (q - (q - k)).toNat = k := by omega
  unfold Float.Model.UnpackedFloat.shiftToTargetExponent shiftToExponent
  simp only [htarget, hamount]
  exact Prod.ext (shiftRight_zeros m k) (by simp)

/-- A normal number is rounded to itself, also with zeros behind its mantissa. -/
theorem Normal.roundWithAccuracy {m : Nat} {q : Int} (h : Normal m q) (s : Sign) (k : Nat) :
    roundWithAccuracy .binary64 s (m * 2 ^ k) (q - k) .exact = .finite s m q h.pos := by
  have hfirst := h.shiftToTargetExponent k
  have hagain := h.shiftToTargetExponent 0
  rw [pow_zero, mul_one, Int.natCast_zero, sub_zero] at hagain
  unfold Float.Model.UnpackedFloat.roundWithAccuracy
  simp only [hfirst, ExtendedMantissa.roundedMantissa, ExtendedMantissa.accuracy, Accuracy.roundToNearestEven, hagain]
  rw [dif_neg h.pos.ne']

/-! ## Whole numbers -/

/-- a whole number moved up until it has 53 bits -/
def fullMantissa (n : Nat) : Nat :=
  n * 2 ^ (52 - n.log2)

def fullExponent (n : Nat) : Int :=
  n.log2 - 52

section
variable {n : Nat} (hpos : 0 < n) (hn : n < 2 ^ 53)
include hpos hn

theorem log2_le : n.log2 ≤ 52 :=
  Nat.le_of_lt_succ ((Nat.log2_lt hpos.ne').2 hn)

theorem normal_full : Normal (fullMantissa n) (fullExponent n) := by
  have h1074 : leastExponent = -1074 := rfl
  have hle := log2_le hpos hn
  have hlog : (fullMantissa n).log2 = 52 := by
    rw [fullMantissa, log2_mul_pow hpos.ne']
    omega
  have hne : fullMantissa n ≠ 0 := by
    unfold fullMantissa
    positivity
  obtain ⟨hlow, hhigh⟩ := (Nat.log2_eq_iff hne).1 hlog
  unfold fullExponent
  exact ⟨hlow, hhigh, by omega, by omega⟩

theorem full_value : (fullMantissa n : ℚ) * 2 ^ fullExponent n = n := by
  have hle := log2_le hpos hn
  have hexponent : fullExponent n = -((52 - n.log2 : Nat) : Int) := by
    unfold fullExponent
    omega
  rw [hexponent, zpow_neg, zpow_natCast, fullMantissa]
  push_cast
  field_simp

theorem normalize_natCast :
    Float.Model.UnpackedFloat.normalize .binary64 n 0 .positive =
      .finite .positive (fullMantissa n) (fullExponent n) (normal_full hpos hn).pos := by
  have hle := log2_le hpos hn
  have htarget : Float.Model.Format.targetExponent .binary64 (Float.Model.totalExponent n 0) = fullExponent n := by
    change max (((n.log2 : Int) + 1 + 0) - 53) (-1074) = (n.log2 : Int) - 52
    omega
  have hamount : (0 - fullExponent n).toNat = 52 - n.log2 := by
    unfold fullExponent
    omega
  have hexponent : 0 - ((52 - n.log2 : Nat) : Int) = fullExponent n := by
    unfold fullExponent
    omega
  have hcompare : compare (n : Int) 0 = .gt := Int.compare_eq_gt.2 (by exact_mod_cast hpos)
  unfold Float.Model.UnpackedFloat.normalize Float.Model.UnpackedFloat.round decreaseExponent
  simp only [hcompare, Int.toNat_natCast, htarget, hamount, hexponent, Nat.shiftLeft_eq]
  have hround := (normal_full hpos hn).roundWithAccuracy .positive 0
  rwa [pow_zero, mul_one, Int.natCast_zero, sub_zero] at hround

/-- the parts of a whole number that is a float -/
theorem unpack_ofNat :
    (Float.ofNat n).toModel.unpack =
      .finite .positive (fullMantissa n) (fullExponent n) (normal_full hpos hn).pos := by
  have hnormal := normal_full hpos hn
  have hword : n.toUInt64.toNat = n := Nat.mod_eq_of_lt (by omega)
  have hdouble : n.toUInt64.toFloat.toModel.unpack =
      .finite .positive (fullMantissa n) (fullExponent n) hnormal.pos := by
    change Float.Model.unpack
      (Float.Model.pack (Float.Model.UnpackedFloat.normalize .binary64 (n.toUInt64.toNat : Nat) 0 .positive)) = _
    rw [hword, normalize_natCast hpos hn, hnormal.unpack_pack]
  -- the number is multiplied by the power of ten for no digits, which is one
  have hone : (Float.ofBits 4607182418800017408).toModel.unpack = .finite .positive (2 ^ 52) (-52) (by decide) := rfl
  have hproduct : Float.ofNat n = n.toUInt64.toFloat * Float.ofBits 4607182418800017408 := by
    unfold Float.ofNat
    change Float.ofScientific n false 0 = _
    rw [Float.ofScientific, dif_pos ⟨hn, by decide⟩]
    rfl
  have hmul : mul .binary64 (.finite .positive (fullMantissa n) (fullExponent n) hnormal.pos)
      (.finite .positive (2 ^ 52) (-52) (by decide)) =
      .finite .positive (fullMantissa n) (fullExponent n) hnormal.pos := hnormal.roundWithAccuracy .positive 52
  rw [hproduct]
  change Float.Model.unpack (Float.Model.pack (mul .binary64 n.toUInt64.toFloat.toModel.unpack
    (Float.ofBits 4607182418800017408).toModel.unpack)) = _
  rw [hdouble, hone, hmul, hnormal.unpack_pack]

theorem unpack_neg_ofNat :
    (Float.neg (Float.ofNat n)).toModel.unpack =
      .finite .negative (fullMantissa n) (fullExponent n) (normal_full hpos hn).pos := by
  change Float.Model.unpack (Float.Model.pack (Float.ofNat n).toModel.unpack.neg) = _
  rw [unpack_ofNat hpos hn]
  exact (normal_full hpos hn).unpack_pack .negative

end

end

/-- the float is exactly this whole number, and the zero is the positive one -/
def IsWhole (x : Float) (n : Int) : Prop :=
  ∃ m q, Double.of x = .finite (decide (n < 0)) m q ∧ (m : ℚ) * 2 ^ q = n.natAbs

theorem IsWhole.isExactly {x : Float} {n : Int} (h : IsWhole x n) : IsExactly x n := by
  obtain ⟨m, q, hx, hvalue⟩ := h
  refine ⟨_, m, q, hx, ?_⟩
  rw [Double.number, hvalue, Nat.cast_natAbs]
  by_cases hn : n < 0
  · simp [hn, abs_of_neg hn]
  · simp [hn, abs_of_nonneg (not_lt.1 hn)]

/-- **A whole number of at most 53 bits is a double.** -/
theorem isWhole_ofInt {n : Int} (hn : n.natAbs < 2 ^ 53) : IsWhole (Float.ofInt n) n := by
  cases n with
  | ofNat n =>
    rcases Nat.eq_zero_or_pos n with rfl | hpos
    · exact ⟨0, leastExponent, by decide +kernel, by simp⟩
    · refine ⟨_, _, ?_, full_value hpos hn⟩
      rw [of_eq_ofUnpacked]
      exact congrArg Double.ofUnpacked (unpack_ofNat hpos hn)
  | negSucc n =>
    refine ⟨_, _, ?_, full_value n.succ_pos hn⟩
    rw [decide_eq_true (Int.negSucc_lt_zero n), of_eq_ofUnpacked]
    exact congrArg Double.ofUnpacked (unpack_neg_ofNat n.succ_pos hn)

/-! ## Truncation -/

def dropFraction (v : ℚ) : Int :=
  if 0 ≤ v then ⌊v⌋ else ⌈v⌉

/-- a whole number, or the end of the range of 32-bit integers that it lies beyond -/
def saturate (n : Int) : Int :=
  max (-2 ^ 31) (min n (2 ^ 31 - 1))

/-- The 32-bit integer that a float is truncated to: toward zero, the nearest end of the range if that is outside, and zero
for NaN. -/
inductive Truncates (x : Float) (w : Int32) : Prop where
  | nan (h : Double.of x = .nan) (hw : w.toInt = 0)
  | above (h : Double.of x = .infinite false) (hw : w.toInt = 2 ^ 31 - 1)
  | below (h : Double.of x = .infinite true) (hw : w.toInt = -2 ^ 31)
  | finite {v : ℚ} (h : IsExactly x v) (hw : w.toInt = saturate (dropFraction v))

theorem dropFraction_neg (v : ℚ) : dropFraction (-v) = -dropFraction v := by
  unfold dropFraction
  rcases lt_trichotomy v 0 with hneg | rfl | hpos
  · rw [if_pos (by linarith), if_neg (by linarith), Int.floor_neg]
  · simp
  · rw [if_neg (by linarith), if_pos hpos.le, Int.ceil_neg]

theorem dropFraction_intCast (n : Int) : dropFraction n = n := by
  unfold dropFraction
  split_ifs
  · exact Int.floor_intCast n
  · exact Int.ceil_intCast n

/-- shifting a mantissa drops the fraction -/
theorem truncate_eq (negative : Bool) (m : Nat) (q : Int) :
    Double.truncate negative m q = dropFraction (Double.number negative m q) := by
  have hsize : ((if 0 ≤ q then m * pow2 q.toNat else m / pow2 (-q).toNat : Nat) : Int) = dropFraction (m * 2 ^ q) := by
    have hnonneg : (0 : ℚ) ≤ m * 2 ^ q := by positivity
    rw [dropFraction, if_pos hnonneg]
    split_ifs with hq
    · rw [← cast_pow2 hq, ← Nat.cast_mul, Int.floor_natCast]
    · have hpow : (2 : ℚ) ^ q = ((pow2 (-q).toNat : Nat) : ℚ)⁻¹ := by
        rw [cast_pow2 (by omega), zpow_neg, inv_inv]
      rw [hpow, ← div_eq_mul_inv, Rat.floor_natCast_div_natCast, Int.natCast_div]
  unfold Double.truncate Double.number
  simp only [hsize]
  cases negative with
  | true => simp [dropFraction_neg]
  | false => simp

theorem toInt_ofIntClamp (n : Int) : (Int32.ofIntClamp n).toInt = saturate n := by
  unfold Int32.ofIntClamp saturate
  have hmin : Int32.minValue.toInt = -2 ^ 31 := rfl
  have hmax : Int32.maxValue.toInt = 2 ^ 31 - 1 := rfl
  split_ifs with hlow hhigh
  · rw [Int32.toInt_ofIntLE]
    omega
  · rw [hmax]
    omega
  · rw [hmin]
    omega

end Reckoner.Decimal

namespace Reckoner.Value

open Decimal

/-- **A double becomes the word that it is truncated to.** -/
theorem truncates_toWord (x : Float) : Truncates x (toWord x) := by
  unfold toWord
  split
  · next h => exact .nan h rfl
  · next negative h =>
    cases negative with
    | true => exact .below h rfl
    | false => exact .above h rfl
  · next negative m q h =>
    refine .finite ⟨negative, m, q, h, rfl⟩ ?_
    rw [toInt_ofIntClamp, truncate_eq]

/-- there is no other word that it is truncated to -/
theorem eq_toWord_of_truncates {x : Float} {w : Int32} (h : Truncates x w) : w = toWord x := by
  apply Int32.toInt_inj.1
  unfold toWord
  cases h with
  | nan h hw =>
    rw [h]
    exact hw
  | above h hw =>
    rw [h]
    exact hw
  | below h hw =>
    rw [h]
    exact hw
  | finite h hw =>
    obtain ⟨negative, m, q, h, rfl⟩ := h
    rw [h]
    simp only [toInt_ofIntClamp, truncate_eq, hw]

theorem truncates_iff {x : Float} {w : Int32} : Truncates x w ↔ w = toWord x := by
  constructor
  · exact eq_toWord_of_truncates
  · rintro rfl
    exact truncates_toWord x

/-- **A word that becomes a double becomes the same word again.** -/
theorem toWord_ofInt (n : Int32) : toWord (Float.ofInt n.toInt) = n := by
  have hlow := n.le_toInt
  have hhigh := n.toInt_lt
  have hwhole : IsWhole (Float.ofInt n.toInt) n.toInt := isWhole_ofInt (by omega)
  refine (eq_toWord_of_truncates (.finite hwhole.isExactly ?_)).symm
  rw [dropFraction_intCast, saturate]
  omega

end Reckoner.Value
