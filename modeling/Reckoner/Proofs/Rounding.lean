/-
Quotients are rounded to the nearest double.

`Nearest x v` says what it is for `x` to be the double that a number `v` that is not negative rounds to, in terms of
the finite doubles alone: none of them is nearer to `v`, and if another is as near, the mantissa of `x` is even. From
half a unit above the greatest of them on, `v` rounds to infinity.

At most one double is like this (`Nearest.unique`), and for a quotient `nearest` computes it (`nearest_quotient`): a
number that `Rounds` to a double is at most half a unit away from it, and any other double is a unit away, or half a
unit below the start of a binade (`Canonical.apart`).

Main statement: `nearest_iff_eq_read`, a numeral is read as the double nearest to the number that it stands for.
-/
import Mathlib
import Reckoner.Proofs.FloatEquality
import Reckoner.Proofs.Numerals

namespace Reckoner.Decimal

/-! ## The nearest double -/

/-- half a unit above the greatest finite double -/
def overflow : ℚ := (2 ^ 53 - 1 / 2) * 2 ^ (971 : Int)

/-- No finite double is nearer to `v` than `m * 2 ^ q`, and if another is as near, `m` is even. -/
structure NearestFinite (m : Nat) (q : Int) (v : ℚ) : Prop where
  canonical : Canonical m q
  nearest : ∀ m' q', Canonical m' q' → |m * 2 ^ q - v| ≤ |m' * 2 ^ q' - v|
  even : ∀ m' q', Canonical m' q' → (m', q') ≠ (m, q) → |m * 2 ^ q - v| = |m' * 2 ^ q' - v| → m % 2 = 0

/-- `x` is the double that `v` rounds to, a half going to the even mantissa and overflow to infinity. -/
def Nearest (x : Float) (v : ℚ) : Prop :=
  if overflow ≤ v then Double.of x = .infinite false
  else ∃ m q, Double.of x = .finite false m q ∧ NearestFinite m q v

/-! ## Doubles are apart -/

section
variable {m m' : Nat} {q q' : Int} {v : ℚ}

/-- Another double is at least a unit above or below a double, or half a unit below the first double of its binade. -/
theorem Canonical.apart (h : Canonical m q) (h' : Canonical m' q') (hne : (m', q') ≠ (m, q)) :
    (m + 1) * 2 ^ q ≤ (m' * 2 ^ q' : ℚ) ∨ (m' * 2 ^ q' : ℚ) ≤ (m - 1) * 2 ^ q ∨
      (m = 2 ^ 52 ∧ leastExponent < q) ∧ (2 * (m' * 2 ^ q') : ℚ) ≤ (2 * m - 1) * 2 ^ q := by
  have hunit : (0 : ℚ) < 2 ^ q := by positivity
  have hm : ((m + 1 : Nat) : ℚ) ≤ 2 ^ 53 := by exact_mod_cast h.mantissa_lt
  have hm' : ((m' + 1 : Nat) : ℚ) ≤ 2 ^ 53 := by exact_mod_cast h'.mantissa_lt
  push_cast at hm hm'
  rcases lt_trichotomy q' q with hlt | rfl | hlt
  · -- the other is in a binade below
    right
    have hleast : leastExponent < q := h'.least_le.trans_lt hlt
    have hhalf : (2 : ℚ) ^ q = 2 * 2 ^ (q - 1) := by rw [← zpow_one_add₀ two_ne_zero, add_sub_cancel]
    have hstep : (2 : ℚ) ^ q' ≤ 2 ^ (q - 1) := zpow_le_zpow_right₀ one_le_two (by omega)
    have hother : (m' * 2 ^ q' : ℚ) ≤ (2 ^ 53 - 1) * 2 ^ (q - 1) :=
      mul_le_mul (by linarith) hstep (by positivity) (by norm_num)
    rcases (h.normal.resolve_left hleast.ne').eq_or_lt with hfirst | hlater
    · refine Or.inr ⟨⟨hfirst.symm, hleast⟩, ?_⟩
      rw [← hfirst, hhalf]
      push_cast
      linarith
    · left
      have hlater' : ((2 ^ 52 + 1 : Nat) : ℚ) ≤ m := by exact_mod_cast hlater
      push_cast at hlater'
      have hmul : (2 ^ 52 : ℚ) * 2 ^ q ≤ (m - 1) * 2 ^ q := mul_le_mul_of_nonneg_right (by linarith) hunit.le
      rw [hhalf] at hmul ⊢
      linarith
  · -- both are multiples of one unit
    have hmne : m' ≠ m := fun heq => hne (by rw [heq])
    rcases Nat.lt_or_gt_of_ne hmne with hless | hmore
    · right; left
      have hcast : ((m' + 1 : Nat) : ℚ) ≤ m := by exact_mod_cast hless
      push_cast at hcast
      exact mul_le_mul_of_nonneg_right (by linarith) hunit.le
    · left
      have hcast : ((m + 1 : Nat) : ℚ) ≤ m' := by exact_mod_cast hmore
      push_cast at hcast
      exact mul_le_mul_of_nonneg_right hcast hunit.le
  · -- the other is in a binade above
    left
    have hnormal : 2 ^ 52 ≤ m' := h'.normal.resolve_left (h.least_le.trans_lt hlt).ne'
    have hcast : ((2 ^ 52 : Nat) : ℚ) ≤ m' := by exact_mod_cast hnormal
    push_cast at hcast
    have hstep : (2 : ℚ) ^ (1 + q) ≤ 2 ^ q' := zpow_le_zpow_right₀ one_le_two (by omega)
    rw [zpow_one_add₀ two_ne_zero] at hstep
    calc (m + 1) * (2 : ℚ) ^ q ≤ 2 ^ 53 * 2 ^ q := mul_le_mul_of_nonneg_right hm hunit.le
      _ = 2 ^ 52 * (2 * 2 ^ q) := by ring
      _ ≤ m' * 2 ^ q' := mul_le_mul hcast hstep (by positivity) (by positivity)

/-- **What rounds to a double has none nearer,** and another as near only if the mantissa is even. -/
theorem Rounds.nearest (hr : Rounds m q v) (hc : Canonical m q) : NearestFinite m q v := by
  have hunit : (0 : ℚ) < 2 ^ q := by positivity
  have hodd : m % 2 = 0 ∨ (2 * m - 1) * 2 ^ q < 2 * v ∧ 2 * v < (2 * m + 1) * 2 ^ q :=
    (Nat.mod_two_eq_zero_or_one m).imp_right hr.odd
  have hlow := hr.low
  have hhigh := hr.high
  have hother : ∀ m' q', Canonical m' q' → (m', q') ≠ (m, q) →
      |m * 2 ^ q - v| ≤ |m' * 2 ^ q' - v| ∧ (|m * 2 ^ q - v| = |m' * 2 ^ q' - v| → m % 2 = 0) := by
    intro m' q' hc' hne
    rcases hc.apart hc' hne with habove | hbelow | ⟨⟨hfirst, hleast⟩, hbelow⟩
    · have hsign : (0 : ℚ) ≤ m' * 2 ^ q' - v := by linarith
      rw [abs_of_nonneg hsign, abs_le]
      refine ⟨⟨by linarith, by linarith⟩, fun heq => hodd.resolve_right fun ⟨_, hlt⟩ => ?_⟩
      rcases abs_cases (m * 2 ^ q - v) with ⟨h1, -⟩ | ⟨h1, -⟩ <;> linarith
    · have hsign : (m' * 2 ^ q' - v : ℚ) ≤ 0 := by linarith
      rw [abs_of_nonpos hsign, abs_le]
      refine ⟨⟨by linarith, by linarith⟩, fun heq => hodd.resolve_right fun ⟨hlt, _⟩ => ?_⟩
      rcases abs_cases (m * 2 ^ q - v) with ⟨h1, -⟩ | ⟨h1, -⟩ <;> linarith
    · have hbinade := hr.binade hfirst hleast
      have hsign : (m' * 2 ^ q' - v : ℚ) ≤ 0 := by linarith
      rw [abs_of_nonpos hsign, abs_le]
      exact ⟨⟨by linarith, by linarith⟩, fun _ => hfirst ▸ by norm_num⟩
  refine ⟨hc, fun m' q' hc' => ?_, fun m' q' hc' hne => (hother m' q' hc' hne).2⟩
  by_cases hsame : (m', q') = (m, q)
  · obtain ⟨rfl, rfl⟩ := Prod.mk.inj hsame
    exact le_refl _
  · exact (hother m' q' hc' hsame).1

end

/-! ## Only one double is the nearest -/

/-- the value of a double determines its mantissa and its exponent -/
theorem Canonical.eq_of_value_eq {m m' : Nat} {q q' : Int} (h : Canonical m q) (h' : Canonical m' q')
    (heq : (m' * 2 ^ q' : ℚ) = m * 2 ^ q) : (m', q') = (m, q) := by
  have hunit : (0 : ℚ) < 2 ^ q := by positivity
  by_contra hne
  rcases h.apart h' hne with habove | hbelow | ⟨-, hbelow⟩ <;> linarith

/-- No double above a nearest one is a nearest one too: it would be the next double, and one of the two mantissas would
be odd. -/
theorem NearestFinite.value_le {m m' : Nat} {q q' : Int} {v : ℚ} (h : NearestFinite m q v)
    (h' : NearestFinite m' q' v) : (m' * 2 ^ q' : ℚ) ≤ m * 2 ^ q := by
  by_contra hle
  have hlt : (m * 2 ^ q : ℚ) < m' * 2 ^ q' := not_le.1 hle
  have hunit : (0 : ℚ) < 2 ^ q := by positivity
  have hne : (m', q') ≠ (m, q) := by
    rintro heq
    obtain ⟨rfl, rfl⟩ := Prod.mk.inj heq
    exact absurd hlt (lt_irrefl _)
  have hdistance : |m * 2 ^ q - v| = |m' * 2 ^ q' - v| :=
    le_antisymm (h.nearest m' q' h'.canonical) (h'.nearest m q h.canonical)
  have heven := h.even m' q' h'.canonical hne hdistance
  have heven' := h'.even m q h.canonical hne.symm hdistance.symm
  have hmiddle : (2 * v : ℚ) = m * 2 ^ q + m' * 2 ^ q' := by
    rcases abs_eq_abs.1 hdistance with heq | heq <;> linarith
  -- the next double above the lower one is at most the upper one
  have hnext : Canonical (m + 1) q := by
    have hmantissa := h.canonical.mantissa_lt
    exact ⟨by omega, h.canonical.least_le, h.canonical.le_greatest, h.canonical.normal.imp_right (by omega)⟩
  have hstep : (m + 1) * 2 ^ q ≤ (m' * 2 ^ q' : ℚ) := by
    rcases h.canonical.apart h'.canonical hne with habove | hbelow | ⟨-, hbelow⟩
    · exact habove
    · linarith
    · linarith
  rcases hstep.eq_or_lt with heq | hless
  · have hsame := hnext.eq_of_value_eq h'.canonical (by push_cast; exact heq.symm)
    have hodd : m' = m + 1 := (Prod.mk.inj hsame).1
    omega
  · -- it would be nearer than either
    have hnear := h.nearest (m + 1) q hnext
    push_cast at hnear
    have hlow : (m * 2 ^ q - v : ℚ) ≤ 0 := by linarith
    rw [abs_of_nonpos hlow] at hnear
    rcases abs_cases ((m + 1) * 2 ^ q - v : ℚ) with ⟨heq, -⟩ | ⟨heq, -⟩ <;> linarith

theorem NearestFinite.unique {m m' : Nat} {q q' : Int} {v : ℚ} (h : NearestFinite m q v) (h' : NearestFinite m' q' v) :
    (m', q') = (m, q) :=
  h.canonical.eq_of_value_eq h'.canonical (le_antisymm (h.value_le h') (h'.value_le h))

/-- **Only one double is the nearest.** -/
theorem Nearest.unique {x y : Float} {v : ℚ} (hx : Nearest x v) (hy : Nearest y v) : x = y := by
  unfold Nearest at hx hy
  split_ifs at hx hy
  · exact of_injective (hx.trans hy.symm)
  · obtain ⟨m, q, hxof, hm⟩ := hx
    obtain ⟨m', q', hyof, hm'⟩ := hy
    obtain ⟨rfl, rfl⟩ := Prod.mk.inj (hm.unique hm')
    exact of_injective (hxof.trans hyof.symm)

/-! ## Rounding a quotient -/

/-- what a quotient rounds to is within half a unit of it, and nearer than that if it is odd -/
theorem roundHalfEven_spec (num : Nat) {den : Nat} (hden : 0 < den) :
    2 * (roundHalfEven num den * den) ≤ 2 * num + den ∧ 2 * num ≤ 2 * (roundHalfEven num den * den) + den ∧
      (roundHalfEven num den % 2 = 1 → 2 * (roundHalfEven num den * den) < 2 * num + den ∧
        2 * num < 2 * (roundHalfEven num den * den) + den) := by
  have hdiv := Nat.div_add_mod' num den
  have hmod := Nat.mod_lt num hden
  unfold roundHalfEven
  dsimp only
  generalize num / den = low at *
  generalize num % den = r at *
  have hsucc : (low + 1) * den = low * den + den := Nat.succ_mul low den
  split_ifs with h1 h2
  · omega
  · omega
  · -- exactly a half: the even neighbour is taken
    rcases Nat.mod_two_eq_zero_or_one low with heven | hodd
    · rw [heven, Nat.add_zero]
      omega
    · rw [hodd]
      omega

/-- the same of the quotient as a rational -/
theorem roundHalfEven_bounds {num den m : Nat} (hden : 0 < den) (hm : roundHalfEven num den = m) :
    (2 * m - 1 : ℚ) ≤ 2 * (num / den) ∧ (2 * (num / den) : ℚ) ≤ 2 * m + 1 ∧
      (m % 2 = 1 → (2 * m - 1 : ℚ) < 2 * (num / den) ∧ (2 * (num / den) : ℚ) < 2 * m + 1) := by
  have hpos : (0 : ℚ) < den := by exact_mod_cast hden
  obtain ⟨hlow, hhigh, hodd⟩ := hm ▸ roundHalfEven_spec num hden
  have hlow' : (2 * (m * den) : ℚ) ≤ 2 * num + den := by exact_mod_cast hlow
  have hhigh' : (2 * num : ℚ) ≤ 2 * (m * den) + den := by exact_mod_cast hhigh
  rw [← mul_div_assoc, le_div_iff₀ hpos, div_le_iff₀ hpos, lt_div_iff₀ hpos, div_lt_iff₀ hpos]
  refine ⟨by linarith, by linarith, fun h => ?_⟩
  have hlow'' : (2 * (m * den) : ℚ) < 2 * num + den := by exact_mod_cast (hodd h).1
  have hhigh'' : (2 * num : ℚ) < 2 * (m * den) + den := by exact_mod_cast (hodd h).2
  constructor <;> linarith

/-- the quotient rounded to units of `2 ^ q` -/
theorem rounded_bounds {num den m : Nat} {q : Int} (hden : 0 < den)
    (hm : (if 0 ≤ q then roundHalfEven num (den * pow2 q.toNat) else roundHalfEven (num * pow2 (-q).toNat) den) = m) :
    (2 * m - 1) * 2 ^ q ≤ (2 * (num / den) : ℚ) ∧ (2 * (num / den) : ℚ) ≤ (2 * m + 1) * 2 ^ q ∧
      (m % 2 = 1 → (2 * m - 1) * 2 ^ q < (2 * (num / den) : ℚ) ∧ (2 * (num / den) : ℚ) < (2 * m + 1) * 2 ^ q) := by
  have hpos : (0 : ℚ) < 2 ^ q := by positivity
  have hquotient := scaled_quotient num den q
  rw [← le_div_iff₀ hpos, ← div_le_iff₀ hpos, ← lt_div_iff₀ hpos, ← div_lt_iff₀ hpos, mul_div_assoc, ← hquotient]
  split_ifs at hm ⊢ with h
  · exact roundHalfEven_bounds (Nat.mul_pos hden (Nat.pow_pos two_pos)) hm
  · exact roundHalfEven_bounds hden hm

section
variable {m : Nat} {q : Int} {v : ℚ}

/-- a number in the binade of a unit, or below all normal numbers, has a mantissa of that binade or the first of the
next -/
theorem mantissa_bounds (hlow : (2 * m - 1) * 2 ^ q ≤ 2 * v) (hhigh : 2 * v ≤ (2 * m + 1) * 2 ^ q)
    (habove : v < 2 ^ (q + 53)) (hbelow : leastExponent < q → (2 : ℚ) ^ (q + 52) ≤ v) :
    m ≤ 2 ^ 53 ∧ (leastExponent < q → 2 ^ 52 ≤ m) := by
  have hunit : (0 : ℚ) < 2 ^ q := by positivity
  constructor
  · rw [zpow_add₀ two_ne_zero] at habove
    have hlt : (2 * m - 1) * 2 ^ q < (2 * 2 ^ 53 : ℚ) * 2 ^ q := by
      norm_num at habove ⊢
      linarith
    have hcast : ((2 * m : Nat) : ℚ) < ((2 * 2 ^ 53 + 1 : Nat) : ℚ) := by
      push_cast
      linarith [lt_of_mul_lt_mul_right hlt hunit.le]
    have hnat : 2 * m < 2 * 2 ^ 53 + 1 := by exact_mod_cast hcast
    omega
  · intro hq
    have hge := hbelow hq
    rw [zpow_add₀ two_ne_zero] at hge
    have hle : (2 * 2 ^ 52 : ℚ) * 2 ^ q ≤ (2 * m + 1) * 2 ^ q := by
      norm_num at hge ⊢
      linarith
    have hcast : ((2 * 2 ^ 52 : Nat) : ℚ) ≤ ((2 * m + 1 : Nat) : ℚ) := by
      push_cast
      linarith [le_of_mul_le_mul_right hle hunit]
    have hnat : 2 * 2 ^ 52 ≤ 2 * m + 1 := by exact_mod_cast hcast
    omega

/-- what is rounded to the end of a binade rounds to the first double of the next -/
theorem rounds_first (hlow : (2 * (2 ^ 53 : Nat) - 1) * 2 ^ q ≤ 2 * v)
    (hhigh : 2 * v ≤ (2 * (2 ^ 53 : Nat) + 1) * 2 ^ q) : Rounds (2 ^ 52) (q + 1) v := by
  have hunit : (0 : ℚ) < 2 ^ q := by positivity
  have hdouble : (2 : ℚ) ^ (q + 1) = 2 * 2 ^ q := by rw [add_comm, zpow_one_add₀ two_ne_zero]
  push_cast at hlow hhigh
  refine ⟨?_, ?_, fun hodd => absurd hodd (by norm_num), fun _ _ => ?_⟩
  all_goals
    rw [hdouble]
    push_cast
    linarith

end

/-- half a unit above the greatest finite double is the least number that is rounded to the end of its binade -/
theorem two_mul_overflow : 2 * overflow = (2 * (2 ^ 53 : Nat) - 1) * 2 ^ (971 : Int) := by
  rw [overflow, ← mul_assoc]
  congr 1
  norm_num

theorem overflow_le {q : Int} {v : ℚ} (hq : 972 ≤ q) (hv : (2 : ℚ) ^ (q + 52) ≤ v) : overflow ≤ v := by
  have hle : (2 : ℚ) ^ ((53 : Int) + 971) ≤ 2 ^ (q + 52) := zpow_le_zpow_right₀ one_le_two (by omega)
  rw [zpow_add₀ two_ne_zero] at hle
  have hunit : (0 : ℚ) < 2 ^ (971 : Int) := by positivity
  have hless : overflow ≤ (2 : ℚ) ^ (53 : Int) * 2 ^ (971 : Int) :=
    mul_le_mul_of_nonneg_right (by norm_num) hunit.le
  exact hless.trans (hle.trans hv)

/-- what rounds to a double is less than half a unit above the greatest one, whose mantissa is odd -/
theorem Rounds.lt_overflow {m : Nat} {q : Int} {v : ℚ} (hr : Rounds m q v) (hc : Canonical m q) : v < overflow := by
  have hmantissa := hc.mantissa_lt
  have hunit : (0 : ℚ) < 2 ^ q := by positivity
  have hstep : (2 : ℚ) ^ q ≤ 2 ^ (971 : Int) := zpow_le_zpow_right₀ one_le_two hc.le_greatest
  have hhigh : 2 * v < (2 * (2 ^ 53 : Nat) - 1) * 2 ^ q := by
    rcases Nat.mod_two_eq_zero_or_one m with heven | hodd
    · have hcast : ((m + 2 : Nat) : ℚ) ≤ (2 ^ 53 : Nat) := by exact_mod_cast (by omega : m + 2 ≤ 2 ^ 53)
      rw [Nat.cast_add, Nat.cast_two] at hcast
      exact hr.high.trans_lt (mul_lt_mul_of_pos_right (by linarith) hunit)
    · have hcast : ((m + 1 : Nat) : ℚ) ≤ (2 ^ 53 : Nat) := by exact_mod_cast hmantissa
      rw [Nat.cast_add, Nat.cast_one] at hcast
      exact (hr.odd hodd).2.trans_le (mul_le_mul_of_nonneg_right (by linarith) hunit.le)
  have htop : 2 * v < 2 * overflow :=
    two_mul_overflow ▸ hhigh.trans_le (mul_le_mul_of_nonneg_left hstep (by norm_num))
  exact lt_of_mul_lt_mul_left htop two_pos.le

/-- **Each quotient** rounds to a double, and `nearestBits` gives its bits, or is too great for that. -/
theorem exists_rounds (num : Nat) {den : Nat} (hden : 0 < den) :
    (∃ m q, Canonical m q ∧ Rounds m q (num / den) ∧
      nearestBits num den = m + (q - leastExponent).toNat * pow2 52) ∨
    overflow ≤ (num / den : ℚ) ∧ nearestBits num den = infinityBits := by
  have h52 : pow2 52 = 4503599627370496 := rfl
  have hleast : leastExponent = -1074 := rfl
  rcases Nat.eq_zero_or_pos num with rfl | hnum
  · left
    refine ⟨0, leastExponent, ⟨by norm_num, le_refl _, by omega, .inl rfl⟩, ?_, by simp [nearestBits]⟩
    simpa using rounds_self (m := 0) (q := leastExponent)
  obtain ⟨hfloor, hceil⟩ := floorLog2_spec hnum hden
  unfold nearestBits
  rw [if_neg hnum.ne']
  dsimp only
  -- the unit, and the binade of the quotient in terms of it
  have habove : (num / den : ℚ) < 2 ^ (max leastExponent (floorLog2 num den - 52) + 53) :=
    hceil.trans_le (zpow_le_zpow_right₀ one_le_two (by omega))
  have hbelow : leastExponent < max leastExponent (floorLog2 num den - 52) →
      (2 : ℚ) ^ (max leastExponent (floorLog2 num den - 52) + 52) ≤ num / den := fun hlt =>
    (zpow_le_zpow_right₀ one_le_two (by omega)).trans hfloor
  have hq := le_max_left leastExponent (floorLog2 num den - 52)
  generalize max leastExponent (floorLog2 num den - 52) = q at *
  generalize hm : (if 0 ≤ q then roundHalfEven num (den * pow2 q.toNat)
    else roundHalfEven (num * pow2 (-q).toNat) den) = m
  obtain ⟨hlow, hhigh, hodd⟩ := rounded_bounds hden hm
  obtain ⟨hle, hnormal⟩ := mantissa_bounds hlow hhigh habove hbelow
  rw [infinityBits, h52]
  rcases lt_or_ge 971 q with hgreat | hgreatest
  · -- the quotient is in a binade above all doubles
    right
    have hlt : leastExponent < q := by omega
    have h := hnormal hlt
    exact ⟨overflow_le hgreat (hbelow hlt), min_eq_left (by omega)⟩
  rcases hle.eq_or_lt with rfl | hlt
  · rcases hgreatest.eq_or_lt with rfl | hless
    · right
      refine ⟨?_, by omega⟩
      rw [← two_mul_overflow] at hlow
      linarith
    · left
      refine ⟨2 ^ 52, q + 1, ⟨by norm_num, by omega, by omega, .inr (le_refl _)⟩, rounds_first hlow hhigh, ?_⟩
      rw [min_eq_right (by omega)]
      omega
  · left
    refine ⟨m, q, ⟨hlt, hq, hgreatest, ?_⟩, ⟨hlow, hhigh, hodd, fun hfirst hlt => ?_⟩, min_eq_right (by omega)⟩
    · exact hq.eq_or_lt.imp Eq.symm hnormal
    · have hge := hbelow hlt
      have hunit : (0 : ℚ) < 2 ^ q := by positivity
      rw [zpow_add₀ two_ne_zero] at hge
      rw [hfirst]
      push_cast
      norm_num at hge ⊢
      linarith

/-! ## Bits that are put together -/

section
open Float.Model.UnpackedFloat

/-- bits up to those of infinity are those of no number that is none -/
theorem valid_of_le {b : BitVec 64} (h : b.toNat ≤ infinityBits) : Float.Model.Format.Valid .binary64 b := by
  have hinfinity : infinityBits = 9218868437227405312 := rfl
  constructor
  intro hexponent hmantissa
  have hfield : b.toNat / 2 ^ 52 % 2 ^ 11 = 2047 := toNat_unpackExponent b ▸ congrArg BitVec.toNat hexponent
  have hfraction : b.toNat % 2 ^ 52 = 0 := by omega
  have hzero : @unpackMantissa .binary64 b = 0#52 := BitVec.eq_of_toNat_eq ((toNat_unpackMantissa b).trans hfraction)
  exact absurd hzero hmantissa

/-- bits up to those of infinity are kept by the float that they make -/
theorem toBits_ofBits {bits : Nat} (h : bits ≤ infinityBits) : (Float.ofBits bits.toUInt64).toBits.toNat = bits := by
  have hinfinity : infinityBits = 9218868437227405312 := rfl
  have hsize : bits % 2 ^ 64 = bits := Nat.mod_eq_of_lt (by omega)
  have hbits : bits.toUInt64.toBitVec.toNat = bits := hsize
  have hpack := pack_unpack (valid_of_le (hbits.trans_le h))
  simp only [Float.ofBits, Float.toBits, Float.Model.ofBits, Float.Model.pack, hpack]
  exact hsize

end

/-- a mantissa and an exponent are read off the bits that they make -/
theorem ofBits_canonical {m : Nat} {q : Int} (h : Canonical m q) :
    Double.ofBits (m + (q - leastExponent).toNat * pow2 52) = .finite false m q := by
  have h52 : pow2 52 = 4503599627370496 := rfl
  have h11 : pow2 11 = 2048 := rfl
  have h63 : pow2 63 = 9223372036854775808 := rfl
  have h1074 : leastExponent = -1074 := rfl
  obtain ⟨hm, hleast, hgreatest, hnormal⟩ := h
  obtain ⟨k, hk⟩ := Int.eq_ofNat_of_zero_le (Int.sub_nonneg_of_le hleast)
  rw [hk, Int.toNat_natCast]
  unfold Double.ofBits
  simp only [h52, h11, h63]
  have hsign : ¬ 9223372036854775808 ≤ m + k * 4503599627370496 := by omega
  rw [decide_eq_false hsign]
  rcases lt_or_ge m (2 ^ 52) with hlt | hge
  · have hq := hnormal.resolve_right (by omega)
    have hfield : (m + k * 4503599627370496) / 4503599627370496 % 2048 = 0 := by omega
    have hfraction : (m + k * 4503599627370496) % 4503599627370496 = m := by omega
    rw [hfield, hfraction, hq]
    rfl
  · have hfield : (m + k * 4503599627370496) / 4503599627370496 % 2048 = k + 1 := by omega
    have hfraction : 4503599627370496 + (m + k * 4503599627370496) % 4503599627370496 = m := by omega
    have hq : leastExponent + ((k + 1 : Nat) : Int) - 1 = q := by omega
    rw [hfield, hfraction, hq, if_neg (by omega), if_neg (by omega)]

/-- the double that a number rounds to is the nearest -/
theorem nearest_of_rounds {x : Float} {m : Nat} {q : Int} {v : ℚ} (h : Double.of x = .finite false m q)
    (hr : Rounds m q v) : Nearest x v := by
  have hc := canonical_of_finite h
  rw [Nearest, if_neg (not_le.2 (hr.lt_overflow hc))]
  exact ⟨m, q, h, hr.nearest hc⟩

/-- **A quotient** is rounded to the double nearest to it. -/
theorem nearest_quotient (num : Nat) {den : Nat} (hden : 0 < den) : Nearest (nearest num den) (num / den) := by
  have hbits : nearestBits num den ≤ infinityBits := by
    unfold nearestBits
    split_ifs
    · exact Nat.zero_le _
    · exact min_le_left _ _
  have hof : Double.of (nearest num den) = Double.ofBits (nearestBits num den) := by
    rw [nearest, Double.of, toBits_ofBits hbits]
  rcases exists_rounds num hden with ⟨m, q, hc, hr, hnearest⟩ | ⟨hover, hnearest⟩
  · exact nearest_of_rounds (by rw [hof, hnearest, ofBits_canonical hc]) hr
  · rw [Nearest, if_pos hover, hof, hnearest]
    rfl

/-- **A numeral is read as the double nearest** to the number that it stands for. -/
theorem nearest_iff_eq_read {x : Float} (whole fraction : List Char) :
    Nearest x (value whole fraction) ↔ x = read whole fraction := by
  have hvalue : (natural (whole ++ fraction) : ℚ) / pow10 fraction.length = value whole fraction := by
    simp [value, pow10]
  have hread : Nearest (read whole fraction) (value whole fraction) :=
    hvalue ▸ nearest_quotient (natural (whole ++ fraction)) (Nat.pow_pos (by norm_num))
  constructor
  · intro hx
    exact hx.unique hread
  · rintro rfl
    exact hread

end Reckoner.Decimal
