/-
The text of a number stands for that number.

`shortest` looks for a decimal on ever finer grids, among the numbers that round to a double. What it finds on a grid
rounds to the double (`rounds_of_readsBack`), and the last of its grids is so fine that something is found on it at the
latest (`finest_lt`, `onGrid?_isSome`). A number that is whole is written with all its digits, so nothing is rounded.

Main statement: `read_numberText`, the text of a finite number that is not negative is a numeral, and reading it gives
the number back.
-/
import Mathlib.Tactic
import Reckoner.Proofs.Rounding

namespace Reckoner.Decimal

/-! ## Decimals on a grid -/

theorem pow_toNat {b : ℚ} (hb : b ≠ 0) (n : Int) : b ^ (-n).toNat * b ^ n = b ^ n.toNat := by
  rcases le_total 0 n with h | h
  · obtain ⟨k, rfl⟩ := Int.eq_ofNat_of_zero_le h
    simp
  · obtain ⟨k, hk⟩ := Int.eq_ofNat_of_zero_le (Int.neg_nonneg_of_nonpos h)
    obtain rfl : n = -(k : Int) := by omega
    simp [hb]

/-- both factors are those of one scale -/
theorem exists_scale (k e : Int) :
    ∃ c : ℚ, 0 < c ∧ ((scales k e).1 : ℚ) = c * 10 ^ k ∧ ((scales k e).2 : ℚ) = c * 2 ^ e := by
  have h2 := pow_toNat two_ne_zero (b := 2) e
  have h10 := pow_toNat (b := 10) (by norm_num) k
  refine ⟨10 ^ (-k).toNat * 2 ^ (-e).toNat, by positivity, ?_, ?_⟩
  · simp only [scales, pow2, pow10, Nat.pow_eq, Nat.cast_mul, Nat.cast_pow, Nat.cast_ofNat]
    rw [← h10]
    ring
  · simp only [scales, pow2, pow10, Nat.pow_eq, Nat.cast_mul, Nat.cast_pow, Nat.cast_ofNat]
    rw [← h2]
    ring

section
variable {k e : Int} {d x : Nat}

theorem scales_le_iff : x * (scales k e).2 ≤ d * (scales k e).1 ↔ (x * 2 ^ e : ℚ) ≤ d * 10 ^ k := by
  obtain ⟨c, hc, hstep, hunit⟩ := exists_scale k e
  rw [← Nat.cast_le (α := ℚ), Nat.cast_mul, Nat.cast_mul, hstep, hunit, mul_left_comm, mul_left_comm (d : ℚ)]
  exact mul_le_mul_iff_of_pos_left hc

theorem le_scales_iff : d * (scales k e).1 ≤ x * (scales k e).2 ↔ (d * 10 ^ k : ℚ) ≤ x * 2 ^ e := by
  obtain ⟨c, hc, hstep, hunit⟩ := exists_scale k e
  rw [← Nat.cast_le (α := ℚ), Nat.cast_mul, Nat.cast_mul, hstep, hunit, mul_left_comm, mul_left_comm (x : ℚ)]
  exact mul_le_mul_iff_of_pos_left hc

end

/-- a decimal that reads back rounds to the double -/
theorem rounds_of_readsBack {m : Nat} {q k : Int} {d : Nat} (hm : 0 < m)
    (h : readsBack m q (d * (scales k (q - 2)).1) (scales k (q - 2)).2 = true) : Rounds m q (d * 10 ^ k) := by
  have hquarter : (2 : ℚ) ^ q = 4 * 2 ^ (q - 2) := by
    rw [zpow_sub₀ two_ne_zero]
    norm_num
    ring
  have hunit : (0 : ℚ) < 2 ^ (q - 2) := by positivity
  unfold readsBack at h
  dsimp only at h
  generalize hlow : (if (m = pow2 52 && decide (leastExponent < q)) = true then 4 * m - 1 else 4 * m - 2) = low at h
  have hle : (4 * m - 2 : ℚ) ≤ low := by
    have h1 : 4 * m ≤ low + 2 := by split_ifs at hlow <;> omega
    have h2 : ((4 * m : Nat) : ℚ) ≤ ((low + 2 : Nat) : ℚ) := by exact_mod_cast h1
    push_cast at h2
    linarith
  have hbinade : m = 2 ^ 52 → leastExponent < q → (low : ℚ) = 4 * m - 1 := by
    intro h1 h2
    rw [if_pos (by simp [pow2, h1, h2])] at hlow
    rw [← hlow, Nat.cast_sub (by omega)]
    push_cast
    rfl
  -- in quarters of a unit, the decimal is between `low` and `4 * m + 2`
  have hbounds : (low * 2 ^ (q - 2) : ℚ) ≤ d * 10 ^ k ∧ (d * 10 ^ k : ℚ) ≤ (4 * m + 2 : Nat) * 2 ^ (q - 2) ∧
      (m % 2 = 1 → (low * 2 ^ (q - 2) : ℚ) < d * 10 ^ k ∧ (d * 10 ^ k : ℚ) < (4 * m + 2 : Nat) * 2 ^ (q - 2)) := by
    split_ifs at h with heven
    · simp only [Bool.and_eq_true, decide_eq_true_eq] at h
      exact ⟨scales_le_iff.1 h.1, le_scales_iff.1 h.2, fun hodd => by omega⟩
    · simp only [Bool.and_eq_true, decide_eq_true_eq] at h
      have h1 := (lt_iff_lt_of_le_iff_le le_scales_iff).1 h.1
      have h2 := (lt_iff_lt_of_le_iff_le scales_le_iff).1 h.2
      exact ⟨h1.le, h2.le, fun _ => ⟨h1, h2⟩⟩
  obtain ⟨h1, h2, h3⟩ := hbounds
  push_cast at h2 h3
  have hmul : (4 * m - 2) * 2 ^ (q - 2) ≤ (low * 2 ^ (q - 2) : ℚ) := mul_le_mul_of_nonneg_right hle hunit.le
  constructor
  · rw [hquarter]
    linarith
  · rw [hquarter]
    linarith
  · intro hodd
    obtain ⟨h4, h5⟩ := h3 hodd
    rw [hquarter]
    constructor <;> linarith
  · intro hfirst hq
    rw [hbinade hfirst hq] at h1
    rw [hquarter]
    linarith

/-- what a grid gives reads back -/
theorem readsBack_of_onGrid? {m : Nat} {q k : Int} {found : Digits} (h : onGrid? m q k = some found) :
    found.exponent = k ∧ readsBack m q (found.digits * (scales k (q - 2)).1) (scales k (q - 2)).2 = true := by
  simp only [onGrid?] at h
  split_ifs at h with habove hbelow
  · obtain rfl := Option.some.inj h
    exact ⟨rfl, (Bool.and_eq_true_iff.1 habove).1⟩
  · obtain rfl := Option.some.inj h
    exact ⟨rfl, hbelow⟩

/-- a number above the double by less than half a unit reads back -/
theorem readsBack_of_lt {m : Nat} {q : Int} {x unit : Nat} (hlow : 4 * m * unit < x) (hhigh : x < (4 * m + 2) * unit) :
    readsBack m q x unit = true := by
  unfold readsBack
  dsimp only
  generalize hl : (if (m = pow2 52 && decide (leastExponent < q)) = true then 4 * m - 1 else 4 * m - 2) = low
  have hle : low ≤ 4 * m := by split_ifs at hl <;> omega
  have hlt : low * unit < x := lt_of_le_of_lt (Nat.mul_le_mul_right unit hle) hlow
  split_ifs
  · simp [hlt.le, hhigh.le]
  · simp [hlt, hhigh]

/-- a grid finer than half a unit has a decimal that reads back, above the double -/
theorem onGrid?_isSome {m : Nat} {q k : Int} (hk : (10 : ℚ) ^ k < 2 ^ (q - 1)) :
    (onGrid? m q k).isSome = true := by
  have hstep : (scales k (q - 2)).1 < 2 * (scales k (q - 2)).2 := by
    rw [← one_mul (scales k (q - 2)).1]
    apply (lt_iff_lt_of_le_iff_le scales_le_iff).2
    calc ((1 : Nat) * 10 ^ k : ℚ) = 10 ^ k := by simp
      _ < 2 ^ (q - 1) := hk
      _ = (2 : Nat) * 2 ^ (q - 2) := by
        rw [Nat.cast_ofNat, ← zpow_one_add₀ two_ne_zero]
        congr 1
        ring
  have hpos : 0 < (scales k (q - 2)).1 := Nat.mul_pos (Nat.pow_pos (by norm_num)) (Nat.pow_pos two_pos)
  simp only [onGrid?]
  generalize (scales k (q - 2)).1 = step at *
  generalize (scales k (q - 2)).2 = unit at *
  have hlow := Nat.div_mul_le_self (4 * m * unit) step
  have hhigh : 4 * m * unit < 4 * m * unit / step * step + step := Nat.lt_div_mul_add hpos
  generalize 4 * m * unit / step = below at *
  have habove : readsBack m q ((below + 1) * step) unit = true := by
    rw [Nat.add_mul, one_mul]
    exact readsBack_of_lt hhigh (by linarith)
  cases hbelow : readsBack m q (below * step) unit with
  | false => simp [habove]
  | true =>
    simp only [habove]
    split_ifs <;> rfl

theorem descend_isSome {m : Nat} {q k : Int} {j grids : Nat} (hj : j < grids)
    (h : (onGrid? m q (k - j)).isSome = true) : (descend m q k grids).isSome = true := by
  induction grids generalizing j k with
  | zero => omega
  | succ grids ih =>
    unfold descend
    split
    · rfl
    · next hnone =>
      cases j with
      | zero => simp [hnone] at h
      | succ j =>
        refine ih (j := j) (by omega) ?_
        rwa [Nat.cast_succ, ← sub_sub, sub_right_comm] at h

theorem onGrid?_of_descend {m : Nat} {q k : Int} {grids : Nat} {found : Digits}
    (h : descend m q k grids = some found) : ∃ k', onGrid? m q k' = some found := by
  induction grids generalizing k with
  | zero => cases h
  | succ grids ih =>
    unfold descend at h
    split at h
    · next hfound => exact ⟨k, hfound.trans h⟩
    · exact ih h

/-! ## The finest grid -/

/-- powers of ten against powers of two: `10 ^ 1233` is just below `2 ^ 4096` -/
theorem ten_pow_le {L : Int} (hL : -4096 ≤ L) : (10 : ℚ) ^ (1233 * L) ≤ 2 ^ (4096 * (L + 1)) := by
  have hup : (10 : ℚ) ^ 1233 ≤ 2 ^ 4096 := by
    have h : 10 ^ 1233 ≤ 2 ^ 4096 := by decide +kernel
    exact_mod_cast h
  have hdown : (2 : ℚ) ^ 4095 ≤ 10 ^ 1233 := by
    have h : 2 ^ 4095 ≤ 10 ^ 1233 := by decide +kernel
    exact_mod_cast h
  rcases le_total 0 L with h | h
  · obtain ⟨n, rfl⟩ := Int.eq_ofNat_of_zero_le h
    calc (10 : ℚ) ^ (1233 * (n : Int)) = (10 ^ 1233) ^ n := by rw [zpow_mul]; rfl
      _ ≤ (2 ^ 4096) ^ n := by gcongr
      _ = 2 ^ (4096 * (n : Int)) := by rw [zpow_mul]; rfl
      _ ≤ 2 ^ (4096 * ((n : Int) + 1)) := zpow_le_zpow_right₀ one_le_two (by omega)
  · obtain ⟨n, hn⟩ := Int.eq_ofNat_of_zero_le (Int.neg_nonneg_of_nonpos h)
    obtain rfl : L = -(n : Int) := by omega
    calc (10 : ℚ) ^ (1233 * -(n : Int)) = ((10 ^ 1233) ^ n)⁻¹ := by rw [mul_neg, zpow_neg, zpow_mul]; rfl
      _ ≤ ((2 ^ 4095) ^ n)⁻¹ := by gcongr
      _ = 2 ^ (4095 * -(n : Int)) := by rw [mul_neg, zpow_neg, zpow_mul]; rfl
      _ ≤ 2 ^ (4096 * (-(n : Int) + 1)) := zpow_le_zpow_right₀ one_le_two (by omega)

theorem ten_pow_neg_le (n : Nat) : (10 : ℚ) ^ (-(n : Int)) ≤ 2 ^ (-(3 * (n : Int))) := by
  calc (10 : ℚ) ^ (-(n : Int)) = (10 ^ n)⁻¹ := by rw [zpow_neg, zpow_natCast]
    _ ≤ ((2 ^ 3) ^ n)⁻¹ := by
        gcongr
        norm_num
    _ = 2 ^ (-(3 * (n : Int))) := by rw [zpow_neg, zpow_mul]; rfl

/-- the last grid that is looked at is finer than half a unit -/
theorem finest_lt {m : Nat} {q : Int} (hm : m < 2 ^ 53) (hq : leastExponent ≤ q) :
    (10 : ℚ) ^ (coarsest m q - (23 : Nat)) < 2 ^ (q - 1) := by
  have hlog : m.log2 ≤ 52 := by
    rcases Nat.eq_zero_or_pos m with rfl | hpos
    · decide
    · have := (Nat.log2_lt hpos.ne').2 hm
      omega
  have hgrid : 4096 * (coarsest m q - (23 : Nat)) ≤ 1233 * (m.log2 + q) - 21 * 4096 := by
    unfold coarsest
    omega
  have hpow : ((10 : ℚ) ^ (coarsest m q - (23 : Nat))) ^ 4096 < (2 ^ (q - 1)) ^ 4096 := by
    calc ((10 : ℚ) ^ (coarsest m q - (23 : Nat))) ^ 4096
        = 10 ^ (4096 * (coarsest m q - (23 : Nat))) := by rw [mul_comm, zpow_mul]; rfl
      _ ≤ 10 ^ (1233 * ((m.log2 : Int) + q) - 21 * 4096) := zpow_le_zpow_right₀ (by norm_num) hgrid
      _ = 10 ^ (1233 * ((m.log2 : Int) + q)) * 10 ^ (-((21 * 4096 : Nat) : Int)) := by
          rw [← zpow_add₀ (by norm_num)]; rfl
      _ ≤ 2 ^ (4096 * ((m.log2 : Int) + q + 1)) * 2 ^ (-(3 * ((21 * 4096 : Nat) : Int))) := by
          gcongr
          · exact ten_pow_le (by unfold leastExponent at hq; omega)
          · exact ten_pow_neg_le _
      _ = 2 ^ (4096 * ((m.log2 : Int) + q + 1) - 63 * 4096) := by rw [← zpow_add₀ two_ne_zero]; rfl
      _ < 2 ^ (4096 * (q - 1)) := zpow_lt_zpow_right₀ one_lt_two (by omega)
      _ = (2 ^ (q - 1)) ^ 4096 := by rw [mul_comm, zpow_mul]; rfl
  exact lt_of_pow_lt_pow_left₀ 4096 (by positivity) hpow

/-- **The shortest decimal rounds to the double** that it is the shortest decimal of. -/
theorem rounds_shortest {m : Nat} {q : Int} (hm : 0 < m) (hc : Canonical m q) :
    Rounds m q ((shortest m q).digits * 10 ^ (shortest m q).exponent) := by
  have hsome : (descend m q (coarsest m q) 24).isSome = true :=
    descend_isSome (j := 23) (by omega) (onGrid?_isSome (finest_lt hc.mantissa_lt hc.least_le))
  obtain ⟨found, hfound⟩ := Option.isSome_iff_exists.1 hsome
  obtain ⟨k, hk⟩ := onGrid?_of_descend hfound
  obtain ⟨rfl, hback⟩ := readsBack_of_onGrid? hk
  have hshortest : shortest m q = found := by rw [shortest, if_neg hm.ne', hfound, Option.getD_some]
  rw [hshortest]
  exact rounds_of_readsBack hm hback

/-! ## The text of a number -/

/-- the whole number that a double is -/
theorem whole?_eq_some {m n : Nat} {q : Int} (h : Double.whole? m q = some n) : (n : ℚ) = m * 2 ^ q := by
  unfold Double.whole? at h
  split at h
  · next hq =>
    obtain rfl := Option.some.inj h
    rw [Nat.cast_mul, cast_pow2 hq]
  · next hq =>
    dsimp only at h
    split at h
    · next hmod =>
      obtain rfl := Option.some.inj h
      have hpos : (0 : ℚ) < 2 ^ (-q) := by positivity
      have hdvd := Nat.div_mul_cancel (Nat.dvd_of_mod_eq_zero hmod)
      have hmul : ((m / pow2 (-q).toNat : Nat) : ℚ) * 2 ^ (-q) = m := by
        rw [← cast_pow2 (by omega : 0 ≤ -q)]
        exact_mod_cast hdvd
      rw [← hmul, mul_assoc, ← zpow_add₀ two_ne_zero, neg_add_cancel, zpow_zero, mul_one]
    · cases h

theorem pos_of_whole?_eq_none {m : Nat} {q : Int} (h : Double.whole? m q = none) : 0 < m := by
  rcases Nat.eq_zero_or_pos m with rfl | hpos
  · unfold Double.whole? at h
    simp at h
  · exact hpos

/-- a numeral reads as the double that it rounds to -/
theorem read_eq {x : Float} {m : Nat} {q : Int} (h : Double.of x = .finite false m q) {whole fraction : List Char}
    (hr : Rounds m q (value whole fraction)) : read whole fraction = x :=
  ((nearest_iff_eq_read whole fraction).1 (nearest_of_rounds h hr)).symm

/-- **The text of a number that is finite and not negative** is a numeral with a point, and reading it gives the number
back. -/
theorem read_numberText {x : Float} {m : Nat} {q : Int} (h : Double.of x = .finite false m q) :
    ∃ whole fraction, Pointed (numberText x).toList whole fraction ∧ read whole fraction = x := by
  simp only [numberText, h]
  split
  · next n hn =>
    have hexact : value (Nat.toDigits 10 n) ['0'] = m * 2 ^ q := by
      rw [value_zero, natural_toDigits, whole?_eq_some hn]
    refine ⟨Nat.toDigits 10 n, ['0'], ?_, read_eq h (hexact ▸ rounds_self)⟩
    simpa [signed] using pointed_zero Nat.toDigits_ne_nil fun _ => isDigit_of_mem_toDigits
  · next hn =>
    have hpos := pos_of_whole?_eq_none hn
    obtain ⟨whole, fraction, hpointed, hvalue⟩ := positional_pointed (shortest m q)
    refine ⟨whole, fraction, by simpa [signed] using hpointed, read_eq h ?_⟩
    rw [hvalue]
    exact rounds_shortest hpos (canonical_of_finite h)

end Reckoner.Decimal
