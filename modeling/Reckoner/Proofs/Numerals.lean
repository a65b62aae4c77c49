/-
Numbers as text.

The digits of a natural stand for it (`natural_toDigits`), and a decimal written with a point in place is a numeral that
stands for it: digits, a point and digits again (`positional_pointed`). Such a numeral by itself is cut as one token
(`cut_pointed`), and so are the digits of a natural (`cut_toDigits`).
-/
import Mathlib.Data.List.TakeWhile
import Mathlib.Tactic
import Reckoner.Proofs.Spacing

namespace Reckoner

namespace Decimal

/-! ## Digits -/

theorem natural_eq_ofDigitChars (digits : List Char) : natural digits = Nat.ofDigitChars 10 digits 0 := by
  rw [Nat.ofDigitChars_eq_foldl]
  rfl

theorem natural_toDigits (n : Nat) : natural (Nat.toDigits 10 n) = n := by
  rw [natural_eq_ofDigitChars, Nat.ofDigitChars_ten_toDigits]

theorem natural_append (digits more : List Char) :
    natural (digits ++ more) = 10 ^ more.length * natural digits + natural more := by
  rw [natural_eq_ofDigitChars, natural_eq_ofDigitChars, natural_eq_ofDigitChars, Nat.ofDigitChars_append,
    Nat.ofDigitChars_eq_ofDigitChars_zero]

theorem natural_zeros (n : Nat) : natural (zeros n) = 0 := by
  rw [natural_eq_ofDigitChars, zeros, Nat.ofDigitChars_replicate_zero, Nat.mul_zero]

theorem isDigit_of_mem_toDigits {n : Nat} {c : Char} (h : c ∈ Nat.toDigits 10 n) : c.isDigit = true :=
  Nat.isDigit_of_mem_toDigits (by decide) (by decide) h

theorem isDigit_of_mem_zeros {n : Nat} {c : Char} (h : c ∈ zeros n) : c.isDigit = true := by
  rw [List.eq_of_mem_replicate h]
  decide

/-! ## Numerals with a point -/

/-- a numeral with digits before and behind its point -/
structure Pointed (text whole fraction : List Char) : Prop where
  text_eq : text = whole ++ '.' :: fraction
  whole_ne : whole ≠ []
  fraction_ne : fraction ≠ []
  whole_digits : ∀ c ∈ whole, c.isDigit = true
  fraction_digits : ∀ c ∈ fraction, c.isDigit = true

def value (whole fraction : List Char) : ℚ :=
  natural (whole ++ fraction) / 10 ^ fraction.length

theorem pointed_zero {whole : List Char} (hne : whole ≠ []) (h : ∀ c ∈ whole, c.isDigit = true) :
    Pointed (whole ++ ['.', '0']) whole ['0'] :=
  ⟨rfl, hne, by simp, h, by simp⟩

theorem value_zero (whole : List Char) : value whole ['0'] = natural whole := by
  have hzero : natural ['0'] = 0 := by decide
  simp [value, natural_append, hzero]

/-- digits with a point in place are a numeral for the decimal -/
theorem positional_pointed (d : Digits) :
    ∃ whole fraction, Pointed d.positional whole fraction ∧ value whole fraction = d.digits * 10 ^ d.exponent := by
  unfold Digits.positional
  split
  · next hexponent =>
    refine ⟨_, _, pointed_zero (by simp [Nat.toDigits_ne_nil]) fun c hc => ?_, ?_⟩
    · rcases List.mem_append.1 hc with hc | hc
      · exact isDigit_of_mem_toDigits hc
      · exact isDigit_of_mem_zeros hc
    · obtain ⟨k, hk⟩ := Int.eq_ofNat_of_zero_le hexponent
      rw [value_zero, natural_append, natural_toDigits, natural_zeros, hk]
      simp [zeros, mul_comm]
  · next hneg =>
    dsimp only
    obtain ⟨places, hplaces⟩ := Int.eq_ofNat_of_zero_le (Int.neg_nonneg_of_nonpos (not_le.1 hneg).le)
    rw [hplaces, Int.toNat_natCast]
    -- the zeros in front make more digits than there are places
    have hdigits : ∀ c ∈ zeros (places + 1 - (Nat.toDigits 10 d.digits).length) ++ Nat.toDigits 10 d.digits,
        c.isDigit = true := by
      intro c hc
      rcases List.mem_append.1 hc with hc | hc
      · exact isDigit_of_mem_zeros hc
      · exact isDigit_of_mem_toDigits hc
    have hlength : places <
        (zeros (places + 1 - (Nat.toDigits 10 d.digits).length) ++ Nat.toDigits 10 d.digits).length := by
      simp only [zeros, List.length_append, List.length_replicate]
      omega
    have hnatural : natural (zeros (places + 1 - (Nat.toDigits 10 d.digits).length) ++ Nat.toDigits 10 d.digits) =
        d.digits := by
      rw [natural_append, natural_zeros, natural_toDigits, Nat.mul_zero, Nat.zero_add]
    generalize zeros (places + 1 - (Nat.toDigits 10 d.digits).length) ++ Nat.toDigits 10 d.digits = padded
      at hdigits hlength hnatural
    refine ⟨padded.take (padded.length - places), padded.drop (padded.length - places), ⟨rfl, ?_, ?_,
      fun c hc => hdigits c (List.mem_of_mem_take hc), fun c hc => hdigits c (List.mem_of_mem_drop hc)⟩, ?_⟩
    · rw [← List.length_pos_iff, List.length_take]
      omega
    · rw [← List.length_pos_iff, List.length_drop]
      omega
    · have hlast : (padded.drop (padded.length - places)).length = places := by
        rw [List.length_drop]
        omega
      have hexponent : d.exponent = -(places : Int) := by omega
      rw [value, List.take_append_drop, hnatural, hlast, hexponent, zpow_neg, zpow_natCast, div_eq_mul_inv]

end Decimal

/-! ## Numerals as tokens -/

/-- what begins with a digit is a numeral -/
theorem cut_digit (s : Spellings) {c : Char} (h : c.isDigit = true) (cs : List Char) : cut s c cs = cutNumber c cs := by
  have hgap : isGap c = false := by
    by_contra hgap
    rw [isDigit_of_isGap (Bool.not_eq_false _ ▸ hgap)] at h
    cases h
  have hquote : c ≠ '"' := by
    rintro rfl
    exact absurd h (by decide)
  simp [cut, hgap, hquote, h]

theorem takeWhile_point {whole : List Char} (h : ∀ c ∈ whole, c.isDigit = true) (fraction : List Char) :
    (whole ++ '.' :: fraction).takeWhile Char.isDigit = whole ∧
      (whole ++ '.' :: fraction).dropWhile Char.isDigit = '.' :: fraction := by
  have hpoint : Char.isDigit '.' = false := by decide
  simp [List.takeWhile_append_of_pos h, List.dropWhile_append_of_pos h, hpoint]

/-- a numeral with a point is one token by itself, for the number that it stands for -/
theorem cut_pointed (s : Spellings) {c : Char} {cs whole fraction : List Char}
    (h : Decimal.Pointed (c :: cs) whole fraction) :
    cut s c cs = ⟨.token .double (some (.double (Decimal.read whole fraction))), cs, []⟩ := by
  obtain ⟨htext, hwhole, hfraction, hw, hf⟩ := h
  cases whole with
  | nil => exact absurd rfl hwhole
  | cons d whole =>
    obtain ⟨rfl, rfl⟩ := List.cons.inj htext
    have hc : c.isDigit = true := hw c List.mem_cons_self
    have hpoint : c ≠ '.' := by
      rintro rfl
      exact absurd hc (by decide)
    obtain ⟨htake, hdrop⟩ := takeWhile_point (fun d hd => hw d (List.mem_cons_of_mem c hd)) fraction
    have hstart : startsWithDigit fraction = true := by
      cases fraction with
      | nil => exact absurd rfl hfraction
      | cons d rest => exact hf d List.mem_cons_self
    have htake' : fraction.takeWhile Char.isDigit = fraction := List.takeWhile_eq_self_iff.2 hf
    have hdrop' : fraction.dropWhile Char.isDigit = [] := List.dropWhile_eq_nil_iff.2 hf
    rw [cut_digit s hc]
    simp [cutNumber, hpoint, htake, hdrop, cutDigits, hstart, htake', hdrop', fractional]

/-- the digits of a natural that is not too great are one token by themselves -/
theorem cut_toDigits (s : Spellings) {c : Char} {cs : List Char} {n : Nat} (h : Nat.toDigits 10 n = c :: cs)
    (hn : n ≤ maxInteger) : cut s c cs = ⟨.token .integer (some (.integer (Int32.ofNat n))), cs, []⟩ := by
  have hdigits : ∀ d ∈ c :: cs, d.isDigit = true := fun d hd => Decimal.isDigit_of_mem_toDigits (h ▸ hd)
  have hc : c.isDigit = true := hdigits c List.mem_cons_self
  have hcs : ∀ d ∈ cs, d.isDigit = true := fun d hd => hdigits d (List.mem_cons_of_mem c hd)
  have hpoint : c ≠ '.' := by
    rintro rfl
    exact absurd hc (by decide)
  have htake : cs.takeWhile Char.isDigit = cs := List.takeWhile_eq_self_iff.2 hcs
  have hdrop : cs.dropWhile Char.isDigit = [] := List.dropWhile_eq_nil_iff.2 hcs
  have hvalue : Decimal.natural (c :: cs) = n := by rw [← h, Decimal.natural_toDigits]
  rw [cut_digit s hc]
  simp [cutNumber, hpoint, htake, hdrop, cutDigits, wholeNumber, hvalue, hn]

end Reckoner
