/-
Numbers in a source, as `number` cuts them.

A numeral is digits, with or without a point and digits behind them, or a point and digits. Where one begins,
`cutNumber` takes the longest one in front of the text (`cutNumber_longest`); no other step of cutting makes a number
(`begins_of_number`). So the numbers of a source are the longest numerals that begin where cutting comes to one. A
numeral without a point is an integer if it is not too great, and any other is the double nearest to it.

Main statement: `number_tokens_longest`.
-/
import Mathlib.Tactic
import Reckoner.Proofs.Rounding
import Reckoner.Proofs.Scanning

namespace Reckoner

/-! ## Numerals -/

structure DigitRun (text : List Char) : Prop where
  ne_nil : text ≠ []
  digits : ∀ c ∈ text, c.isDigit = true

/-- a text that stands for a number -/
inductive Numeral : List Char → Prop where
  | digits {run : List Char} (h : DigitRun run) : Numeral run
  | pointed {whole fraction : List Char} (hwhole : DigitRun whole) (hfraction : DigitRun fraction) :
      Numeral (whole ++ '.' :: fraction)
  | fraction {run : List Char} (h : DigitRun run) : Numeral ('.' :: run)

/-- A numeral in front of a text that cannot be made longer there. -/
structure LongestNumeral (text found : List Char) : Prop where
  numeral : Numeral found
  inFront : found <+: text
  longest : ∀ other, Numeral other → other <+: text → other.length ≤ found.length

/-- the digits of a numeral in front of its point, all of them if it has none -/
def wholePart (numeral : List Char) : List Char :=
  numeral.takeWhile (· != '.')

def fractionPart (numeral : List Char) : List Char :=
  (numeral.dropWhile (· != '.')).tail

def numeralValue (numeral : List Char) : ℚ :=
  Decimal.value (wholePart numeral) (fractionPart numeral)

/-- the piece that a numeral makes -/
def numberPiece (numeral : List Char) : Piece :=
  if '.' ∈ numeral then fractional (wholePart numeral) (fractionPart numeral) else wholeNumber numeral

namespace DigitRun

variable {run : List Char}

theorem ne_point (h : DigitRun run) : ∀ c ∈ run, (c != '.') = true := by
  intro c hc
  have hdigit := h.digits c hc
  rw [bne_iff_ne]
  rintro rfl
  exact absurd hdigit (by decide)

theorem point_notMem (h : DigitRun run) : '.' ∉ run := fun hmem =>
  absurd (h.ne_point '.' hmem) (by decide)

theorem startsWithDigit (h : DigitRun run) : startsWithDigit run = true := by
  cases run with
  | nil => exact absurd rfl h.ne_nil
  | cons c run => exact h.digits c List.mem_cons_self

theorem numberPiece (h : DigitRun run) : numberPiece run = wholeNumber run :=
  if_neg h.point_notMem

/-- digits in front of a text are among all the digits in front of it -/
theorem length_le {text : List Char} (h : DigitRun run) (hfront : run <+: text) :
    run.length ≤ (text.takeWhile Char.isDigit).length := by
  obtain ⟨tail, rfl⟩ := hfront
  rw [List.takeWhile_append_of_pos h.digits, List.length_append]
  exact Nat.le_add_right _ _

/-- digits with a point behind them are all the digits in front of a text -/
theorem split {text fraction : List Char} (h : DigitRun run) (hfront : run ++ '.' :: fraction <+: text) :
    text.takeWhile Char.isDigit = run ∧ '.' :: fraction <+: text.dropWhile Char.isDigit := by
  obtain ⟨tail, rfl⟩ := hfront
  obtain ⟨htake, hdrop⟩ := takeWhile_point h.digits (fraction ++ tail)
  rw [List.append_assoc, List.cons_append, htake, hdrop]
  exact ⟨rfl, tail, rfl⟩

end DigitRun

theorem numberPiece_fractional {whole : List Char} (fraction : List Char) (hwhole : ∀ c ∈ whole, (c != '.') = true) :
    numberPiece (whole ++ '.' :: fraction) = fractional whole fraction := by
  have hmem : '.' ∈ whole ++ '.' :: fraction := List.mem_append_right _ List.mem_cons_self
  rw [numberPiece, if_pos hmem, wholePart, fractionPart, List.takeWhile_append_of_pos hwhole,
    List.dropWhile_append_of_pos hwhole]
  simp

theorem digitRun_takeWhile {text : List Char} (h : startsWithDigit text = true) :
    DigitRun (text.takeWhile Char.isDigit) := by
  refine ⟨fun hnil => ?_, fun c => List.mem_takeWhile_imp⟩
  have hstart := startsWithDigit_takeWhile h
  rw [hnil] at hstart
  cases hstart

/-! ## The longest numeral -/

/-- a numeral of digits only is the longest if no point with a digit follows the digits -/
theorem longestNumeral_digits {text : List Char} (h : startsWithDigit text = true)
    (hrest : startsFraction (text.dropWhile Char.isDigit) = false) :
    LongestNumeral text (text.takeWhile Char.isDigit) := by
  refine ⟨.digits (digitRun_takeWhile h), List.takeWhile_prefix _, fun other hother hfront => ?_⟩
  cases hother with
  | digits hrun => exact hrun.length_le hfront
  | pointed hwhole hfraction =>
    obtain ⟨-, tail, hpoint⟩ := hwhole.split hfront
    rw [← hpoint] at hrest
    exact absurd (hrest.symm.trans (startsWithDigit_append hfraction.startsWithDigit tail)) (by decide)
  | fraction hrun =>
    obtain ⟨tail, rfl⟩ := hfront
    cases h

/-- otherwise the point and the digits behind it belong to it -/
theorem longestNumeral_pointed {text more : List Char} (h : startsWithDigit text = true)
    (hrest : text.dropWhile Char.isDigit = '.' :: more) (hmore : startsWithDigit more = true) :
    LongestNumeral text (text.takeWhile Char.isDigit ++ '.' :: more.takeWhile Char.isDigit) := by
  refine ⟨.pointed (digitRun_takeWhile h) (digitRun_takeWhile hmore), ?_, fun other hother hfront => ?_⟩
  · refine ⟨more.dropWhile Char.isDigit, ?_⟩
    rw [List.append_assoc, List.cons_append, List.takeWhile_append_dropWhile, ← hrest,
      List.takeWhile_append_dropWhile]
  rw [List.length_append, List.length_cons]
  cases hother with
  | digits hrun => exact (hrun.length_le hfront).trans (Nat.le_add_right _ _)
  | pointed hwhole hfraction =>
    obtain ⟨htake, hpoint⟩ := hwhole.split hfront
    rw [hrest] at hpoint
    have hle := hfraction.length_le (List.cons_prefix_cons.1 hpoint).2
    rw [htake, List.length_append, List.length_cons]
    omega
  | fraction hrun =>
    obtain ⟨tail, rfl⟩ := hfront
    cases h

/-- a point and the digits behind it -/
theorem longestNumeral_fraction {text : List Char} (h : startsWithDigit text = true) :
    LongestNumeral ('.' :: text) ('.' :: text.takeWhile Char.isDigit) := by
  have hpoint : ∀ {run tail : List Char}, DigitRun run → run ++ tail ≠ '.' :: text := by
    intro run tail hrun heq
    have hstart := startsWithDigit_append hrun.startsWithDigit tail
    rw [heq] at hstart
    exact absurd hstart (by simp [startsWithDigit])
  refine ⟨.fraction (digitRun_takeWhile h), ?_, fun other hother hfront => ?_⟩
  · exact List.cons_prefix_cons.2 ⟨rfl, List.takeWhile_prefix _⟩
  cases hother with
  | digits hrun =>
    obtain ⟨tail, htail⟩ := hfront
    exact absurd htail (hpoint hrun)
  | pointed hwhole hfraction =>
    obtain ⟨tail, htail⟩ := hfront
    rw [List.append_assoc] at htail
    exact absurd htail (hpoint hwhole)
  | fraction hrun =>
    have hle := hrun.length_le (List.cons_prefix_cons.1 hfront).2
    simpa using hle

/-- whether a numeral begins with a character, given the text behind it -/
def beginsNumeral (c : Char) (cs : List Char) : Bool :=
  c.isDigit || c == '.' && startsWithDigit cs

/-- **The longest numeral** is taken, and the piece is the one that it makes. -/
theorem cutNumber_longest {c : Char} {cs : List Char} (h : beginsNumeral c cs = true) :
    LongestNumeral (c :: cs) (c :: (cutNumber c cs).more) ∧
      (cutNumber c cs).piece = numberPiece (c :: (cutNumber c cs).more) := by
  by_cases hpoint : c = '.'
  · subst hpoint
    have hstart : startsWithDigit cs = true := h
    have hpiece := numberPiece_fractional (cs.takeWhile Char.isDigit) (List.forall_mem_nil _)
    exact ⟨longestNumeral_fraction hstart, hpiece.symm⟩
  have hc : c.isDigit = true := by simpa [beginsNumeral, hpoint] using h
  have hstart : startsWithDigit (c :: cs) = true := hc
  have htake : (c :: cs).takeWhile Char.isDigit = c :: cs.takeWhile Char.isDigit := List.takeWhile_cons_of_pos hc
  have hdrop : (c :: cs).dropWhile Char.isDigit = cs.dropWhile Char.isDigit := List.dropWhile_cons_of_pos hc
  have hrun : DigitRun (c :: cs.takeWhile Char.isDigit) := htake ▸ digitRun_takeWhile hstart
  simp only [cutNumber, if_neg hpoint]
  cases hfraction : startsFraction (cs.dropWhile Char.isDigit) with
  | false =>
    rw [cutDigits_of_startsFraction c _ hfraction]
    exact ⟨htake ▸ longestNumeral_digits hstart (hdrop ▸ hfraction), hrun.numberPiece.symm⟩
  | true =>
    obtain ⟨more, hmore, hdigit⟩ := exists_of_startsFraction hfraction
    rw [hmore]
    have hlongest := longestNumeral_pointed hstart (hdrop.trans hmore) hdigit
    rw [htake] at hlongest
    simp only [cutDigits, hdigit, if_true]
    exact ⟨hlongest, (numberPiece_fractional _ hrun.ne_point).symm⟩

/-- at most one numeral in front of a text is the longest -/
theorem LongestNumeral.unique {text found found' : List Char} (h : LongestNumeral text found)
    (h' : LongestNumeral text found') : found = found' := by
  have hlength : found.length = found'.length :=
    le_antisymm (h'.longest _ h.numeral h.inFront) (h.longest _ h'.numeral h'.inFront)
  exact (List.prefix_of_prefix_length_le h.inFront h'.inFront hlength.le).eq_of_length hlength

/-! ## Where numbers are made -/

/-- where a numeral begins, one is taken -/
theorem cut_of_begins (s : Spellings) {c : Char} {cs : List Char} (h : beginsNumeral c cs = true) :
    cut s c cs = cutNumber c cs := by
  by_cases hc : c.isDigit = true
  · exact cut_digit s hc cs
  · simp only [beginsNumeral, hc, Bool.false_or, Bool.and_eq_true, beq_iff_eq] at h
    obtain ⟨rfl, hstart⟩ := h
    have hgap : isGap '.' = false := by decide
    simp [cut, hgap, hstart]

theorem cutOperator_plain {c : Char} {cs : List Char} {kind : Kind} {literal : Option Literal}
    (h : (cutOperator c cs).piece = .token kind literal) : kind.holdsConstant = false := by
  unfold cutOperator at h
  split at h
  · next found n hfound =>
    cases h
    exact (operator?_plain hfound).2
  · cases h

/-- **No other step makes a number.** -/
theorem begins_of_number {s : Spellings} {c : Char} {cs : List Char} {kind : Kind} {literal : Option Literal}
    (h : (cut s c cs).piece = .token kind literal) (hkind : kind = .integer ∨ kind = .double) :
    beginsNumeral c cs = true := by
  have hconstant : kind.holdsConstant ≠ false := by rcases hkind with rfl | rfl <;> decide
  unfold cut at h
  split at h
  · cases h
  split at h
  · unfold cutString at h
    split at h <;> cases h
    simp at hkind
  split at h
  · next hbegins => exact hbegins
  split at h
  · simp only [cutWord] at h
    split at h
    · next found hfound =>
      obtain ⟨k, -, rfl⟩ := Option.map_eq_some_iff.1 hfound
      cases h
      exact absurd k.kind_plain.2 hconstant
    · cases h
      simp at hkind
  split at h
  · split at h
    · cases h
    · unfold cutBlockComment at h
      split at h <;> cases h
    · exact absurd (cutOperator_plain h) hconstant
  · exact absurd (cutOperator_plain h) hconstant

/-! ## Number tokens -/

/-- A number of a source: the longest numeral at its place, an integer exactly if it has no point and is not too great,
and the double nearest to it otherwise. -/
structure Token.IsNumber (text : List Char) (t : Token) : Prop where
  longest : LongestNumeral (text.drop t.span.start) t.lexeme.toList
  integer_iff : t.kind = .integer ↔ '.' ∉ t.lexeme.toList ∧ Nat.ofDigitChars 10 t.lexeme.toList 0 ≤ 2147483647
  integer : t.kind = .integer →
    ∃ n, t.literal = some (.integer n) ∧ n.toInt = Nat.ofDigitChars 10 t.lexeme.toList 0
  double : t.kind ≠ .integer → t.kind = .double ∧
    ∃ x, t.literal = some (.double x) ∧ ∀ y, Decimal.Nearest y (numeralValue t.lexeme.toList) ↔ y = x

theorem toInt_ofNat_of_le {n : Nat} (h : n ≤ 2147483647) : (Int32.ofNat n).toInt = n := by
  rw [← Int32.ofInt_eq_ofNat]
  exact Int32.toInt_ofInt_of_le (by omega) (by omega)

/-- a numeral without a point is all in front of it -/
theorem parts_of_notMem {numeral : List Char} (h : '.' ∉ numeral) :
    wholePart numeral = numeral ∧ fractionPart numeral = [] := by
  have hall : ∀ c ∈ numeral, (c != '.') = true := fun c hc => bne_iff_ne.2 fun heq => h (heq ▸ hc)
  refine ⟨List.takeWhile_eq_self_iff.2 hall, ?_⟩
  rw [fractionPart, List.dropWhile_eq_nil_iff.2 hall, List.tail_nil]

/-- the integer or the double that a numeral makes -/
theorem isNumber_of_piece {text : List Char} {t : Token}
    (hlongest : LongestNumeral (text.drop t.span.start) t.lexeme.toList)
    (hpiece : numberPiece t.lexeme.toList = .token t.kind t.literal) : t.IsNumber text := by
  have hnearest : ∀ x, Decimal.Nearest x (numeralValue t.lexeme.toList) ↔
      x = Decimal.read (wholePart t.lexeme.toList) (fractionPart t.lexeme.toList) := fun x =>
    Decimal.nearest_iff_eq_read _ _
  unfold numberPiece at hpiece
  split at hpiece
  · next hpoint =>
    obtain ⟨hkind, hliteral⟩ := Piece.token.inj hpiece
    refine ⟨hlongest, ?_, ?_, fun _ => ⟨hkind.symm, _, hliteral.symm, hnearest⟩⟩
    · simp [← hkind, hpoint]
    · simp [← hkind]
  · next hpoint =>
    obtain ⟨hwhole, hfraction⟩ := parts_of_notMem hpoint
    rw [hwhole, hfraction] at hnearest
    simp only [wholeNumber, Decimal.natural_eq_ofDigitChars, maxInteger] at hpiece
    split at hpiece
    · next hle =>
      obtain ⟨hkind, hliteral⟩ := Piece.token.inj hpiece
      refine ⟨hlongest, ?_, fun _ => ⟨_, hliteral.symm, toInt_ofNat_of_le hle⟩, fun hne => absurd hkind.symm hne⟩
      simp [← hkind, hpoint, hle]
    · next hgreat =>
      obtain ⟨hkind, hliteral⟩ := Piece.token.inj hpiece
      refine ⟨hlongest, ?_, ?_, fun _ => ⟨hkind.symm, _, hliteral.symm, hnearest⟩⟩
      · simp [← hkind, hgreat]
      · simp [← hkind]

theorem numberPiece_token (numeral : List Char) : ∃ kind literal, numberPiece numeral = .token kind literal := by
  unfold numberPiece wholeNumber
  dsimp only
  split_ifs
  · exact ⟨_, _, rfl⟩
  · exact ⟨_, _, rfl⟩
  · exact ⟨_, _, rfl⟩

/-- the token that is found where a numeral begins -/
theorem Reaches.isNumber {s : Spellings} {source : String} {before cs : List Char} {c : Char} {t : Token}
    (h : Reaches s source.toList before (c :: cs)) (hbegins : beginsNumeral c cs = true)
    (hpiece : (cut s c cs).piece = .token t.kind t.literal)
    (hlexeme : t.lexeme = String.ofList (c :: (cut s c cs).more)) (hstart : t.span.start = before.length) :
    t.IsNumber source.toList := by
  obtain ⟨hlongest, hnumber⟩ := cutNumber_longest hbegins
  rw [← cut_of_begins s hbegins] at hlongest hnumber
  have htext : t.lexeme.toList = c :: (cut s c cs).more := by rw [hlexeme, String.toList_ofList]
  refine isNumber_of_piece ?_ ?_
  · rw [hstart, ← h.append_eq, List.drop_left, htext]
    exact hlongest
  · rw [htext, ← hnumber, hpiece]

/-- **Numbers are the longest numerals.** A token of a source that is a number is the longest numeral at its place,
and it is the integer or the double that the numeral stands for. A token that begins like a numeral is a number, and
where cutting comes to the beginning of a numeral, there is one. -/
theorem number_tokens_longest (s : Spellings) (source : String) :
    (∀ t ∈ (lex s source).tokens, t.kind = .integer ∨ t.kind = .double → t.IsNumber source.toList) ∧
    (∀ t ∈ (lex s source).tokens, ∀ c cs, source.toList.drop t.span.start = c :: cs → beginsNumeral c cs = true →
      t.IsNumber source.toList) ∧
    ∀ before c cs, Reaches s source.toList before (c :: cs) → beginsNumeral c cs = true →
      ∃ t ∈ (lex s source).tokens, t.span.start = before.length ∧ t.IsNumber source.toList := by
  refine ⟨fun t ht hkind => ?_, fun t ht c cs htext hbegins => ?_, fun before c cs h hbegins => ?_⟩
  · rcases exists_reaches_of_token ht with ⟨before, c, cs, h, hpiece, hlexeme, hstart⟩ | ⟨heof, -⟩
    · exact h.isNumber (begins_of_number hpiece hkind) hpiece hlexeme hstart
    · simp [heof] at hkind
  · rcases exists_reaches_of_token ht with ⟨before, d, ds, h, hpiece, hlexeme, hstart⟩ | ⟨-, hend⟩
    · rw [hstart, ← h.append_eq, List.drop_left] at htext
      obtain ⟨rfl, rfl⟩ := List.cons.inj htext
      exact h.isNumber hbegins hpiece hlexeme hstart
    · rw [hend, List.drop_length] at htext
      cases htext
  · obtain ⟨-, hnumber⟩ := cutNumber_longest hbegins
    rw [← cut_of_begins s hbegins] at hnumber
    obtain ⟨kind, literal, hpiece⟩ := numberPiece_token (c :: (cut s c cs).more)
    obtain ⟨t, ht, rfl, rfl, hlexeme, hspan⟩ := h.exists_token (hnumber.trans hpiece)
    have hstart : t.span.start = before.length := congrArg Span.start hspan
    exact ⟨t, ht, hstart, h.isNumber hbegins (hnumber.trans hpiece) hlexeme hstart⟩

namespace Sample

/-- the greatest integer with zeros in front, a point, and a numeral that begins with one -/
def numerals : String := "0002147483647..5"

end Sample

theorem number_tokens_longest_numerals :
    (∃ t ∈ (lex .standard Sample.numerals).tokens, t.span.start = 0 ∧ t.kind = .integer ∧
      ∃ n, t.literal = some (.integer n) ∧ n.toInt = 2147483647) ∧
    ∃ t ∈ (lex .standard Sample.numerals).tokens, t.span.start = 14 ∧ t.kind = .double ∧
      ∃ x, t.literal = some (.double x) ∧ ∀ y, Decimal.Nearest y (1 / 2) ↔ y = x := by
  have hfirst : Reaches .standard Sample.numerals.toList [] ('0' :: "002147483647..5".toList) := .start
  have hpoint : Reaches .standard Sample.numerals.toList "0002147483647".toList ('.' :: ".5".toList) := hfirst.next
  have hlast : Reaches .standard Sample.numerals.toList "0002147483647.".toList ('.' :: "5".toList) := hpoint.next
  obtain ⟨-, -, hnumbers⟩ := number_tokens_longest .standard Sample.numerals
  constructor
  · have hbegins : beginsNumeral '0' "002147483647..5".toList = true := rfl
    obtain ⟨t, ht, hstart, hnumber⟩ := hnumbers _ _ _ hfirst hbegins
    have hlongest : LongestNumeral (Sample.numerals.toList.drop t.span.start) "0002147483647".toList :=
      hstart ▸ (cutNumber_longest hbegins).1
    have htext := hnumber.longest.unique hlongest
    have hvalue : Nat.ofDigitChars 10 t.lexeme.toList 0 = 2147483647 := by rw [htext]; rfl
    have hkind : t.kind = .integer := hnumber.integer_iff.2 ⟨by rw [htext]; decide, hvalue.le⟩
    obtain ⟨n, hliteral, hn⟩ := hnumber.integer hkind
    exact ⟨t, ht, hstart, hkind, n, hliteral, by rw [hn, hvalue]; rfl⟩
  · have hbegins : beginsNumeral '.' "5".toList = true := rfl
    obtain ⟨t, ht, hstart, hnumber⟩ := hnumbers _ _ _ hlast hbegins
    have hlongest : LongestNumeral (Sample.numerals.toList.drop t.span.start) ".5".toList :=
      hstart ▸ (cutNumber_longest hbegins).1
    have htext := hnumber.longest.unique hlongest
    have hvalue : numeralValue t.lexeme.toList = 1 / 2 := by
      have hwhole : wholePart ".5".toList = [] := rfl
      have hfraction : fractionPart ".5".toList = ['5'] := rfl
      have hnatural : Decimal.natural ['5'] = 5 := rfl
      rw [htext, numeralValue, hwhole, hfraction, Decimal.value, List.nil_append, hnatural]
      norm_num
    obtain ⟨hkind, x, hliteral, hx⟩ := hnumber.double fun hkind => (hnumber.integer_iff.1 hkind).1 (htext ▸ by decide)
    exact ⟨t, ht, hstart, hkind, x, hliteral, hvalue ▸ hx⟩

end Reckoner
