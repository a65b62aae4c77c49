/-
How far a token looks ahead.

What a token is depends on the characters behind it only as far as they could go on with it: a digit with a numeral, a
point and a digit with one that has no point yet, a letter with a word, a few characters with an operator. `Follows rest
after` says that `after` goes on with nothing that `rest` does not go on with. So a token in front of `rest` is the same
token in front of `after` (`cut_of_follows`).

Texts that follow any other: those that begin with a blank, and the empty one (`follows_of_gapped`). Texts that begin
alike follow each other, up to the second character (`Follows.append`).
-/
import Mathlib.Data.List.TakeWhile
import Mathlib.Tactic
import Reckoner.Token.Lex

namespace Reckoner

/-! ## What goes on with a token -/

def startsFraction : List Char → Bool
  | '.' :: rest => startsWithDigit rest
  | _ => false

def goesOnWord : List Char → Bool
  | [] => false
  | c :: _ => Text.continuesWord c

/-- the characters that make a longer operator of the one before them, or a comment -/
def seconds : List Char := ['=', '*', '<', '>', '/']

/-- `after` goes on with no token that `rest` does not go on with. -/
structure Follows (rest after : List Char) : Prop where
  digit : startsWithDigit rest = false → startsWithDigit after = false
  fraction : startsFraction rest = false → startsFraction after = false
  word : goesOnWord rest = false → goesOnWord after = false
  second : ∀ c ∈ seconds, rest.head? ≠ some c → after.head? ≠ some c

/-- what stands in front of two texts hides all but their first characters -/
theorem Follows.append {rest after : List Char} (h : Follows rest after) (front : List Char) :
    Follows (front ++ rest) (front ++ after) := by
  cases front with
  | nil => exact h
  | cons c front =>
    refine ⟨id, fun hrest => ?_, id, fun d _ => id⟩
    by_cases hc : c = '.'
    · subst hc
      cases front with
      | nil => exact h.digit hrest
      | cons d front => exact hrest
    · simp [startsFraction, hc]

/-! ## Blanks -/

/-- a text that begins with a blank, or is empty -/
def Gapped (text : List Char) : Prop :=
  ∀ c ∈ text.head?, isGap c = true

theorem gapped_nil : Gapped [] := by
  intro c hc
  cases hc

theorem gapped_cons {c : Char} (h : isGap c = true) (text : List Char) : Gapped (c :: text) := by
  intro c' hc'
  cases hc'
  exact h

theorem isDigit_of_isGap {c : Char} (h : isGap c = true) : c.isDigit = false := by
  rcases isGap_iff.1 h with rfl | rfl | rfl | rfl <;> decide

theorem continuesWord_of_isGap {c : Char} (h : isGap c = true) : Text.continuesWord c = false := by
  rcases isGap_iff.1 h with rfl | rfl | rfl | rfl <;> decide

/-- **A blank goes on with nothing,** and neither does the end of the text. -/
theorem follows_of_gapped (rest : List Char) {after : List Char} (h : Gapped after) : Follows rest after := by
  cases after with
  | nil => exact ⟨fun _ => rfl, fun _ => rfl, fun _ => rfl, fun _ _ _ => by simp⟩
  | cons g after =>
    have hgap : isGap g = true := h g rfl
    refine ⟨fun _ => isDigit_of_isGap hgap, fun _ => ?_, fun _ => continuesWord_of_isGap hgap, fun c hc _ heq => ?_⟩
    · have hpoint : g ≠ '.' := by
        rintro rfl
        cases hgap
      simp [startsFraction, hpoint]
    · cases heq
      rcases isGap_iff.1 hgap with rfl | rfl | rfl | rfl <;> revert hc <;> decide

/-! ## Runs of one class -/

section
variable {p : Char → Bool} {run after : List Char} (hrun : ∀ c ∈ run, p c = true)
  (hafter : ∀ c ∈ after.head?, p c = false)
include hrun hafter

/-- a run of characters of one class ends in front of a character of another -/
theorem takeWhile_run : (run ++ after).takeWhile p = run := by
  rw [List.takeWhile_append_of_pos hrun]
  cases after with
  | nil => simp
  | cons c rest => simp [hafter c rfl]

theorem dropWhile_run : (run ++ after).dropWhile p = after := by
  rw [List.dropWhile_append_of_pos hrun]
  cases after with
  | nil => rfl
  | cons c rest => simp [hafter c rfl]

end

theorem head?_of_startsWithDigit {text : List Char} (h : startsWithDigit text = false) :
    ∀ c ∈ text.head?, c.isDigit = false := by
  intro c hc
  cases text with
  | nil => cases hc
  | cons d text =>
    cases hc
    exact h

theorem head?_of_goesOnWord {text : List Char} (h : goesOnWord text = false) :
    ∀ c ∈ text.head?, Text.continuesWord c = false := by
  intro c hc
  cases text with
  | nil => cases hc
  | cons d text =>
    cases hc
    exact h

theorem startsWithDigit_dropWhile (text : List Char) : startsWithDigit (text.dropWhile Char.isDigit) = false := by
  have h := List.head?_dropWhile_not Char.isDigit text
  cases hd : text.dropWhile Char.isDigit with
  | nil => rfl
  | cons c rest =>
    rw [hd] at h
    simpa [startsWithDigit] using h

theorem goesOnWord_dropWhile (text : List Char) : goesOnWord (text.dropWhile Text.continuesWord) = false := by
  have h := List.head?_dropWhile_not Text.continuesWord text
  cases hd : text.dropWhile Text.continuesWord with
  | nil => rfl
  | cons c rest =>
    rw [hd] at h
    simpa [goesOnWord] using h

/-! ## Strings -/

theorem closeQuote?_before {text body rest : List Char} (h : closeQuote? text = some (body, rest))
    (after : List Char) : closeQuote? (body ++ '"' :: after) = some (body, after) := by
  fun_induction closeQuote? text generalizing body rest with
  | case1 => simp at h
  | case2 rest =>
    obtain ⟨rfl, -⟩ := Prod.mk.inj (Option.some.inj h)
    rfl
  | case3 c text ih =>
    obtain ⟨⟨b, a⟩, hr, hb⟩ := Option.map_eq_some_iff.1 h
    obtain ⟨rfl, -⟩ := Prod.mk.inj hb
    simp [closeQuote?, ih hr]
  | case4 c text _ hescape ih =>
    obtain ⟨⟨b, a⟩, hr, hb⟩ := Option.map_eq_some_iff.1 h
    obtain ⟨rfl, -⟩ := Prod.mk.inj hb
    -- a backslash here would be the last character, and the string would not be closed
    have hslash : c ≠ '\\' := by
      rintro rfl
      cases text with
      | nil => cases hr
      | cons d text => exact hescape d text rfl rfl
    simp [closeQuote?, hslash, ih hr]

theorem cutString_before {cs : List Char} {kind : Kind} {literal : Option Literal}
    (h : (cutString cs).piece = .token kind literal) (after : List Char) :
    cutString ((cutString cs).more ++ after) = { cutString cs with rest := after } := by
  cases hclose : closeQuote? cs with
  | none => simp [cutString, hclose] at h
  | some found =>
    obtain ⟨body, rest⟩ := found
    have hbefore := closeQuote?_before hclose after
    simp [cutString, hclose, hbefore]

/-! ## Numerals -/

theorem startsWithDigit_append {run : List Char} (h : startsWithDigit run = true) (after : List Char) :
    startsWithDigit (run ++ after) = true := by
  cases run with
  | nil => cases h
  | cons c run => exact h

theorem startsWithDigit_takeWhile {text : List Char} (h : startsWithDigit text = true) :
    startsWithDigit (text.takeWhile Char.isDigit) = true := by
  cases text with
  | nil => cases h
  | cons c text =>
    have hc : c.isDigit = true := h
    simp [startsWithDigit, hc]

theorem exists_of_startsFraction {text : List Char} (h : startsFraction text = true) :
    ∃ more, text = '.' :: more ∧ startsWithDigit more = true := by
  unfold startsFraction at h
  split at h
  · exact ⟨_, rfl, h⟩
  · cases h

/-- digits in front of no point with a digit are a numeral without a point -/
theorem cutDigits_of_startsFraction (c : Char) (digits : List Char) {rest : List Char} (h : startsFraction rest = false) :
    cutDigits c digits rest = ⟨wholeNumber (c :: digits), digits, rest⟩ := by
  fun_cases cutDigits c digits rest with
  | case1 more hmore => exact absurd (h.symm.trans hmore) (by decide)
  | case2 | case3 => rfl

theorem cutNumber_of_follows (c : Char) (cs : List Char) {after : List Char}
    (h : Follows (cutNumber c cs).rest after) :
    cutNumber c ((cutNumber c cs).more ++ after) = { cutNumber c cs with rest := after } := by
  have hdigits : ∀ d ∈ cs.takeWhile Char.isDigit, d.isDigit = true := fun d => List.mem_takeWhile_imp
  have hdropped := startsWithDigit_dropWhile cs
  by_cases hc : c = '.'
  · simp only [cutNumber, hc, if_true] at h ⊢
    have hafter := head?_of_startsWithDigit (h.digit hdropped)
    rw [takeWhile_run hdigits hafter, dropWhile_run hdigits hafter]
  simp only [cutNumber, hc, if_false] at h ⊢
  generalize cs.takeWhile Char.isDigit = digits at hdigits h
  generalize cs.dropWhile Char.isDigit = rest at hdropped h
  cases hfraction : startsFraction rest with
  | false =>
    rw [cutDigits_of_startsFraction c digits hfraction] at h ⊢
    have hafter := head?_of_startsWithDigit (h.digit hdropped)
    rw [takeWhile_run hdigits hafter, dropWhile_run hdigits hafter,
      cutDigits_of_startsFraction c digits (h.fraction hfraction)]
  | true =>
    -- the point ends the first run of digits, and what follows ends the second
    obtain ⟨more, rfl, hmore⟩ := exists_of_startsFraction hfraction
    simp only [cutDigits, hmore, if_true] at h ⊢
    have hrun : ∀ d ∈ more.takeWhile Char.isDigit, d.isDigit = true := fun d => List.mem_takeWhile_imp
    have hafter := head?_of_startsWithDigit (h.digit (startsWithDigit_dropWhile more))
    have hstart := startsWithDigit_append (startsWithDigit_takeWhile hmore) after
    have hpoint : ∀ d ∈ ('.' :: (more.takeWhile Char.isDigit ++ after)).head?, d.isDigit = false := by
      intro d hd
      cases hd
      decide
    rw [List.append_assoc, List.cons_append, takeWhile_run hdigits hpoint, dropWhile_run hdigits hpoint]
    simp only [hstart, if_true, takeWhile_run hrun hafter, dropWhile_run hrun hafter]

/-! ## Words -/

theorem cutWord_of_follows (s : Spellings) (c : Char) (cs : List Char) {after : List Char}
    (h : Follows (cutWord s c cs).rest after) :
    cutWord s c ((cutWord s c cs).more ++ after) = { cutWord s c cs with rest := after } := by
  have hrun : ∀ d ∈ cs.takeWhile Text.continuesWord, Text.continuesWord d = true := fun d => List.mem_takeWhile_imp
  have hafter := head?_of_goesOnWord (h.word (goesOnWord_dropWhile cs))
  simp only [cutWord, takeWhile_run hrun hafter, dropWhile_run hrun hafter]

/-! ## Operators -/

/-- an operator takes the character behind its first one, or none -/
theorem operator?_reach {c : Char} {next : Option Char} {kind : Kind} {n : Nat}
    (h : operator? c next = some (kind, n)) : n = 0 ∨ n = 1 ∧ next ≠ none := by
  unfold operator? at h
  split at h
  all_goals cases h
  all_goals simp

/-- an operator of one character is the same in front of another that makes no longer one of it -/
theorem operator?_of_seconds {c : Char} {next next' : Option Char} {kind : Kind}
    (h : operator? c next = some (kind, 0)) (hnext : ∀ d ∈ seconds, next ≠ some d → next' ≠ some d) :
    operator? c next' = some (kind, 0) := by
  simp only [seconds, List.mem_cons, List.not_mem_nil, or_false, forall_eq_or_imp, forall_eq] at hnext
  obtain ⟨hequal, hstar, hless, hgreater, -⟩ := hnext
  unfold operator? at h
  split at h
  all_goals cases h
  all_goals first
    | rfl
    | unfold operator?
      split
      all_goals simp_all

theorem cutOperator_of_follows {c : Char} {cs after : List Char} {kind : Kind} {literal : Option Literal}
    (hpiece : (cutOperator c cs).piece = .token kind literal) (h : Follows (cutOperator c cs).rest after) :
    cutOperator c ((cutOperator c cs).more ++ after) = { cutOperator c cs with rest := after } := by
  cases hop : operator? c cs.head? with
  | none => simp [cutOperator, hop] at hpiece
  | some found =>
    obtain ⟨k, n⟩ := found
    rcases operator?_reach hop with rfl | ⟨rfl, hcs⟩
    · simp only [cutOperator, hop, List.take_zero, List.drop_zero, List.nil_append] at h ⊢
      rw [operator?_of_seconds hop h.second]
      rfl
    · cases cs with
      | nil => exact absurd rfl hcs
      | cons d cs =>
        rw [List.head?_cons] at hop
        simp [cutOperator, hop]

/-- whether the text behind a slash makes it the beginning of a comment -/
def opensComment : List Char → Bool
  | '/' :: _ => true
  | '*' :: _ => true
  | _ => false

theorem opensComment_eq_false_iff {text : List Char} :
    opensComment text = false ↔ text.head? ≠ some '/' ∧ text.head? ≠ some '*' := by
  unfold opensComment
  split
  · simp
  · simp
  · next hslash hstar =>
    refine iff_of_true rfl ⟨fun h => ?_, fun h => ?_⟩
    · obtain ⟨rest, rfl⟩ := List.head?_eq_some_iff.1 h
      exact hslash rest rfl
    · obtain ⟨rest, rfl⟩ := List.head?_eq_some_iff.1 h
      exact hstar rest rfl

/-- a slash that is a token begins no comment -/
theorem opensComment_of_token {s : Spellings} {cs : List Char} {kind : Kind} {literal : Option Literal}
    (h : (cut s '/' cs).piece = .token kind literal) : opensComment cs = false := by
  unfold opensComment
  split
  · cases h
  · next inner =>
    exfalso
    have hcut : cut s '/' ('*' :: inner) = cutBlockComment inner := rfl
    rw [hcut] at h
    unfold cutBlockComment at h
    split at h <;> cases h
  · rfl

/-! ## One token -/

/-- a point that begins no numeral is an operator -/
theorem cut_point {s : Spellings} {cs : List Char} (h : startsWithDigit cs = false) :
    cut s '.' cs = ⟨.token .dot none, [], cs⟩ := by
  have hgap : isGap '.' = false := by decide
  have hdigit : Char.isDigit '.' = false := by decide
  have hword : Text.startsWord '.' = false := by decide
  simp [cut, cutOperator, operator?, hgap, hdigit, hword, h]

/-- a slash that begins no comment is an operator -/
theorem cut_slash {s : Spellings} {cs : List Char} (h : opensComment cs = false) :
    cut s '/' cs = ⟨.token .slash none, [], cs⟩ := by
  have hgap : isGap '/' = false := by decide
  have hdigit : Char.isDigit '/' = false := by decide
  have hword : Text.startsWord '/' = false := by decide
  unfold opensComment at h
  split at h
  · cases h
  · cases h
  · simp [cut, cutOperator, operator?, hgap, hdigit, hword]

/-- **A token and what stands behind it.** Cut from its own characters with another text behind them, which goes on with
nothing that the first did not go on with, it is the same token. -/
theorem cut_of_follows {s : Spellings} {c : Char} {cs after : List Char} {kind : Kind} {literal : Option Literal}
    (hpiece : (cut s c cs).piece = .token kind literal) (h : Follows (cut s c cs).rest after) :
    cut s c ((cut s c cs).more ++ after) = { cut s c cs with rest := after } := by
  -- what is looked for depends on the first character, but for the point and the slash
  by_cases hgap : isGap c = true
  · simp [cut, hgap] at hpiece
  by_cases hquote : c = '"'
  · have hcut : ∀ cs, cut s c cs = cutString cs := fun cs => by
      unfold cut
      rw [if_neg hgap, if_pos hquote]
    rw [hcut] at hpiece ⊢
    rw [hcut, cutString_before hpiece]
  by_cases hdigit : c.isDigit = true
  · have hcut : ∀ cs, cut s c cs = cutNumber c cs := fun cs => by simp [cut, hgap, hquote, hdigit]
    rw [hcut] at h
    rw [hcut, hcut, cutNumber_of_follows c cs h]
  by_cases hpoint : c = '.'
  · subst hpoint
    cases hstart : startsWithDigit cs with
    | true =>
      have hcut : ∀ cs, startsWithDigit cs = true → cut s '.' cs = cutNumber '.' cs :=
        fun cs hcs => by simp [cut, hgap, hcs]
      have hmore : startsWithDigit (cutNumber '.' cs).more = true := startsWithDigit_takeWhile hstart
      rw [hcut cs hstart] at h
      rw [hcut cs hstart, hcut _ (startsWithDigit_append hmore after), cutNumber_of_follows '.' cs h]
    | false =>
      have hcut := cut_point (s := s) hstart
      rw [hcut] at h ⊢
      exact cut_point (h.digit hstart)
  by_cases hword : Text.startsWord c = true
  · have hcut : ∀ cs, cut s c cs = cutWord s c cs := fun cs => by simp [cut, hgap, hquote, hdigit, hpoint, hword]
    rw [hcut] at h
    rw [hcut, hcut, cutWord_of_follows s c cs h]
  by_cases hslash : c = '/'
  · subst hslash
    have hopens := opensComment_of_token hpiece
    rw [cut_slash hopens] at h ⊢
    obtain ⟨hfirst, hsecond⟩ := opensComment_eq_false_iff.1 hopens
    exact cut_slash (opensComment_eq_false_iff.2 ⟨h.second '/' (by decide) hfirst, h.second '*' (by decide) hsecond⟩)
  · have hcut : ∀ cs, cut s c cs = cutOperator c cs :=
      fun cs => by simp [cut, hgap, hquote, hdigit, hpoint, hword, hslash]
    rw [hcut] at hpiece h ⊢
    rw [hcut, cutOperator_of_follows hpiece h]

end Reckoner
