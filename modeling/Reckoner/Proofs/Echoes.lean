/-
Texts that look alike from the front.

A token depends on what stands behind it only as far as that could go on with it (`cut_of_follows`). The same holds of
everything else that a text is cut into, if lines and the text end where they did: a comment runs to the end of its line
or has an end of its own, a character that begins nothing begins nothing anywhere, and a string or comment that is never
closed has nothing behind it. `Echoes rest after` says all of this.

Texts that begin with a word look alike, whatever the words are (`Echoes.words`); so do texts with the same characters in
front of texts that look alike (`Echoes.append`).

Main statements: `cut_of_closed`, for pieces that are closed, and `cut_of_echoes`, for all of them.
-/
import Mathlib.Tactic
import Reckoner.Proofs.Cutting
import Reckoner.Proofs.Lookahead

namespace Reckoner

/-! ## Characters of words -/

section
variable {c : Char} (h : Text.startsWord c = true)
include h

theorem continuesWord_of_startsWord : Text.continuesWord c = true := by
  unfold Text.startsWord at h
  unfold Text.continuesWord
  rcases Bool.or_eq_true _ _ ▸ h with h | h <;> simp [h]

theorem isDigit_of_startsWord : c.isDigit = false := by
  have hdigits : ∀ n < 58, 48 ≤ n → Text.startsWord (Char.ofNat n) = false := by decide
  rw [Bool.eq_false_iff]
  intro hdigit
  have hbounds : 48 ≤ c.toNat ∧ c.toNat ≤ 57 := by
    simpa [Char.isDigit, UInt32.le_iff_toNat_le] using hdigit
  have hnot := hdigits c.toNat (by omega) hbounds.1
  rw [Char.ofNat_toNat, h] at hnot
  cases hnot

/-- what begins a word begins nothing else, and makes no operator or comment of what stands before it -/
theorem ne_of_startsWord : ∀ d ∈ [' ', '\t', '\r', '\n', '"', '.', '=', '*', '<', '>', '/'], c ≠ d := by
  have hnone : [' ', '\t', '\r', '\n', '"', '.', '=', '*', '<', '>', '/'].all (!Text.startsWord ·) = true := by decide
  rintro d hd rfl
  have hc := List.all_eq_true.1 hnone c hd
  rw [h] at hc
  cases hc

end

theorem isWord_iff {text : List Char} :
    Text.isWord text = true ↔
      ∃ c more, text = c :: more ∧ Text.startsWord c = true ∧ ∀ d ∈ more, Text.continuesWord d = true := by
  cases text with
  | nil => simp [Text.isWord]
  | cons c more => simp [Text.isWord]

/-! ## Texts that look alike from the front -/

/-- `after` looks like `rest` to any piece in front of it. -/
structure Echoes (rest after : List Char) : Prop extends Follows rest after where
  empty : rest = [] → after = []
  newline : rest.head? = some '\n' → after.head? = some '\n'

theorem Echoes.nil : Echoes [] [] :=
  ⟨follows_of_gapped [] gapped_nil, id, id⟩

theorem Echoes.append {rest after : List Char} (h : Echoes rest after) (front : List Char) :
    Echoes (front ++ rest) (front ++ after) := by
  refine ⟨h.toFollows.append front, fun hnil => ?_, fun hhead => ?_⟩
  · obtain ⟨rfl, hrest⟩ := List.append_eq_nil_iff.1 hnil
    exact h.empty hrest
  · cases front with
    | nil => exact h.newline hhead
    | cons c front => exact hhead

/-- texts that begin with a word look alike, whatever the words are -/
theorem Echoes.words {c d : Char} (hc : Text.startsWord c = true) (hd : Text.startsWord d = true) (cs ds : List Char) :
    Echoes (c :: cs) (d :: ds) := by
  have hnewline : c ≠ '\n' := ne_of_startsWord hc '\n' (by decide)
  have hpoint : d ≠ '.' := ne_of_startsWord hd '.' (by decide)
  refine ⟨⟨fun _ => isDigit_of_startsWord hd, fun _ => ?_, fun hrest => ?_, fun e he _ heq => ?_⟩, ?_, ?_⟩
  · simp [startsFraction, hpoint]
  · have hgoes : goesOnWord (c :: cs) = true := continuesWord_of_startsWord hc
    rw [hgoes] at hrest
    cases hrest
  · cases heq
    exact ne_of_startsWord hd d (by simp_all [seconds]) rfl
  · intro hnil
    cases hnil
  · intro hhead
    exact absurd (Option.some.inj hhead) hnewline

/-! ## One piece -/

theorem cut_blockComment (s : Spellings) {tail : List Char} (h : CommentTail tail) (after : List Char) :
    cut s '/' ('*' :: tail ++ after) = ⟨.skipped, '*' :: tail, after⟩ := by
  have hcut : cut s '/' ('*' :: tail ++ after) = cutBlockComment (tail ++ after) := rfl
  rw [hcut, cutBlockComment, (closeComment?_tail h after).1]

theorem cut_lineComment (s : Spellings) {body after : List Char} (hbody : '\n' ∉ body)
    (hafter : ∀ c ∈ after.head?, c = '\n') : cut s '/' ('/' :: body ++ after) = ⟨.skipped, '/' :: body, after⟩ := by
  have hcut : cut s '/' ('/' :: body ++ after) = cutLineComment ('/' :: body ++ after) := rfl
  have hrun : ∀ c ∈ '/' :: body, (c != '\n') = true := by
    intro c hc
    rw [bne_iff_ne]
    rintro rfl
    rcases List.mem_cons.1 hc with h | h
    · cases h
    · exact hbody h
  have hstop : ∀ c ∈ after.head?, (c != '\n') = false := by
    intro c hc
    simpa using hafter c hc
  rw [hcut, cutLineComment, takeWhile_run hrun hstop, dropWhile_run hrun hstop]

/-- the characters that begin nothing, whatever stands behind them -/
theorem operator?_eq_none {c : Char} {next : Option Char} (h : operator? c next = none) (next' : Option Char) :
    operator? c next' = none := by
  unfold operator? at h
  split at h
  all_goals cases h
  unfold operator?
  split
  all_goals simp_all

/-- what is cut as a number is a token, and no identifier -/
theorem cutNumber_piece (c : Char) (cs : List Char) :
    ∃ kind literal, (cutNumber c cs).piece = .token kind literal ∧ kind ≠ .identifier := by
  have hwhole : ∀ digits, ∃ kind literal, wholeNumber digits = .token kind literal ∧ kind ≠ .identifier := by
    intro digits
    unfold wholeNumber
    dsimp only
    split
    · exact ⟨_, _, rfl, by decide⟩
    · exact ⟨_, _, rfl, by decide⟩
  simp only [cutNumber]
  split
  · exact ⟨_, _, rfl, by decide⟩
  · generalize cs.takeWhile Char.isDigit = digits
    generalize cs.dropWhile Char.isDigit = rest
    fun_cases cutDigits c digits rest
    · exact ⟨_, _, rfl, by decide⟩
    · exact hwhole _
    · exact hwhole _

theorem cut_stray {s : Spellings} {c : Char} {cs : List Char} (h : (cut s c cs).piece = .stray) (after : List Char) :
    cut s c after = ⟨.stray, [], after⟩ := by
  unfold cut at h
  split at h
  · cases h
  next hgap =>
  split at h
  · unfold cutString at h
    split at h
    all_goals cases h
  next hquote =>
  split at h
  · obtain ⟨kind, literal, hpiece, -⟩ := cutNumber_piece c cs
    rw [hpiece] at h
    cases h
  next hnumber =>
  split at h
  · unfold cutWord at h
    dsimp only at h
    split at h
    all_goals cases h
  next hword =>
  -- of what is left, only an operator has a piece that may be stray
  have hoperator : operator? c cs.head? = none := by
    split at h
    · next hslash =>
      subst hslash
      split at h
      · cases h
      · unfold cutBlockComment at h
        split at h
        all_goals cases h
      · cases h
    · unfold cutOperator at h
      split at h
      · cases h
      · next hnone => exact hnone
  have hpoint : c ≠ '.' := by
    rintro rfl
    cases hoperator
  have hslash : c ≠ '/' := by
    rintro rfl
    cases hoperator
  have hdigit : c.isDigit = false := by
    cases hc : c.isDigit with
    | false => rfl
    | true => simp [hc] at hnumber
  simp [cut, cutOperator, operator?_eq_none hoperator, hgap, hquote, hdigit, hpoint, hword, hslash]

/-- **A piece with an end, and what stands behind it.** Cut from its own characters with another text behind them, which
goes on with nothing that the first did not go on with and ends a line where the first did, it is the same piece. -/
theorem cut_of_closed {s : Spellings} {c : Char} {cs after : List Char} (h : Follows (cut s c cs).rest after)
    (hline : (∀ d ∈ (cut s c cs).rest.head?, d = '\n') → ∀ d ∈ after.head?, d = '\n')
    (hstring : (cut s c cs).piece ≠ .openString) (hcomment : (cut s c cs).piece ≠ .openComment) :
    cut s c ((cut s c cs).more ++ after) = { cut s c cs with rest := after } := by
  have hcorrect := cut_correct s c cs
  generalize hcut : cut s c cs = k at h hline hstring hcomment hcorrect ⊢
  obtain ⟨piece, more, rest⟩ := k
  simp only [Cut.lexeme] at h hline hstring hcomment hcorrect ⊢
  cases hcorrect with
  | token hkind hfits =>
    have hpiece : (cut s c cs).piece = .token _ _ := congrArg Cut.piece hcut
    have hsame := cut_of_follows hpiece (by rw [hcut]; exact h)
    rwa [hcut] at hsame
  | blank hgap => simp [cut, hgap]
  | lineComment hslashes hend =>
    obtain ⟨body, htext, hbody⟩ := hslashes
    obtain ⟨rfl, rfl⟩ := List.cons.inj htext
    refine cut_lineComment s hbody (hline fun d hd => ?_)
    obtain ⟨rest', rfl⟩ := List.head?_eq_some_iff.1 hd
    exact hend d rfl
  | blockComment htails =>
    obtain ⟨tail, htext, htail⟩ := htails
    obtain ⟨rfl, rfl⟩ := List.cons.inj htext
    exact cut_blockComment s htail after
  | stray => exact cut_stray (by rw [hcut]) after
  | openString => exact absurd rfl hstring
  | openComment => exact absurd rfl hcomment

/-- what is never closed has nothing behind it -/
theorem rest_of_open {s : Spellings} {c : Char} {cs : List Char}
    (h : (cut s c cs).piece = .openString ∨ (cut s c cs).piece = .openComment) : (cut s c cs).rest = [] := by
  have hcorrect := cut_correct s c cs
  generalize cut s c cs = k at h hcorrect ⊢
  obtain ⟨piece, more, rest⟩ := k
  simp only [Cut.lexeme] at h hcorrect ⊢
  cases hcorrect with
  | openString | openComment => rfl
  | token | blank | lineComment | blockComment | stray => simp at h

/-- **A piece and what stands behind it.** Cut from its own characters with another text behind them that looks the same
to it, it is the same piece. -/
theorem cut_of_echoes {s : Spellings} {c : Char} {cs after : List Char} (h : Echoes (cut s c cs).rest after) :
    cut s c ((cut s c cs).more ++ after) = { cut s c cs with rest := after } := by
  by_cases hopen : (cut s c cs).piece = .openString ∨ (cut s c cs).piece = .openComment
  · have hrest := rest_of_open hopen
    have hafter : after = (cut s c cs).rest := by rw [h.empty hrest, hrest]
    rw [hafter, cut_append]
  · rw [not_or] at hopen
    refine cut_of_closed h.toFollows (fun hend d hd => ?_) hopen.1 hopen.2
    cases hrest : (cut s c cs).rest with
    | nil =>
      rw [h.empty hrest] at hd
      cases hd
    | cons e rest =>
      have he : e = '\n' := hend e (by rw [hrest]; rfl)
      rw [h.newline (by rw [hrest, he]; rfl)] at hd
      exact (Option.some.inj hd).symm

end Reckoner
