/-
Every place that is reported is the true one.

Lines and columns are counted along the text, while the texts of lines come from dividing the text at its newlines.
`At` says what a place should be without either: the line is one more than the newlines before it, the column one more
than the characters since the last of them, and the text of the line is that piece of the divided text, less one
carriage return at its end.

- `at_after`: counting along a text gives the true place of what follows, with the true line;
- `pointsAt_of_ne`: the character at that place stands in its line at that column, unless it is a newline or a carriage
  return, and no token and no diagnostic of cutting starts with one (`isGap_of_mem`);
- failures of reading blame tokens, and copy their places (`failures_blame`).

Main statement: `places_true`.
-/
import Mathlib.Tactic
import Reckoner.Pipeline
import Reckoner.Proofs.Blame
import Reckoner.Proofs.Cutting

namespace Reckoner

/-! ## True places -/

/-- a piece of a text without one carriage return at its end, if there is one -/
def WithoutReturn (piece line : List Char) : Prop :=
  piece = line ++ ['\r'] ∨ piece = line ∧ ¬ ['\r'] <:+ piece

/-- The offset `start` of a text is on line `line` and column `column`, both counted from one, and the text of that line
is `lineText`. -/
structure At (text : List Char) (start line column : Nat) (lineText : String) : Prop where
  start_le : start ≤ text.length
  line_eq : line = 1 + (text.take start).count '\n'
  column_eq : column = 1 + ((text.take start).reverse.takeWhile (· != '\n')).length
  lineText_eq : ∃ piece, (text.splitOn '\n')[line - 1]? = some piece ∧ WithoutReturn piece lineText.toList

/-- the character at an offset of a text stands at a column of a line -/
def PointsAt (text : List Char) (start column : Nat) (lineText : String) : Prop :=
  ∃ c, text[start]? = some c ∧ lineText.toList[column - 1]? = some c

/-! ## Counting along a text -/

theorem column_after (text : List Char) :
    (Position.after {} text).column = 1 + (text.reverse.takeWhile (· != '\n')).length := by
  induction text using List.reverseRecOn with
  | nil => rfl
  | append_singleton text c ih =>
    rw [Position.after_append, List.reverse_append]
    by_cases hc : c = '\n'
    · simp [Position.after, Position.advance, hc]
    · have hstep : ((Position.after {} text).after [c]).column = (Position.after {} text).column + 1 := by
        simp [Position.after, Position.advance, hc]
      rw [hstep, ih]
      simp [hc]
      omega

theorem splitLines_eq_splitOn (text : List Char) :
    (Text.splitLines text).1 :: (Text.splitLines text).2 = text.splitOn '\n' := by
  induction text with
  | nil => rfl
  | cons c rest ih =>
    rw [List.splitOn_cons_eq_if_modifyHead, ← ih]
    by_cases hc : c = '\n'
    · simp [Text.splitLines, hc]
    · simp [Text.splitLines, hc]

theorem lines_eq_splitOn (text : List Char) : Text.lines text = (text.splitOn '\n').map Text.dropReturn := by
  rw [← splitLines_eq_splitOn]
  rfl

theorem bne_of_notMem {c : Char} {text : List Char} (h : c ∉ text) : ∀ d ∈ text, (d != c) = true := by
  intro d hd
  simpa using ne_of_mem_of_not_mem hd h

def sinceNewline (text : List Char) : List Char :=
  (text.reverse.takeWhile (· != '\n')).reverse

theorem sinceNewline_of_notMem {text : List Char} (h : '\n' ∉ text) : sinceNewline text = text := by
  have hall := bne_of_notMem (mt List.mem_reverse.1 h)
  rw [sinceNewline, List.takeWhile_eq_self_iff.2 hall, List.reverse_reverse]

theorem sinceNewline_cons_of_mem (c : Char) {text : List Char} (h : '\n' ∈ text) :
    sinceNewline (c :: text) = sinceNewline text := by
  have hshort : (text.reverse.takeWhile (· != '\n')).length ≠ text.reverse.length := by
    intro hlen
    have heq := (List.takeWhile_prefix _).eq_of_length hlen
    have hall := List.takeWhile_eq_self_iff.1 heq '\n' (List.mem_reverse.2 h)
    simp at hall
  rw [sinceNewline, List.reverse_cons, List.takeWhile_append, if_neg hshort, sinceNewline]

theorem sinceNewline_newline_cons (text : List Char) : sinceNewline ('\n' :: text) = sinceNewline text := by
  simp only [sinceNewline, List.reverse_cons, List.takeWhile_append]
  split
  · next hlen => simp [(List.takeWhile_prefix _).eq_of_length hlen]
  · rfl

/-- The line of a place is made of what stands before the place since the last newline, and what comes after it up to
the next. -/
theorem splitOn_append (before after : List Char) :
    ((before ++ after).splitOn '\n')[before.count '\n']? =
      some (sinceNewline before ++ after.takeWhile (· != '\n')) := by
  induction before with
  | nil =>
    rw [List.nil_append, List.count_nil]
    change _ = some (after.takeWhile (· != '\n'))
    induction after with
    | nil => rfl
    | cons c rest ih =>
      rw [List.splitOn_cons_eq_if_modifyHead]
      by_cases hc : c = '\n'
      · simp [hc]
      · simp [hc, ih]
  | cons c before ih =>
    rw [List.cons_append, List.splitOn_cons_eq_if_modifyHead]
    by_cases hc : c = '\n'
    · subst hc
      simp [sinceNewline_newline_cons, ih]
    by_cases hmem : '\n' ∈ before
    · -- `c` is on the first line, and the place is on a later one
      obtain ⟨n, hn⟩ := Nat.exists_eq_succ_of_ne_zero (List.count_pos_iff.2 hmem).ne'
      rw [sinceNewline_cons_of_mem c hmem, ← ih]
      simp [hc, hn]
    · have hmem' : '\n' ∉ c :: before := by simp [hmem, Ne.symm hc]
      rw [sinceNewline_of_notMem hmem, List.count_eq_zero_of_not_mem hmem] at ih
      rw [sinceNewline_of_notMem hmem', List.count_eq_zero_of_not_mem hmem']
      simp [hc, ih]

/-! ## Places along a text -/

theorem withoutReturn_dropReturn (piece : List Char) : WithoutReturn piece (Text.dropReturn piece) := by
  unfold Text.dropReturn
  split
  · next h =>
    obtain ⟨line, rfl⟩ := List.getLast?_eq_some_iff.1 h
    exact Or.inl (by simp)
  · next h =>
    refine Or.inr ⟨rfl, ?_⟩
    rintro ⟨line, rfl⟩
    simp at h

/-- a line that is there is found, so the empty text that stands for a missing one is not -/
theorem sourceLine_of_piece {text : List Char} {index : Nat} {piece : List Char}
    (h : (text.splitOn '\n')[index]? = some piece) :
    sourceLine (sourceLines text) (1 + index) = String.ofList (Text.dropReturn piece) := by
  simp [sourceLine, sourceLines, lines_eq_splitOn, h]

/-- a character that is no carriage return stays where it is in its line -/
theorem getElem?_dropReturn {piece : List Char} {i : Nat} {c : Char} (h : piece[i]? = some c) (hc : c ≠ '\r') :
    (Text.dropReturn piece)[i]? = some c := by
  rcases withoutReturn_dropReturn piece with hpiece | ⟨hpiece, -⟩
  · rw [hpiece, List.getElem?_append] at h
    split at h
    · exact h
    · exact absurd (by simpa using List.mem_of_getElem? h) hc
  · rwa [← hpiece]

/-- **Counting gives the true place.** -/
theorem at_after (before after : List Char) :
    At (before ++ after) (Position.after {} before).offset (Position.after {} before).line
      (Position.after {} before).column
      (sourceLine (sourceLines (before ++ after)) (Position.after {} before).line) := by
  have htake : (before ++ after).take (Position.after {} before).offset = before := by
    simp [Position.offset_after]
  refine ⟨?_, ?_, ?_, ?_⟩
  · simp [Position.offset_after]
  · rw [htake, Position.line_after]
  · rw [htake, column_after]
  · have hpiece := splitOn_append before after
    refine ⟨sinceNewline before ++ after.takeWhile (· != '\n'), ?_, ?_⟩
    · rw [Position.line_after, Nat.add_sub_cancel_left]
      exact hpiece
    · rw [Position.line_after, sourceLine_of_piece hpiece, String.toList_ofList]
      exact withoutReturn_dropReturn _

/-- **The character at a place stands in its line,** if it is no newline and no carriage return. -/
theorem pointsAt_of_ne (before : List Char) {c : Char} (rest : List Char) (hnewline : c ≠ '\n') (hreturn : c ≠ '\r') :
    PointsAt (before ++ c :: rest) (Position.after {} before).offset (Position.after {} before).column
      (sourceLine (sourceLines (before ++ c :: rest)) (Position.after {} before).line) := by
  refine ⟨c, by simp [Position.offset_after], ?_⟩
  have hpiece := splitOn_append before (c :: rest)
  rw [Position.line_after, sourceLine_of_piece hpiece, String.toList_ofList, column_after, Nat.add_sub_cancel_left]
  refine getElem?_dropReturn ?_ hreturn
  simp [sinceNewline, hnewline]

/-! ## Lexemes -/

theorem exists_cut_of_mem {s : Spellings} {text : List Char} {l : Lexeme} (h : l ∈ lexemes s text) :
    ∃ c cs, l = (cut s c cs).lexeme c := by
  fun_induction lexemes s text with
  | case1 => cases h
  | case2 c cs ih =>
    rcases List.mem_cons.1 h with rfl | h
    · exact ⟨c, cs, rfl⟩
    · exact ih h

theorem lexeme_mem_of_mem_placed {p : Position} {ls : List Lexeme} {l : Placed} (h : l ∈ placed p ls) :
    l.lexeme ∈ ls := by
  induction ls generalizing p with
  | nil => cases h
  | cons first rest ih =>
    rcases List.mem_cons.1 h with rfl | h
    · exact List.mem_cons_self
    · exact List.mem_cons_of_mem first (ih h)

/-- what is not skipped does not begin with a blank -/
theorem isGap_of_mem {s : Spellings} {text : List Char} {p : Position} {l : Placed}
    (h : l ∈ placed p (lexemes s text)) (hp : l.lexeme.piece ≠ .skipped) :
    ∃ c more, l.lexeme.text = c :: more ∧ isGap c = false := by
  obtain ⟨c, cs, hl⟩ := exists_cut_of_mem (lexeme_mem_of_mem_placed h)
  refine ⟨c, (cut s c cs).more, by rw [hl]; rfl, ?_⟩
  by_contra hgap
  rw [Bool.not_eq_false] at hgap
  apply hp
  rw [hl]
  simp [Cut.lexeme, cut, hgap]

namespace Placed

theorem CutFrom.located {text : List Char} {l : Placed} (h : l.CutFrom text) :
    At text l.start.offset l.start.line l.start.column (sourceLine (sourceLines text) l.start.line) := by
  obtain ⟨before, after, rfl, hstart, -, -⟩ := h
  rw [hstart, List.append_assoc]
  exact at_after before (l.lexeme.text ++ after)

theorem CutFrom.pointsAt {text : List Char} {l : Placed} (h : l.CutFrom text) {c : Char} {more : List Char}
    (htext : l.lexeme.text = c :: more) (hc : isGap c = false) :
    PointsAt text l.start.offset l.start.column (sourceLine (sourceLines text) l.start.line) := by
  obtain ⟨before, after, rfl, hstart, -, -⟩ := h
  have hnewline : c ≠ '\n' := by
    rintro rfl
    cases hc
  have hreturn : c ≠ '\r' := by
    rintro rfl
    cases hc
  rw [hstart, htext, List.append_assoc]
  exact pointsAt_of_ne before (more ++ after) hnewline hreturn

/-- where the token of a lexeme is: at the start of the lexeme, with the line of that place -/
theorem place_of_token? {lines : Array String} {l : Placed} {t : Token} (h : l.token? lines = some t) :
    l.lexeme.piece ≠ .skipped ∧ t.span.start = l.start.offset ∧ t.line = l.start.line ∧
      t.column = l.start.column ∧ t.sourceLine = sourceLine lines l.start.line := by
  unfold token? at h
  split at h
  · next hp =>
    cases h
    exact ⟨by simp [hp], rfl, rfl, rfl, rfl⟩
  · cases h

end Placed

/-- the line of the source that a diagnostic shows is the second of its details for an unexpected character, and the
first for all others -/
def Diagnostic.Shows (d : Diagnostic) (lineText : String) : Prop :=
  d.details[if d.kind = .unexpectedCharacter then 1 else 0]? = some lineText

/-- where the diagnostic of a lexeme is: at the start of the lexeme, with the line of that place -/
theorem Placed.place_of_diagnostic? {lines : Array String} {l : Placed} {d : Diagnostic}
    (h : l.diagnostic? lines = some d) :
    l.lexeme.piece ≠ .skipped ∧ (∃ sp, d.span = some sp ∧ sp.start = l.start.offset) ∧ d.line = l.start.line ∧
      d.column = l.start.column ∧ d.Shows (sourceLine lines l.start.line) := by
  unfold Placed.diagnostic? at h
  dsimp only at h
  split at h
  · next hp =>
    cases h
    exact ⟨by simp [hp], ⟨_, rfl, rfl⟩, rfl, rfl, rfl⟩
  · next hp =>
    cases h
    exact ⟨by simp [hp], ⟨_, rfl, rfl⟩, rfl, rfl, rfl⟩
  · next hp =>
    cases h
    exact ⟨by simp [hp], ⟨_, rfl, rfl⟩, rfl, rfl, rfl⟩
  · cases h
  · cases h

/-! ## Tokens and diagnostics -/

section
variable (s : Spellings) (source : String)

theorem token_at {t : Token} (h : t ∈ (lex s source).tokens) :
    At source.toList t.span.start t.line t.column t.sourceLine ∧
      (t.kind ≠ .eof → PointsAt source.toList t.span.start t.column t.sourceLine) := by
  rcases List.mem_append.1 h with h | h
  · obtain ⟨l, hl, hlt⟩ := List.mem_filterMap.1 h
    obtain ⟨hpiece, hstart, hline, hcolumn, htext⟩ := Placed.place_of_token? hlt
    have hcut := cutFrom_of_mem s [] source.toList hl
    obtain ⟨c, more, hc, hgap⟩ := isGap_of_mem hl hpiece
    rw [hstart, hline, hcolumn, htext]
    exact ⟨hcut.located, fun _ => hcut.pointsAt hc hgap⟩
  · rw [List.mem_singleton.1 h]
    have hat := at_after source.toList []
    rw [List.append_nil] at hat
    exact ⟨hat, fun hne => absurd rfl hne⟩

theorem lex_diagnostic_at {d : Diagnostic} (h : d ∈ (lex s source).diagnostics) :
    ∃ sp lineText, d.span = some sp ∧ d.Shows lineText ∧ At source.toList sp.start d.line d.column lineText ∧
      PointsAt source.toList sp.start d.column lineText := by
  obtain ⟨l, hl, hld⟩ := List.mem_filterMap.1 h
  obtain ⟨hpiece, ⟨sp, hsp, hstart⟩, hline, hcolumn, hshows⟩ := Placed.place_of_diagnostic? hld
  have hcut := cutFrom_of_mem s [] source.toList hl
  obtain ⟨c, more, hc, hgap⟩ := isGap_of_mem hl hpiece
  refine ⟨sp, _, hsp, hshows, ?_, ?_⟩
  · rw [hstart, hline, hcolumn]
    exact hcut.located
  · rw [hstart, hcolumn]
    exact hcut.pointsAt hc hgap

theorem exists_eof_mem_tokens : ∃ t ∈ (lex s source).tokens, t.kind = .eof :=
  ⟨_, List.mem_append_right _ (List.mem_singleton_self _), rfl⟩

end

/-- a reader reads tokens that it was given, and ends at one of them -/
theorem Reader.mem_of_mem_ofTokens {tokens : List Token} (heof : ∃ t ∈ tokens, t.kind = .eof) (limit : Nat) {t : Token}
    (h : t ∈ (Reader.ofTokens tokens limit).unread ++ [(Reader.ofTokens tokens limit).eof]) : t ∈ tokens := by
  rcases List.mem_append.1 h with h | h
  · exact (List.takeWhile_sublist _).subset h
  · rw [List.mem_singleton.1 h]
    have hsome : (tokens.find? (·.kind == .eof)).isSome := by
      obtain ⟨e, he, hk⟩ := heof
      exact List.find?_isSome.2 ⟨e, he, by simp [hk]⟩
    obtain ⟨e, he⟩ := Option.isSome_iff_exists.1 hsome
    simp only [Reader.ofTokens, he, Option.getD_some]
    exact List.mem_of_find?_eq_some he

theorem Failure.diagnostic_shows (f : Failure) : f.diagnostic.Shows f.token.sourceLine := by
  have hkind : f.fault.kind ≠ .unexpectedCharacter := by cases f.fault <;> simp [Fault.kind]
  simp [Diagnostic.Shows, Failure.diagnostic, hkind]

/-- **Every place is the true one.** For every source and all settings:
- each token, the end of the text included, and each diagnostic of cutting and reading the source, is at its true
  place, and shows the true line of the source there;
- the first character of a token or of a diagnostic of cutting stands in that line at its column. -/
theorem places_true (c : Config) (source : String) :
    (∀ t ∈ (lex c.spellings source).tokens, At source.toList t.span.start t.line t.column t.sourceLine) ∧
    (∀ d ∈ (parseSource c source).diagnostics, ∃ sp lineText, d.span = some sp ∧ d.Shows lineText ∧
      At source.toList sp.start d.line d.column lineText) ∧
    (∀ t ∈ (lex c.spellings source).tokens, t.kind ≠ .eof →
      PointsAt source.toList t.span.start t.column t.sourceLine) ∧
    (∀ d ∈ (lex c.spellings source).diagnostics, ∃ sp lineText, d.span = some sp ∧ d.Shows lineText ∧
      PointsAt source.toList sp.start d.column lineText) := by
  refine ⟨fun t ht => (token_at _ _ ht).1, fun d hd => ?_, fun t ht => (token_at _ _ ht).2, fun d hd => ?_⟩
  · rcases List.mem_append.1 hd with hd | hd
    · obtain ⟨sp, lineText, hsp, hshows, hat, -⟩ := lex_diagnostic_at _ _ hd
      exact ⟨sp, lineText, hsp, hshows, hat⟩
    · obtain ⟨f, hf, rfl⟩ := List.mem_map.1 hd
      have hblamed := (failures_blame _ _ _ f hf).mem
      have htoken := Reader.mem_of_mem_ofTokens (exists_eof_mem_tokens _ _) c.limit hblamed
      exact ⟨f.token.span, f.token.sourceLine, rfl, f.diagnostic_shows, (token_at _ _ htoken).1⟩
  · obtain ⟨sp, lineText, hsp, hshows, -, hpoints⟩ := lex_diagnostic_at _ _ hd
    exact ⟨sp, lineText, hsp, hshows, hpoints⟩

end Reckoner
