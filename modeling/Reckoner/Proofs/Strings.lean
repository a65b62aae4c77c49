/-
String literals in a source, as `string` cuts them.

Where a string begins, it is closed at the first quote with an even number of backslashes right before it, and its
token holds its decoded body; if there is no such quote, it is reported and reaches to the end (`Reaches.closed`,
`Reaches.unclosed_iff`). What is written between quotes is cut as one string in front of any text, and the text is cut
as it is by itself (`lex_quoted`).

Main statement: `strings_closed_and_decoded`.
-/
import Mathlib.Tactic
import Reckoner.Proofs.Escapes
import Reckoner.Proofs.Scanning
import Reckoner.Proofs.Spacing

namespace Reckoner

theorem cut_quote (s : Spellings) (cs : List Char) : cut s '"' cs = cutString cs := rfl

/-! ## Strings where they begin -/

section
variable {s : Spellings} {source : String} {before cs : List Char}

/-- **A string is closed** at the first quote with an even number of backslashes before it. -/
theorem Reaches.closed (h : Reaches s source.toList before ('"' :: cs)) {j : Nat} (hj : IsLeast {j | ClosesAt cs j} j) :
    (∃ t ∈ (lex s source).tokens, t.kind = .string ∧
      t.literal = some (.text (String.ofList (unescape (cs.take j)))) ∧
      t.span = ⟨before.length, before.length + (j + 2)⟩) ∧
    Reaches s source.toList (before ++ '"' :: (cs.take j ++ ['"'])) (cs.drop (j + 1)) := by
  have hcut : cut s '"' cs =
      ⟨.token .string (some (.text (String.ofList (unescape (cs.take j))))), cs.take j ++ ['"'], cs.drop (j + 1)⟩ := by
    rw [cut_quote, cutString, closeQuote?_of_isLeast hj]
  have hlength : (cs.take j).length = j := by
    obtain ⟨hlt, -⟩ := List.getElem?_eq_some_iff.1 hj.1.1
    exact List.length_take_of_le hlt.le
  constructor
  · obtain ⟨t, ht, hkind, hliteral, -, hspan⟩ := h.exists_token (congrArg Cut.piece hcut)
    refine ⟨t, ht, hkind, hliteral, ?_⟩
    rw [hspan, hcut, List.length_append, hlength]
    rfl
  · have hnext := h.next
    rwa [hcut] at hnext

/-- **A string is reported,** up to the end of the source, exactly if no quote closes it. -/
theorem Reaches.unclosed_iff (h : Reaches s source.toList before ('"' :: cs)) :
    (∃ d ∈ (lex s source).diagnostics, d.kind = .unterminatedString ∧
      d.span = some ⟨before.length, source.length⟩) ↔ ¬ ∃ j, ClosesAt cs j := by
  rw [← closeQuote?_eq_none_iff]
  constructor
  · rintro ⟨d, hd, hkind, hspan⟩
    obtain ⟨before', c, cs', hreaches, hdiagnostic⟩ := exists_reaches_of_diagnostic hd
    -- the report is of a string that is never closed, and starts at this place
    obtain ⟨hpiece, hstart⟩ : (cut s c cs').piece = .openString ∧ before'.length = before.length := by
      unfold Placed.diagnostic? at hdiagnostic
      dsimp only at hdiagnostic
      split at hdiagnostic
      all_goals cases hdiagnostic
      · cases hkind
      · next hopen =>
        refine ⟨hopen, ?_⟩
        have hspan := Option.some.inj hspan
        rw [span_ahead] at hspan
        exact congrArg Span.start hspan
      · cases hkind
    obtain ⟨-, hrest⟩ := hreaches.eq_of_length h hstart
    obtain ⟨rfl, rfl⟩ := List.cons.inj hrest
    rw [cut_quote, cutString] at hpiece
    split at hpiece
    · cases hpiece
    · next hnone => exact hnone
  · intro hnone
    have hcut : cut s '"' cs = ⟨.openString, cs, []⟩ := by rw [cut_quote, cutString, hnone]
    have hpiece : (ahead s before '"' cs).lexeme.piece = .openString := congrArg Cut.piece hcut
    refine ⟨_, h.diagnostic_mem (by simp only [Placed.diagnostic?, hpiece]; rfl), rfl, ?_⟩
    have hlength : source.length = before.length + (cs.length + 1) := by
      rw [← String.length_toList, ← h.append_eq, List.length_append, List.length_cons]
    simp only [Placed.report, span_ahead, hcut, hlength]

end

/-! ## Strings that are written -/

def quoted (written : List Char) : List Char :=
  '"' :: (written ++ ['"'])

/-- a source with a token in front: the token is the first, and what is behind it is cut as it is by itself -/
theorem lex_token_first {s : Spellings} {source after : String} {c : Char} {cs more : List Char} {kind : Kind}
    {literal : Option Literal} (hsource : source.toList = c :: cs)
    (hcut : cut s c cs = ⟨.token kind literal, more, after.toList⟩) :
    ∃ t ts, (lex s source).tokens = t :: ts ∧ t.kind = kind ∧ t.literal = literal ∧ t.span = ⟨0, more.length + 1⟩ ∧
      ts.map Token.bare = (lex s after).tokens.map Token.bare := by
  let lines := sourceLines source.toList
  obtain ⟨t, ht, hkind, hliteral, -, hspan⟩ := token?_ahead lines [] (congrArg Cut.piece hcut)
  have hplaced := placed_ahead s [] c cs
  rw [← hsource, hcut] at hplaced
  have htokens : (lex s source).tokens =
      t :: ((placed (Position.after {} (c :: more)) (lexemes s after.toList)).filterMap (·.token? lines) ++
        [endToken lines (Position.after {} source.toList)]) := by
    have hfound := congrArg (List.filterMap (·.token? lines)) hplaced
    rw [List.filterMap_cons_some ht] at hfound
    exact congrArg (· ++ [endToken lines (Position.after {} source.toList)]) hfound
  refine ⟨t, _, htokens, hkind, hliteral, ?_, ?_⟩
  · rw [hspan, hcut]
    simp
  · rw [List.map_append, map_bare_placed, lex, List.map_append, map_bare_placed]
    rfl

/-- **A written string in front of a text:** the string is the first token, and the text is cut as it is by itself. -/
theorem lex_quoted (s : Spellings) {text written : List Char} (h : Encodes text written) (after : String) :
    ∃ t ts, (lex s (String.ofList (quoted written) ++ after)).tokens = t :: ts ∧ t.kind = .string ∧
      t.literal = some (.text (String.ofList text)) ∧ t.span = ⟨0, (quoted written).length⟩ ∧
      ts.map Token.bare = (lex s after).tokens.map Token.bare := by
  have hsource : (String.ofList (quoted written) ++ after).toList = '"' :: (written ++ '"' :: after.toList) := by
    simp [quoted]
  have hcut : cut s '"' (written ++ '"' :: after.toList) =
      ⟨.token .string (some (.text (String.ofList text))), written ++ ['"'], after.toList⟩ := by
    rw [cut_quote, cutString, h.closeQuote?_eq]
    simp only [h.unescape_eq]
  exact lex_token_first hsource hcut

/-- **String literals are closed where they should be, and hold what was written.**
- Where a string begins in a source, look for the quotes with an even number of backslashes right before them. The first
  one closes the string: its token has the body up to there, decoded, and cutting goes on behind it; the body does not
  end inside an escape. The string is reported as unterminated, up to the end of the source, exactly if there is none.
- A text that is written by escapes, as far as it needs them or may have them, is decoded to itself. Between quotes and
  in front of any other text it is the first token and holds that text, and then come the kinds, texts and constants of
  the tokens of the other text by itself. -/
theorem strings_closed_and_decoded (s : Spellings) :
    (∀ (source : String) (before cs : List Char), Reaches s source.toList before ('"' :: cs) →
      (∀ j, IsLeast {j | ClosesAt cs j} j →
        (∃ t ∈ (lex s source).tokens, t.kind = .string ∧
          t.literal = some (.text (String.ofList (unescape (cs.take j)))) ∧
          t.span = ⟨before.length, before.length + (j + 2)⟩) ∧
        Reaches s source.toList (before ++ quoted (cs.take j)) (cs.drop (j + 1)) ∧ Paired (cs.take j)) ∧
      ((∃ d ∈ (lex s source).diagnostics, d.kind = .unterminatedString ∧
        d.span = some ⟨before.length, source.length⟩) ↔ ¬ ∃ j, ClosesAt cs j)) ∧
    (∀ text written, Encodes text written → unescape written = text ∧
      ∀ after, ∃ t ts, (lex s (String.ofList (quoted written) ++ after)).tokens = t :: ts ∧ t.kind = .string ∧
        t.literal = some (.text (String.ofList text)) ∧ t.span = ⟨0, (quoted written).length⟩ ∧
        ts.map Token.bare = (lex s after).tokens.map Token.bare) := by
  refine ⟨fun source before cs h => ⟨fun j hj => ?_, h.unclosed_iff⟩, fun text written h => ?_⟩
  · obtain ⟨htoken, hnext⟩ := h.closed hj
    exact ⟨htoken, hnext, paired_iff.2 hj.1.2⟩
  · exact ⟨h.unescape_eq, lex_quoted s h⟩

namespace Sample

/-- a string between two numbers, with a backslash and a NUL, an escaped backslash, an escaped quote and a letter in
it -/
def escaping : String := "7 \"\\\x00\\\\\\\"q\" 8"

/-- a text of a newline, a quote, an apostrophe and a letter -/
def spelled : List Char := ['\n', '"', '\x27', 'n']

end Sample

/-- The quote that closes this string is the second one: three backslashes stand before the first. A newline may be
written by its letter and an apostrophe as it is. -/
theorem strings_closed_and_decoded_escaping :
    Reaches .standard Sample.escaping.toList ['7', ' '] ('"' :: "\\\x00\\\\\\\"q\" 8".toList) ∧
    IsLeast {j | ClosesAt "\\\x00\\\\\\\"q\" 8".toList j} 7 ∧
    (∃ t ∈ (lex .standard Sample.escaping).tokens, t.kind = .string ∧ t.literal = some (.text "\\\x00\\\"q") ∧
      t.span = ⟨2, 11⟩) ∧
    Encodes Sample.spelled "\\n\\\"'n".toList ∧ unescape "\\n\\\"'n".toList = Sample.spelled := by
  have hstart : Reaches .standard Sample.escaping.toList [] ('7' :: " \"\\\x00\\\\\\\"q\" 8".toList) := .start
  have hgap : Reaches .standard Sample.escaping.toList ['7'] (' ' :: "\"\\\x00\\\\\\\"q\" 8".toList) := hstart.next
  have hreaches : Reaches .standard Sample.escaping.toList ['7', ' '] ('"' :: "\\\x00\\\\\\\"q\" 8".toList) := hgap.next
  have hclose : closeQuote? "\\\x00\\\\\\\"q\" 8".toList = some ("\\\x00\\\\\\\"q".toList, " 8".toList) := rfl
  have hleast : IsLeast {j | ClosesAt "\\\x00\\\\\\\"q\" 8".toList j} 7 := isLeast_closesAt hclose
  have hencodes : Encodes Sample.spelled "\\n\\\"'n".toList :=
    .named (by decide) (.named (by decide) (.plain (by decide) (by decide) (.plain (by decide) (by decide) .nil)))
  obtain ⟨hsource, htext⟩ := strings_closed_and_decoded .standard
  exact ⟨hreaches, hleast, ((hsource _ _ _ hreaches).1 7 hleast).1, hencodes, (htext _ _ hencodes).1⟩

end Reckoner
