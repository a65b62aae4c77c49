/-
Block comments in a source.

A block comment is an opening, then characters and block comments, then an ending; `BlockComment` says this without a
counter, and at most one text in front of another is a block comment. Where cutting stands at an opening, that text is
skipped (`Reaches.skips_comment`); if there is none, the opening is reported and nothing is cut any more
(`Reaches.reports_comment`). So `block_comment` finds the ending of each comment that has one.

Main statement: `blockComment_skipped_or_reported`.
-/
import Mathlib.Tactic
import Reckoner.Proofs.Echoes
import Reckoner.Proofs.Scanning

namespace Reckoner

/-! ## Comments where they begin -/

section
variable {s : Spellings} {source : String} {before inner : List Char}

/-- **A block comment is skipped,** and nothing else: cutting goes on right behind it. -/
theorem Reaches.skips_comment (h : Reaches s source.toList before ('/' :: '*' :: inner)) {comment rest : List Char}
    (hcomment : BlockComment comment ∧ comment ++ rest = '/' :: '*' :: inner) :
    lexemes s ('/' :: '*' :: inner) = ⟨.skipped, comment⟩ :: lexemes s rest ∧
      Reaches s source.toList (before ++ comment) rest := by
  obtain ⟨tail, rfl, hclose⟩ := blockComment_iff.1 hcomment
  have hcut : cut s '/' ('*' :: inner) = ⟨.skipped, '*' :: tail, rest⟩ := by
    have hblock : cut s '/' ('*' :: inner) = cutBlockComment inner := rfl
    rw [hblock, cutBlockComment, hclose]
  constructor
  · rw [lexemes, hcut]
  · have hnext := h.next
    rwa [hcut] at hnext

/-- what is skipped makes no token, and nothing in it is reported -/
theorem Reaches.apart {rest front after : List Char} (h : Reaches s source.toList before rest)
    (hskip : lexemes s rest = ⟨.skipped, front⟩ :: lexemes s after) :
    (∀ t ∈ (lex s source).tokens, t.span.stop ≤ before.length ∨ before.length + front.length ≤ t.span.start) ∧
      ∀ d ∈ (lex s source).diagnostics, ∃ i, d.startsAt i ∧ (i < before.length ∨ before.length + front.length ≤ i) := by
  obtain ⟨⟨ts, htokens, hts⟩, ds, hdiagnostics, hds⟩ := h.split
  have hoffset : ((Position.after {} before).after front).offset = before.length + front.length := by
    simp [Position.offset_after]
  rw [hskip, placed, List.filterMap_cons_none rfl] at htokens hdiagnostics
  refine ⟨fun t ht => ?_, fun d hd => ?_⟩
  · rw [htokens] at ht
    rcases List.mem_append.1 ht with ht | ht
    · exact Or.inl (hts t ht)
    refine Or.inr ?_
    rcases List.mem_append.1 ht with ht | ht
    · exact hoffset ▸ le_start_of_token ht
    · have hrest := flatten_lexemes s rest
      rw [hskip, List.map_cons, List.flatten_cons, flatten_lexemes] at hrest
      rw [List.mem_singleton.1 ht, ← h.append_eq, ← hrest]
      simp only [endToken, Position.offset_after, List.length_append]
      omega
  · rw [hdiagnostics] at hd
    rcases List.mem_append.1 hd with hd | hd
    · obtain ⟨i, hlt, hi⟩ := hds d hd
      exact ⟨i, hi, Or.inl hlt⟩
    · obtain ⟨i, hi, hle⟩ := le_start_of_diagnostic hd
      exact ⟨i, hi, Or.inr (hoffset ▸ hle)⟩

/-- **An opening without its ending is reported,** and nothing more is cut. -/
theorem Reaches.reports_comment (h : Reaches s source.toList before ('/' :: '*' :: inner))
    (hnone : closeComment? 0 inner = none) :
    (∃ ts eof, (lex s source).tokens = ts ++ [eof] ∧ eof.kind = .eof ∧ ∀ t ∈ ts, t.span.stop ≤ before.length) ∧
      ∃ ds d, (lex s source).diagnostics = ds ++ [d] ∧ d.kind = .unterminatedBlockComment ∧
        d.span = some ⟨before.length, before.length + 2⟩ ∧ d.line = (Position.after {} before).line ∧
        d.column = (Position.after {} before).column ∧ ∀ d' ∈ ds, d'.kind ≠ .unterminatedBlockComment := by
  have hcut : cut s '/' ('*' :: inner) = ⟨.openComment, '*' :: inner, []⟩ := by
    have hblock : cut s '/' ('*' :: inner) = cutBlockComment inner := rfl
    rw [hblock, cutBlockComment, hnone]
  -- the opening takes what is left of the text, so it is the last lexeme
  have hplaced : placed (Position.after {} before) (lexemes s ('/' :: '*' :: inner)) =
      [ahead s before '/' ('*' :: inner)] := by
    rw [placed_ahead, hcut, lexemes, placed]
  have hpiece : (ahead s before '/' ('*' :: inner)).lexeme.piece = .openComment := congrArg Cut.piece hcut
  obtain ⟨⟨ts, htokens, hts⟩, ds, hdiagnostics, -⟩ := h.split
  rw [hplaced, List.filterMap_cons_none (by rw [Placed.token?, hpiece])] at htokens
  obtain ⟨d, hd, hfields⟩ : ∃ d, (ahead s before '/' ('*' :: inner)).diagnostic? (sourceLines source.toList) = some d ∧
      d.kind = .unterminatedBlockComment ∧ d.span = some ⟨before.length, before.length + 2⟩ ∧
      d.line = (Position.after {} before).line ∧ d.column = (Position.after {} before).column := by
    refine ⟨_, by rw [Placed.diagnostic?, hpiece], rfl, ?_, rfl, rfl⟩
    simp [Placed.report, ahead, Position.offset_after]
  rw [hplaced, List.filterMap_cons_some hd, List.filterMap_nil] at hdiagnostics
  have hlast : ∀ d' ∈ (lex s source).diagnostics.dropLast, d'.isUnterminated = false :=
    unterminated_last (sourceLines source.toList) (fun l hl => cutFrom_of_mem s [] source.toList hl)
      (placed_ordered {} (lexemes s source.toList))
  rw [hdiagnostics, List.dropLast_concat] at hlast
  refine ⟨⟨ts, _, htokens, rfl, hts⟩, ds, d, hdiagnostics, hfields.1, hfields.2.1, hfields.2.2.1, hfields.2.2.2, ?_⟩
  intro d' hd' hkind
  have hclosed := hlast d' hd'
  simp [Diagnostic.isUnterminated, hkind] at hclosed

end

/-- **Block comments are skipped whole, or reported once.** Where cutting comes to an opening:
- if a block comment is in front of the text ahead, it is the only one, nothing else is skipped, cutting goes on right
  behind it, and no token and no diagnostic lies in it;
- if none is, one unterminated comment is reported, at the two characters of this opening, and there are no tokens from
  there on but the end of the text. -/
theorem blockComment_skipped_or_reported (s : Spellings) (source : String) {before inner : List Char}
    (h : Reaches s source.toList before ('/' :: '*' :: inner)) :
    (∀ comment rest, BlockComment comment ∧ comment ++ rest = '/' :: '*' :: inner →
      (∀ comment' rest', BlockComment comment' ∧ comment' ++ rest' = '/' :: '*' :: inner → comment' = comment) ∧
      lexemes s ('/' :: '*' :: inner) = ⟨.skipped, comment⟩ :: lexemes s rest ∧
      Reaches s source.toList (before ++ comment) rest ∧
      (∀ t ∈ (lex s source).tokens,
        t.span.stop ≤ before.length ∨ before.length + comment.length ≤ t.span.start) ∧
      ∀ d ∈ (lex s source).diagnostics,
        ∃ i, d.startsAt i ∧ (i < before.length ∨ before.length + comment.length ≤ i)) ∧
    ((¬ ∃ comment rest, BlockComment comment ∧ comment ++ rest = '/' :: '*' :: inner) →
      (∃ ts eof, (lex s source).tokens = ts ++ [eof] ∧ eof.kind = .eof ∧ ∀ t ∈ ts, t.span.stop ≤ before.length) ∧
      ∃ ds d, (lex s source).diagnostics = ds ++ [d] ∧ d.kind = .unterminatedBlockComment ∧
        d.span = some ⟨before.length, before.length + 2⟩ ∧ d.line = (Position.after {} before).line ∧
        d.column = (Position.after {} before).column ∧ ∀ d' ∈ ds, d'.kind ≠ .unterminatedBlockComment) := by
  refine ⟨fun comment rest hcomment => ?_, fun hnone => h.reports_comment (closeComment?_eq_none_iff.2 hnone)⟩
  obtain ⟨hlexemes, hnext⟩ := h.skips_comment hcomment
  obtain ⟨htokens, hdiagnostics⟩ := h.apart hlexemes
  exact ⟨fun _ _ => blockComment_unique hcomment, hlexemes, hnext, htokens, hdiagnostics⟩

namespace Sample

/-- a comment with two comments in it, whose slashes and stars overlap, and one whose ending belongs to the comment
in it -/
def nestedComments : String := "1/*/*/**/*/*/2/*/**/3"

end Sample

/-- The comment in front of the two is skipped, and the one behind it is never closed. -/
theorem blockComment_skipped_or_reported_nested :
    (∀ t ∈ (lex .standard Sample.nestedComments).tokens, t.span.stop ≤ 1 ∨ 13 ≤ t.span.start) ∧
    (∃ ts eof, (lex .standard Sample.nestedComments).tokens = ts ++ [eof] ∧ eof.kind = .eof ∧
      ∀ t ∈ ts, t.span.stop ≤ 14) ∧
    ∃ d, (lex .standard Sample.nestedComments).diagnostics.getLast? = some d ∧ d.kind = .unterminatedBlockComment ∧
      d.span = some ⟨14, 16⟩ := by
  have hstart : Reaches .standard Sample.nestedComments.toList [] ('1' :: "/*/*/**/*/*/2/*/**/3".toList) := .start
  have hfirst : Reaches .standard Sample.nestedComments.toList ['1'] ('/' :: '*' :: "/*/**/*/*/2/*/**/3".toList) :=
    hstart.next
  have hclose : closeComment? 0 "/*/**/*/*/2/*/**/3".toList = some ("/*/**/*/*/".toList, "2/*/**/3".toList) := by decide
  have hclosed : BlockComment "/*/*/**/*/*/".toList ∧
      "/*/*/**/*/*/".toList ++ "2/*/**/3".toList = '/' :: '*' :: "/*/**/*/*/2/*/**/3".toList :=
    blockComment_iff.2 ⟨_, rfl, hclose⟩
  have htwo : Reaches .standard Sample.nestedComments.toList "1/*/*/**/*/*/".toList ('2' :: "/*/**/3".toList) :=
    (hfirst.skips_comment hclosed).2
  have hsecond : Reaches .standard Sample.nestedComments.toList "1/*/*/**/*/*/2".toList
      ('/' :: '*' :: "/**/3".toList) := htwo.next
  have hnone : closeComment? 0 "/**/3".toList = none := by decide
  obtain ⟨-, -, -, htokens, -⟩ := (blockComment_skipped_or_reported .standard _ hfirst).1 _ _ hclosed
  obtain ⟨hlast, ds, d, hds, hkind, hspan, -⟩ :=
    (blockComment_skipped_or_reported .standard _ hsecond).2 (closeComment?_eq_none_iff.1 hnone)
  exact ⟨htokens, hlast, d, by rw [hds, List.getLast?_concat], hkind, hspan⟩

end Reckoner
