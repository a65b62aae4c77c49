/-
Texts that end at the end of a line.

A newline goes on with nothing, and a line comment ends in front of it. So a text in front of a newline is cut as it is by
itself, unless a string or comment in it is never closed, and what stands behind the newline is cut as it is by itself
(`lexemes_newline`). Three things tell the two apart from one text:

- places: what is behind the newline is as many characters and lines further on, in the same column
  (`placed_shift`, `Position.after_newline`);
- lines: those of the whole are those of the first text and then those of the second (`Text.lines_newline`), so the text of
  a line is found at the shifted number;
- the token that ends the first text is gone.

Main statement: `lex_newline`.
-/
import Mathlib.Tactic
import Reckoner.Proofs.Echoes
import Reckoner.Proofs.Rewording

namespace Reckoner

/-! ## Places further on -/

def Span.shift (chars : Nat) (sp : Span) : Span :=
  ⟨sp.start + chars, sp.stop + chars⟩

/-- a token that many lines and characters further on, in the same column -/
def Token.shift (lines chars : Nat) (t : Token) : Token :=
  { t with line := t.line + lines, span := t.span.shift chars }

def Diagnostic.shift (lines chars : Nat) (d : Diagnostic) : Diagnostic :=
  { d with line := d.line + lines, span := d.span.map (Span.shift chars) }

/-- a place that many lines and characters further on, in the same column -/
def Position.shift (lines chars : Nat) (p : Position) : Position :=
  { p with line := p.line + lines, offset := p.offset + chars }

def Placed.shift (lines chars : Nat) (l : Placed) : Placed :=
  { l with start := l.start.shift lines chars }

section
variable (lines chars : Nat)

theorem Position.advance_shift (p : Position) (c : Char) :
    (p.shift lines chars).advance c = (p.advance c).shift lines chars := by
  unfold advance
  split <;> simp [shift, Nat.add_right_comm]

theorem Position.after_shift (p : Position) (text : List Char) :
    (p.shift lines chars).after text = (p.after text).shift lines chars := by
  induction text generalizing p with
  | nil => rfl
  | cons c text ih =>
    calc (p.shift lines chars).after (c :: text)
        = ((p.advance c).shift lines chars).after text := congrArg (after · text) (advance_shift lines chars p c)
      _ = ((p.advance c).after text).shift lines chars := ih (p.advance c)

theorem placed_shift (p : Position) (ls : List Lexeme) :
    placed (p.shift lines chars) ls = (placed p ls).map (Placed.shift lines chars) := by
  induction ls generalizing p with
  | nil => rfl
  | cons l ls ih =>
    rw [placed, placed, Position.after_shift, ih, List.map_cons]
    rfl

theorem Placed.span_shift (l : Placed) : (l.shift lines chars).span = l.span.shift chars := by
  simp [span, shift, Position.shift, Span.shift, Nat.add_right_comm]

variable {here there : Array String} {l : Placed}
  (h : sourceLine there (l.start.line + lines) = sourceLine here l.start.line)
include h

/-- the token of a lexeme further on, in a source that has the same line there -/
theorem Placed.token?_shift : (l.shift lines chars).token? there = (l.token? here).map (Token.shift lines chars) := by
  unfold token?
  rw [span_shift]
  obtain ⟨⟨piece, text⟩, start⟩ := l
  cases piece with
  | token kind literal => simp [shift, Position.shift, Token.shift, h]
  | skipped | stray | openString | openComment => rfl

/-- the diagnostic of a lexeme further on, in a source that has the same line there -/
theorem Placed.diagnostic?_shift :
    (l.shift lines chars).diagnostic? there = (l.diagnostic? here).map (Diagnostic.shift lines chars) := by
  unfold diagnostic?
  rw [span_shift]
  obtain ⟨⟨piece, text⟩, start⟩ := l
  have hline : sourceLine there (start.shift lines chars).line = sourceLine here start.line := h
  cases piece with
  | token | skipped => rfl
  | stray | openString => simp only [report, shift, hline]; rfl
  | openComment =>
    simp only [report, shift, hline]
    simp [Diagnostic.shift, Position.shift, Span.shift, Nat.add_right_comm]

end

/-- behind a text and a newline, counting starts again in the first column -/
theorem Position.after_newline (text : List Char) :
    Position.after {} (text ++ ['\n']) = shift (1 + text.count '\n') (text.length + 1) {} := by
  have hstep : ∀ p : Position, p.after ['\n'] = ⟨p.offset + 1, p.line + 1, 1⟩ := fun _ => rfl
  rw [after_append, hstep, offset_after, line_after]
  simp [shift, Nat.add_comm, Nat.add_left_comm]

theorem placed_append (p : Position) (ls ms : List Lexeme) :
    placed p (ls ++ ms) = placed p ls ++ placed (p.after (ls.map Lexeme.text).flatten) ms := by
  induction ls generalizing p with
  | nil => rfl
  | cons l ls ih =>
    rw [List.cons_append, placed, placed, ih, List.map_cons, List.flatten_cons, Position.after_append, List.cons_append]

/-! ## Lines -/

theorem Text.lines_newline (a b : List Char) : lines (a ++ '\n' :: b) = lines a ++ lines b := by
  have hsplit : (splitLines (a ++ '\n' :: b)).1 :: (splitLines (a ++ '\n' :: b)).2 =
      (splitLines a).1 :: ((splitLines a).2 ++ (splitLines b).1 :: (splitLines b).2) := by
    induction a with
    | nil => simp [splitLines]
    | cons c a ih =>
      obtain ⟨hline, hothers⟩ := List.cons.inj ih
      by_cases hc : c = '\n'
      · simp [splitLines, hc, hline, hothers]
      · simp [splitLines, hc, hline, hothers]
  simp only [lines, hsplit, ← List.map_append]
  rfl

section
variable (a b : List Char)

/-- the lines of a text in front of a newline -/
theorem sourceLine_before {line : Nat} (h : line ≤ 1 + a.count '\n') :
    sourceLine (sourceLines (a ++ '\n' :: b)) line = sourceLine (sourceLines a) line := by
  have hlt : line - 1 < ((Text.lines a).map String.ofList).length := by
    rw [List.length_map, Text.length_lines]
    omega
  simp only [sourceLine, sourceLines, Text.lines_newline, List.map_append, List.getElem?_toArray,
    List.getElem?_append_left hlt]

/-- the lines of a text behind a newline -/
theorem sourceLine_behind {line : Nat} (h : 1 ≤ line) :
    sourceLine (sourceLines (a ++ '\n' :: b)) (line + (1 + a.count '\n')) = sourceLine (sourceLines b) line := by
  have hlength : ((Text.lines a).map String.ofList).length = a.count '\n' + 1 := by
    rw [List.length_map, Text.length_lines]
  have hge : ((Text.lines a).map String.ofList).length ≤ line + (1 + a.count '\n') - 1 := by omega
  have hindex : line + (1 + a.count '\n') - 1 - (a.count '\n' + 1) = line - 1 := by omega
  simp only [sourceLine, sourceLines, Text.lines_newline, List.map_append, List.getElem?_toArray,
    List.getElem?_append_right hge, hlength, hindex]

end

/-- a lexeme starts on one of the lines of the text it is cut from -/
theorem Placed.CutFrom.line_bounds {text : List Char} {l : Placed} (h : l.CutFrom text) :
    1 ≤ l.start.line ∧ l.start.line ≤ 1 + text.count '\n' := by
  obtain ⟨before, after, rfl, hstart, -, -⟩ := h
  rw [hstart, Position.line_after, List.count_append, List.count_append]
  simp only
  omega

/-! ## Lexemes -/

/-- **A text and a newline behind it.** The text is cut as it is by itself, if all strings and comments in it are closed,
and so is the text behind the newline. -/
theorem lexemes_newline (s : Spellings) {a : List Char} (b : List Char)
    (h : ∀ l ∈ lexemes s a, l.piece ≠ .openString ∧ l.piece ≠ .openComment) :
    lexemes s (a ++ '\n' :: b) = lexemes s a ++ Lexeme.gap '\n' :: lexemes s b := by
  fun_induction lexemes s a with
  | case1 => exact lexemes_gap s (by decide) b
  | case2 c cs ih =>
    obtain ⟨hstring, hcomment⟩ := h _ List.mem_cons_self
    have ih := ih fun l hl => h l (List.mem_cons_of_mem _ hl)
    have hfollows : Follows (cut s c cs).rest ((cut s c cs).rest ++ '\n' :: b) := by
      have hnil := (follows_of_gapped [] (gapped_cons (c := '\n') (by decide) b)).append (cut s c cs).rest
      rwa [List.append_nil] at hnil
    have hline : (∀ d ∈ (cut s c cs).rest.head?, d = '\n') → ∀ d ∈ ((cut s c cs).rest ++ '\n' :: b).head?, d = '\n' := by
      intro hrest d hd
      cases hcut : (cut s c cs).rest with
      | nil =>
        rw [hcut] at hd
        exact (Option.some.inj hd).symm
      | cons e rest =>
        rw [hcut] at hrest hd
        exact hrest d hd
    have hcut := cut_of_closed hfollows hline hstring hcomment
    rw [← List.append_assoc, cut_append] at hcut
    rw [List.cons_append, lexemes, hcut, List.cons_append, ← ih]

/-- where nothing unterminated is reported, all strings and comments are closed -/
theorem lexemes_closed {s : Spellings} {source : String}
    (h : ∀ d ∈ (lex s source).diagnostics, d.kind ≠ .unterminatedString ∧ d.kind ≠ .unterminatedBlockComment) :
    ∀ l ∈ lexemes s source.toList, l.piece ≠ .openString ∧ l.piece ≠ .openComment := by
  have hkinds : (lex s source).diagnostics.map (·.kind) = _ :=
    kinds_placed (sourceLines source.toList) {} (lexemes s source.toList)
  have hreported : ∀ l ∈ lexemes s source.toList, ∀ kind, l.piece.fault? = some kind →
      ∃ d ∈ (lex s source).diagnostics, d.kind = kind := by
    intro l hl kind hfault
    rw [← List.mem_map, hkinds]
    exact List.mem_filterMap.2 ⟨l.piece, List.mem_map_of_mem hl, hfault⟩
  intro l hl
  constructor
  · intro hpiece
    obtain ⟨d, hd, hkind⟩ := hreported l hl .unterminatedString (by rw [hpiece]; rfl)
    exact (h d hd).1 hkind
  · intro hpiece
    obtain ⟨d, hd, hkind⟩ := hreported l hl .unterminatedBlockComment (by rw [hpiece]; rfl)
    exact (h d hd).2 hkind

/-! ## Sources -/

/-- The lexemes of the whole are those of the first text, the newline, and those of the second text shifted behind it. -/
theorem placed_newline (s : Spellings) {a : List Char} (b : List Char)
    (h : ∀ l ∈ lexemes s a, l.piece ≠ .openString ∧ l.piece ≠ .openComment) :
    placed {} (lexemes s (a ++ '\n' :: b)) = placed {} (lexemes s a) ++ ⟨Lexeme.gap '\n', Position.after {} a⟩ ::
      (placed {} (lexemes s b)).map (Placed.shift (1 + a.count '\n') (a.length + 1)) := by
  rw [lexemes_newline s b h, placed_append, flatten_lexemes, placed, ← placed_shift, ← Position.after_newline,
    Position.after_append]
  rfl

section
variable (s : Spellings) (a b : List Char)

/-- a lexeme of the first text finds its line among the lines of the whole -/
theorem sourceLine_of_mem_before {l : Placed} (h : l ∈ placed {} (lexemes s a)) :
    sourceLine (sourceLines (a ++ '\n' :: b)) l.start.line = sourceLine (sourceLines a) l.start.line := by
  have hcut : l.CutFrom ([] ++ a) := cutFrom_of_mem s [] a h
  exact sourceLine_before a b hcut.line_bounds.2

/-- a lexeme of the second text finds its line there as well, as many lines further on as the first text has -/
theorem sourceLine_of_mem_behind {l : Placed} (h : l ∈ placed {} (lexemes s b)) :
    sourceLine (sourceLines (a ++ '\n' :: b)) (l.start.line + (1 + a.count '\n')) =
      sourceLine (sourceLines b) l.start.line := by
  have hcut : l.CutFrom ([] ++ b) := cutFrom_of_mem s [] b h
  exact sourceLine_behind a b hcut.line_bounds.1

theorem tokens_before : (placed {} (lexemes s a)).filterMap (·.token? (sourceLines (a ++ '\n' :: b))) =
    (placed {} (lexemes s a)).filterMap (·.token? (sourceLines a)) := by
  apply List.filterMap_congr
  intro l hl
  unfold Placed.token?
  rw [sourceLine_of_mem_before s a b hl]

theorem diagnostics_before : (placed {} (lexemes s a)).filterMap (·.diagnostic? (sourceLines (a ++ '\n' :: b))) =
    (placed {} (lexemes s a)).filterMap (·.diagnostic? (sourceLines a)) := by
  apply List.filterMap_congr
  intro l hl
  unfold Placed.diagnostic?
  rw [sourceLine_of_mem_before s a b hl]

theorem tokens_behind (chars : Nat) :
    ((placed {} (lexemes s b)).map (Placed.shift (1 + a.count '\n') chars)).filterMap
        (·.token? (sourceLines (a ++ '\n' :: b))) =
      ((placed {} (lexemes s b)).filterMap (·.token? (sourceLines b))).map (Token.shift (1 + a.count '\n') chars) := by
  rw [List.filterMap_map, List.map_filterMap]
  apply List.filterMap_congr
  intro l hl
  exact Placed.token?_shift _ _ (sourceLine_of_mem_behind s a b hl)

theorem diagnostics_behind (chars : Nat) :
    ((placed {} (lexemes s b)).map (Placed.shift (1 + a.count '\n') chars)).filterMap
        (·.diagnostic? (sourceLines (a ++ '\n' :: b))) =
      ((placed {} (lexemes s b)).filterMap (·.diagnostic? (sourceLines b))).map
        (Diagnostic.shift (1 + a.count '\n') chars) := by
  rw [List.filterMap_map, List.map_filterMap]
  apply List.filterMap_congr
  intro l hl
  exact Placed.diagnostic?_shift _ _ (sourceLine_of_mem_behind s a b hl)

/-- the token that ends the whole is the one that ends the second text -/
theorem endToken_behind :
    endToken (sourceLines (a ++ '\n' :: b)) (Position.after {} (a ++ '\n' :: b)) =
      (endToken (sourceLines b) (Position.after {} b)).shift (1 + a.count '\n') (a.length + 1) := by
  have hplace : Position.after {} (a ++ '\n' :: b) =
      (Position.after {} b).shift (1 + a.count '\n') (a.length + 1) := by
    rw [← Position.after_shift, ← Position.after_newline, ← Position.after_append, List.append_assoc]
    rfl
  have hline : 1 ≤ (Position.after {} b).line := by
    rw [Position.line_after]
    exact Nat.le_add_right 1 _
  rw [hplace]
  simp only [endToken, Position.shift, sourceLine_behind a b hline]
  rfl

end

/-- **Cutting at the end of a line.** If no string and no block comment of the source `a` is unterminated, then `a`, a newline
and `b` are cut one after the other: the tokens are those of `a` without the one that ends it and then those of `b`, and the
diagnostics are those of `a` and then those of `b`. What comes from `b` is as many lines further on as `a` has, and as many
characters as `a` and the newline are; nothing else of it differs. -/
theorem lex_newline (s : Spellings) (a b : String)
    (h : ∀ d ∈ (lex s a).diagnostics, d.kind ≠ .unterminatedString ∧ d.kind ≠ .unterminatedBlockComment) :
    (∃ body eof, (lex s a).tokens = body ++ [eof] ∧ eof.kind = .eof ∧
      (lex s (a ++ "\n" ++ b)).tokens =
        body ++ (lex s b).tokens.map (Token.shift (1 + a.toList.count '\n') (a.length + 1))) ∧
    (lex s (a ++ "\n" ++ b)).diagnostics =
      (lex s a).diagnostics ++ (lex s b).diagnostics.map (Diagnostic.shift (1 + a.toList.count '\n') (a.length + 1)) := by
  have htext : (a ++ "\n" ++ b).toList = a.toList ++ '\n' :: b.toList := by simp
  have hplaced := placed_newline s b.toList (lexemes_closed h)
  refine ⟨⟨_, _, rfl, rfl, ?_⟩, ?_⟩
  · simp only [lex, htext, hplaced]
    rw [List.filterMap_append, List.filterMap_cons_none rfl, tokens_before, tokens_behind, endToken_behind,
      List.append_assoc, List.map_append, String.length_toList]
    rfl
  · simp only [lex, htext, hplaced]
    rw [List.filterMap_append, List.filterMap_cons_none rfl, diagnostics_before, diagnostics_behind, String.length_toList]

namespace Sample

/-- a source on three lines, two of them ended inside a comment and a string, and the last by a comment and a carriage
return -/
def remarked : String := "x@ /*\n*/ \"p\nq\" // y\r"

/-- a source with a character that is none of the language, and a string that is never closed -/
def unclosed : String := "# 7\n\"z"

end Sample

/-- what is behind these three lines and a newline is three lines and 21 characters further on -/
theorem lex_newline_remarked :
    (lex .standard Sample.remarked).diagnostics.map (·.kind) = [.unexpectedCharacter] ∧
    (∃ body eof, (lex .standard Sample.remarked).tokens = body ++ [eof] ∧
      (lex .standard "x@ /*\n*/ \"p\nq\" // y\r\n# 7\n\"z").tokens =
        body ++ (lex .standard Sample.unclosed).tokens.map (Token.shift 3 21)) ∧
    (lex .standard "x@ /*\n*/ \"p\nq\" // y\r\n# 7\n\"z").diagnostics =
      [⟨.unexpectedCharacter, .recoverable, ["@", "x@ /*"], 1, 2, some ⟨1, 2⟩⟩,
       ⟨.unexpectedCharacter, .recoverable, ["#", "# 7"], 4, 1, some ⟨21, 22⟩⟩,
       ⟨.unterminatedString, .recoverable, ["\"z"], 5, 1, some ⟨25, 27⟩⟩] := by
  have hclosed : ∀ d ∈ (lex .standard Sample.remarked).diagnostics,
      d.kind ≠ .unterminatedString ∧ d.kind ≠ .unterminatedBlockComment := by decide +kernel
  have hwhole : Sample.remarked ++ "\n" ++ Sample.unclosed = "x@ /*\n*/ \"p\nq\" // y\r\n# 7\n\"z" := by decide +kernel
  have hlines : 1 + Sample.remarked.toList.count '\n' = 3 := by decide +kernel
  have hchars : Sample.remarked.length + 1 = 21 := by decide +kernel
  obtain ⟨⟨body, eof, hbody, -, htokens⟩, hdiagnostics⟩ :=
    lex_newline .standard Sample.remarked Sample.unclosed hclosed
  rw [hwhole, hlines, hchars] at htokens hdiagnostics
  refine ⟨by decide +kernel, ⟨body, eof, hbody, htokens⟩, hdiagnostics.trans ?_⟩
  decide +kernel

end Reckoner
