/-
Places in a source text. A `Position` counts characters, lines and columns; it is moved along the text one
character at a time, and a newline starts a new line. A `Span` is a stretch of characters.

`Position.advance` moves as the lexer's `advance` does; `sourceLine` mirrors `source_line`.
-/
import Reckoner.Text.Lines

namespace Reckoner

/-- the characters from offset `start` up to, not including, offset `stop` -/
structure Span where
  start : Nat := 0
  stop : Nat := 0
  deriving DecidableEq, Repr, Inhabited

/-- a place in a text: characters before it, and its line and column, both counted from one -/
structure Position where
  offset : Nat := 0
  line : Nat := 1
  column : Nat := 1
  deriving DecidableEq, Repr, Inhabited

namespace Position

def advance (p : Position) (c : Char) : Position :=
  if c = '\n' then ⟨p.offset + 1, p.line + 1, 1⟩ else ⟨p.offset + 1, p.line, p.column + 1⟩

def after (p : Position) (text : List Char) : Position :=
  text.foldl advance p

theorem after_append (p : Position) (a b : List Char) : p.after (a ++ b) = (p.after a).after b :=
  List.foldl_append

theorem offset_after (p : Position) (text : List Char) : (p.after text).offset = p.offset + text.length := by
  induction text generalizing p with
  | nil => rfl
  | cons c rest ih =>
    have h : (p.advance c).offset = p.offset + 1 := by unfold advance; split <;> rfl
    have := ih (p.advance c)
    simp only [after, List.foldl_cons] at this ⊢
    rw [this, h, List.length_cons]
    omega

theorem line_after (p : Position) (text : List Char) : (p.after text).line = p.line + text.count '\n' := by
  induction text generalizing p with
  | nil => rfl
  | cons c rest ih =>
    have := ih (p.advance c)
    simp only [after, List.foldl_cons] at this ⊢
    rw [this]
    by_cases h : c = '\n'
    · simp [advance, h]; omega
    · simp [advance, h]

end Position

def sourceLines (source : List Char) : Array String :=
  ((Text.lines source).map String.ofList).toArray

/-- the text of a line of the source, counted from one -/
def sourceLine (lines : Array String) (line : Nat) : String :=
  lines[line - 1]?.getD ""

end Reckoner
