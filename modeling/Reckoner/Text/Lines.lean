/-
Lines of a text. A line ends at a newline, and one carriage return right before the end of a line is not part
of it. A text with `n` newlines has `n + 1` lines, the last of them possibly empty.

`lines` are the lines that `source_line` chooses from.
-/

namespace Reckoner.Text

/-- the first line of a text, newline left out, and the lines after it -/
def splitLines : List Char → List Char × List (List Char)
  | [] => ([], [])
  | c :: rest =>
    let (line, others) := splitLines rest
    if c = '\n' then ([], line :: others) else (c :: line, others)

/-- a line without one carriage return at its end -/
def dropReturn (line : List Char) : List Char :=
  if line.getLast? = some '\r' then line.dropLast else line

/-- the lines of a text, in order -/
def lines (text : List Char) : List (List Char) :=
  let (line, others) := splitLines text
  (line :: others).map dropReturn

theorem length_lines (text : List Char) : (lines text).length = text.count '\n' + 1 := by
  have h : (splitLines text).2.length = text.count '\n' := by
    induction text with
    | nil => rfl
    | cons c rest ih =>
      by_cases hc : c = '\n'
      · simp [splitLines, hc, ih]
      · simp [splitLines, hc, ih]
  simp [lines, h]

end Reckoner.Text
