/-
White space and trimming. `isBlank` is the White_Space property of Unicode (25 characters); `trim` removes
blanks from both ends of a text and nothing from its inside.

`parse_keyword_file` and `start` trim their lines so.
-/
import Reckoner.Text.Ranges

namespace Reckoner.Text

/-- the code points with the White_Space property -/
def blanks : Ranges := [
  (0x0009, 0x000D), (0x0020, 0x0020), (0x0085, 0x0085), (0x00A0, 0x00A0), (0x1680, 0x1680),
  (0x2000, 0x200A), (0x2028, 0x2029), (0x202F, 0x202F), (0x205F, 0x205F), (0x3000, 0x3000)]

def isBlank (c : Char) : Bool :=
  blanks.covers c.toNat

def trimStart (text : List Char) : List Char :=
  text.dropWhile isBlank

def trim (text : List Char) : List Char :=
  (trimStart (trimStart text).reverse).reverse

/-- one more blank at the end is trimmed as well -/
theorem trim_concat {c : Char} (h : isBlank c = true) (text : List Char) : trim (text ++ [c]) = trim text := by
  by_cases hempty : (text.dropWhile isBlank).isEmpty = true
  · have hnil : text.dropWhile isBlank = [] := List.isEmpty_iff.1 hempty
    simp [trim, trimStart, List.dropWhile_append, hnil, h]
  · simp [trim, trimStart, List.dropWhile_append, hempty, h]

end Reckoner.Text
