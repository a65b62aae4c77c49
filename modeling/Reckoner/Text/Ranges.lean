/-
Sets of code points written as closed ranges in increasing order, the form in which character properties
are tabled. `Ranges.covers` decides membership and stops at the first range that starts beyond the code point.
-/

namespace Reckoner.Text

/-- closed ranges `(first, last)` of code points -/
abbrev Ranges := List (Nat × Nat)

/-- whether the code point `n` lies in one of the ranges, which stand in increasing order -/
def Ranges.covers : Ranges → Nat → Bool
  | [], _ => false
  | (first, last) :: rest, n => first ≤ n && (n ≤ last || Ranges.covers rest n)

end Reckoner.Text
