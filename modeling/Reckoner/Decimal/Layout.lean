/-
Numbers as text. `numberText` is how values and printed trees show a number: a whole number with all its digits
and `.0`, any other with the shortest digits that read back, never with an exponent. `literalText` is how a
token shows the number it holds: always the shortest digits, in scientific form outside of `1e-4` to `1e16`.
`read` is the double a numeral stands for.

`numberText` mirrors `format_number`; `read` is what `number` makes of a numeral.
-/
import Reckoner.Decimal.Shortest

namespace Reckoner.Decimal

def zeros (count : Nat) : List Char :=
  List.replicate count '0'

/-- digits with a decimal point in place and at least one digit on either side of it -/
def Digits.positional (d : Digits) : List Char :=
  let written := Nat.toDigits 10 d.digits
  if 0 ≤ d.exponent then written ++ zeros d.exponent.toNat ++ ['.', '0']
  else
    let places := (-d.exponent).toNat
    let padded := zeros (places + 1 - written.length) ++ written
    padded.take (padded.length - places) ++ '.' :: padded.drop (padded.length - places)

/-- the power of ten that the first digit stands at -/
def Digits.magnitude (d : Digits) : Int :=
  d.exponent + (Nat.toDigits 10 d.digits).length - 1

/-- one digit before the point, the others after it, then `e` and the exponent -/
def Digits.scientific (d : Digits) : List Char :=
  let power := 'e' :: (toString d.magnitude).toList
  match Nat.toDigits 10 d.digits with
  | [] => power
  | [digit] => digit :: power
  | digit :: others => digit :: '.' :: others ++ power

/-- `text` with a minus sign in front if `negative` -/
def signed (negative : Bool) (text : List Char) : String :=
  String.ofList (if negative then '-' :: text else text)

/-- the text of a number in values and printed trees -/
def numberText (x : Float) : String :=
  match Double.of x with
  | .nan => "NaN"
  | .infinite negative => signed negative ['i', 'n', 'f']
  | .finite negative m q =>
    match Double.whole? m q with
    | some n => signed negative (Nat.toDigits 10 n ++ ['.', '0'])
    | none => signed negative (shortest m q).positional

/-- the text of a number held by a token -/
def literalText (x : Float) : String :=
  match Double.of x with
  | .nan => "NaN"
  | .infinite negative => signed negative ['i', 'n', 'f']
  | .finite negative m q =>
    let d := shortest m q
    if m = 0 || (-4 ≤ d.magnitude && d.magnitude < 16) then signed negative d.positional
    else signed negative d.scientific

/-! ## Reading numerals -/

def digitValue (c : Char) : Nat :=
  c.toNat - '0'.toNat

/-- the natural that a run of digits stands for -/
def natural (digits : List Char) : Nat :=
  digits.foldl (fun n c => 10 * n + digitValue c) 0

/-- the double nearest to the numeral `whole.fraction` -/
def read (whole fraction : List Char) : Float :=
  nearest (natural (whole ++ fraction)) (pow10 fraction.length)

end Reckoner.Decimal
