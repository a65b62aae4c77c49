/-
Tokens: a kind, the characters it was cut from, the constant it holds, and where it stands in the source.

`Token.sameOperator` mirrors `same_operator`; the displays are what `fmt` writes.
-/
import Reckoner.Decimal.Layout
import Reckoner.Position
import Reckoner.Token.Kind

namespace Reckoner

/-- the constant that a token holds: a word's or string's text, or a number -/
inductive Literal where
  | text (s : String)
  | integer (n : Int32)
  | double (x : Float)
  deriving BEq, Repr

/-- a constant as tokens show it -/
def Literal.display : Literal → String
  | .text s => s
  | .integer n => toString n.toInt
  | .double x => Decimal.literalText x

/-- A unit of the source. `line` and `column` are those of its first character, `sourceLine` is the text of
that line, and `span` covers the lexeme. A token made by hand has no place and keeps the defaults. -/
structure Token where
  kind : Kind
  lexeme : String
  literal : Option Literal := none
  line : Nat := 0
  column : Nat := 0
  sourceLine : String := ""
  span : Span := {}
  deriving BEq, Repr

namespace Token

/-- a token as one line of text: kind, lexeme and constant, `null` standing for no constant -/
def display (t : Token) : String :=
  t.kind.name ++ " " ++ t.lexeme ++ " " ++ (t.literal.elim "null" Literal.display)

/-- whether two operator tokens are the same operator, wherever they stand -/
def sameOperator (a b : Token) : Bool :=
  a.kind == b.kind && a.lexeme == b.lexeme

end Token

end Reckoner
