/-
Trees as text, in prefix form with every application in parentheses: `1 + 2 * 3` is written `(+ 1 (* 2 3))`.
Strings stand without quotes.

`Expr.print` mirrors `print`, and `Constant.print` mirrors `write_literal`.
-/
import Reckoner.Expr.Basic

namespace Reckoner

def Constant.print : Constant → String
  | .nil => "nil"
  | .bool b => if b then "true" else "false"
  | .integer n => toString n.toInt
  | .double x => Decimal.numberText x
  | .string s => s

/-- a tree in prefix form -/
def Expr.print : Expr → String
  | .literal value => value.print
  | .grouping a => "(group " ++ a.print ++ ")"
  | .unary f a => "(" ++ f.lexeme ++ " " ++ a.print ++ ")"
  | .binary a f b => "(" ++ f.lexeme ++ " " ++ a.print ++ " " ++ b.print ++ ")"
  | .ternary a b c => "(?: " ++ a.print ++ " " ++ b.print ++ " " ++ c.print ++ ")"

end Reckoner
