/-
Errors of evaluation. Each blames one operator of the tree: it was applied to operands it does not take, or it
is no operator at all.

The causes are those of `mismatch` and `unsupported`.
-/
import Reckoner.Token.Basic

namespace Reckoner

/-- why an operator could not be applied -/
inductive RuntimeError.Cause where
  /-- the operator takes `expected`, but was given `found` -/
  | operandMismatch (expected found : String)
  /-- the token is not an operator -/
  | unsupportedOperator
  deriving DecidableEq, Repr

/-- an error of evaluation: a cause, and the lexeme and place of the operator to blame -/
structure RuntimeError where
  cause : RuntimeError.Cause
  operator : String
  line : Nat
  column : Nat
  span : Span
  deriving DecidableEq, Repr

namespace RuntimeError

def blaming (operator : Token) (cause : Cause) : RuntimeError :=
  { cause, operator := operator.lexeme, line := operator.line, column := operator.column, span := operator.span }

def message (e : RuntimeError) : String :=
  let place := " at line " ++ toString e.line ++ ", column " ++ toString e.column
  match e.cause with
  | .operandMismatch expected found =>
    "operand type mismatch for operator '" ++ e.operator ++ "'" ++ place ++ ": expected " ++ expected
      ++ ", found " ++ found
  | .unsupportedOperator => "operator '" ++ e.operator ++ "' cannot be evaluated" ++ place

/-- what is written at the operator in a report -/
def label (e : RuntimeError) : String :=
  match e.cause with
  | .operandMismatch _ found => "cannot apply '" ++ e.operator ++ "' to " ++ found
  | .unsupportedOperator => "'" ++ e.operator ++ "' is not an operator"

def help (e : RuntimeError) : String :=
  match e.cause with
  | .operandMismatch expected _ => "'" ++ e.operator ++ "' expects " ++ expected ++ "."
  | .unsupportedOperator => "Only operators produced by the parser can be evaluated."

end RuntimeError

end Reckoner
