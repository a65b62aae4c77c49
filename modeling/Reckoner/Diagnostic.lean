/-
Diagnostics: what is wrong with a source or a command line, how grave it is, and where. A diagnostic keeps its
kind, its place and some texts; the wordings (`summary`, `help?`, `message`) are made from these on demand.
Recoverable diagnostics leave the rest of the work going; a fatal one stops it before evaluation, and the
first fatal one gives the exit status.

`summary`, `squiggle`, `firstFatal?` and `hasFatal` mirror the functions of these names; `help?` mirrors `help`, and
`Diagnostic.message` is what `fmt` writes.
-/
import Reckoner.Position

namespace Reckoner

namespace Diagnostic

inductive Kind where
  | fileNotFound | unexpectedCharacter | unterminatedBlockComment | unterminatedString
  | missingFlagArgument | unrecognizedFlag | unclosedParenthesis | expectedExpression
  | unterminatedTernary | expectedSemicolon | nestingTooDeep
  deriving DecidableEq, Repr

/-- every kind once, in the order of the codes -/
def Kind.all : List Kind := [
  .fileNotFound, .unexpectedCharacter, .unterminatedBlockComment, .unterminatedString,
  .missingFlagArgument, .unrecognizedFlag, .unclosedParenthesis, .expectedExpression,
  .unterminatedTernary, .expectedSemicolon, .nestingTooDeep]

/-- the number of a kind, which is also an exit status -/
def Kind.code : Kind → Nat
  | .fileNotFound => 1
  | .unexpectedCharacter => 2
  | .unterminatedBlockComment => 3
  | .unterminatedString => 4
  | .missingFlagArgument => 5
  | .unrecognizedFlag => 6
  | .unclosedParenthesis => 7
  | .expectedExpression => 8
  | .unterminatedTernary => 9
  | .expectedSemicolon => 10
  | .nestingTooDeep => 11

def Kind.name : Kind → String
  | .fileNotFound => "file-not-found"
  | .unexpectedCharacter => "unexpected-character"
  | .unterminatedBlockComment => "unterminated-block-comment"
  | .unterminatedString => "unterminated-string"
  | .missingFlagArgument => "missing-flag-argument"
  | .unrecognizedFlag => "unrecognized-flag"
  | .unclosedParenthesis => "unclosed-parenthesis"
  | .expectedExpression => "expected-expression"
  | .unterminatedTernary => "unterminated-ternary"
  | .expectedSemicolon => "expected-semicolon"
  | .nestingTooDeep => "nesting-too-deep"

def Kind.help? : Kind → Option String
  | .unclosedParenthesis =>
    some "Every opening parenthesis '(' must have a matching closing parenthesis ')'."
  | .unterminatedTernary => some "A conditional expression has the form: condition ? then : else"
  | .unterminatedString => some "Close the string with '\"'."
  | .unterminatedBlockComment => some "Block comments nest; every '/*' needs its own '*/'."
  | .nestingTooDeep => some "Split the expression into smaller parts."
  | _ => none

/-- how grave a diagnostic is: a fatal one keeps the source from being evaluated -/
inductive Severity where
  | recoverable | fatal
  deriving DecidableEq, Repr

def Severity.name : Severity → String
  | .recoverable => "recoverable"
  | .fatal => "fatal"

end Diagnostic

/-- One thing that went wrong. Line and column count from one and are zero without a place in the source;
what `details` holds depends on the kind. -/
structure Diagnostic where
  kind : Diagnostic.Kind
  severity : Diagnostic.Severity
  details : List String
  line : Nat := 0
  column : Nat := 0
  span : Option Span := none
  deriving DecidableEq, Repr

namespace Diagnostic

def isFatal (d : Diagnostic) : Bool :=
  d.severity == .fatal

/-- one of the detail texts, empty if it is not there -/
def detail (d : Diagnostic) (index : Nat) : String :=
  d.details[index]?.getD ""

/-- what went wrong, in one sentence without a place -/
def summary (d : Diagnostic) : String :=
  match d.kind with
  | .fileNotFound => "file '" ++ d.detail 0 ++ "' not found"
  | .unexpectedCharacter => "unexpected character '" ++ d.detail 0 ++ "'"
  | .unterminatedBlockComment => "unterminated block comment"
  | .unterminatedString => "unterminated string"
  | .missingFlagArgument => "flag '" ++ d.detail 0 ++ "' requires an argument"
  | .unrecognizedFlag => "unrecognized flag '" ++ d.detail 0 ++ "'"
  | .unclosedParenthesis => "expected ')' to close '('"
  | .expectedExpression =>
    if d.detail 1 = "" then "expected expression"
    else "expected expression, found '" ++ d.detail 1 ++ "'"
  | .unterminatedTernary => "expected ':' in conditional expression"
  | .expectedSemicolon => "expected ';' after expression, found '" ++ d.detail 1 ++ "'"
  | .nestingTooDeep => "expression is nested too deeply"

/-- the source line among the details, for the kinds that keep one -/
def sourceLine? (d : Diagnostic) : Option String :=
  match d.kind with
  | .unexpectedCharacter => d.details[1]?
  | .fileNotFound | .missingFlagArgument | .unrecognizedFlag => none
  | _ => d.details[0]?

end Diagnostic

/-- an underline that ends in a caret under the given column -/
def squiggle (column : Nat) : String :=
  String.ofList (List.replicate (column - 1) '~' ++ ['^'])

/-- a diagnostic as text: code and summary, then its place and underlined source line if it has them -/
def Diagnostic.message (d : Diagnostic) : String :=
  let label := if d.isFatal then "error" else "warning"
  let head := label ++ "[" ++ toString d.kind.code ++ "]: " ++ d.summary
  if d.line = 0 then head
  else
    let place := " at line " ++ toString d.line ++ ", column " ++ toString d.column
    let excerpt := match d.sourceLine? with
      | some text => "\n" ++ text ++ "\n" ++ squiggle d.column
      | none => ""
    head ++ place ++ excerpt

/-! ## Collections of diagnostics -/

def firstFatal? (ds : List Diagnostic) : Option Diagnostic :=
  ds.find? Diagnostic.isFatal

def hasFatal (ds : List Diagnostic) : Bool :=
  ds.any Diagnostic.isFatal

end Reckoner
