/-
Tokens and diagnostics of a source. The lexemes of the text are given their places, each starting where the one
before it ends; a lexeme then makes a token, a diagnostic or nothing. Bad text is never fatal: it is reported
and skipped, and the tokens always end with one end-of-text token.

`lex` mirrors `scan_tokens`; `token?` and `diagnostic?` make what `add_literal_token` and `report` add.
-/
import Reckoner.Event
import Reckoner.Token.Lexeme

namespace Reckoner

/-- a lexeme and the place where it starts -/
structure Placed where
  lexeme : Lexeme
  start : Position

/-- lexemes laid out one after the other from a place -/
def placed (p : Position) : List Lexeme → List Placed
  | [] => []
  | l :: rest => ⟨l, p⟩ :: placed (p.after l.text) rest

namespace Placed

def span (l : Placed) : Span :=
  ⟨l.start.offset, l.start.offset + l.lexeme.text.length⟩

def token? (lines : Array String) (l : Placed) : Option Token :=
  match l.lexeme.piece with
  | .token kind literal =>
    some { kind, literal, lexeme := String.ofList l.lexeme.text, line := l.start.line, column := l.start.column,
           sourceLine := sourceLine lines l.start.line, span := l.span }
  | _ => none

/-- a recoverable diagnostic at the start of a lexeme -/
def report (l : Placed) (kind : Diagnostic.Kind) (details : List String) (span : Span) : Diagnostic :=
  { kind, severity := .recoverable, details, line := l.start.line, column := l.start.column, span := some span }

def diagnostic? (lines : Array String) (l : Placed) : Option Diagnostic :=
  let text := sourceLine lines l.start.line
  match l.lexeme.piece with
  | .stray => some (l.report .unexpectedCharacter [String.ofList l.lexeme.text, text] l.span)
  | .openString => some (l.report .unterminatedString [text] l.span)
  | .openComment =>
    some (l.report .unterminatedBlockComment [text] ⟨l.start.offset, l.start.offset + 2⟩)
  | .token .. | .skipped => none

/-- the log of a lexeme: the token or the diagnostic it makes -/
def events (lines : Array String) (l : Placed) : List Event :=
  (l.token? lines).toList.map .cut ++ (l.diagnostic? lines).toList.map .reported

end Placed

def endToken (lines : Array String) (p : Position) : Token :=
  { kind := .eof, lexeme := "", line := p.line, column := p.column, sourceLine := sourceLine lines p.line,
    span := ⟨p.offset, p.offset⟩ }

structure Lexed where
  tokens : List Token
  diagnostics : List Diagnostic
  events : List Event

/-- the tokens and diagnostics of a source, with the log of how they were found -/
def lex (s : Spellings) (source : String) : Lexed :=
  let text := source.toList
  let lines := sourceLines text
  let found := placed {} (lexemes s text)
  let tokens := found.filterMap (·.token? lines) ++ [endToken lines (Position.after {} text)]
  let diagnostics := found.filterMap (·.diagnostic? lines)
  { tokens, diagnostics,
    events := found.flatMap (·.events lines) ++ [.lexed tokens.length diagnostics.length] }

end Reckoner
