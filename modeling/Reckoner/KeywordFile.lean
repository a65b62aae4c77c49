/-
Keyword files. Each line gives one keyword a new spelling, as `name = spelling`; blank lines and lines that begin
with `#` or `!` are passed over. The file is applied line by line to the standard spellings, and the first bad
line refuses the whole file.

`parse` mirrors `parse_keyword_file`, and `applyLine` one turn of its loop.
-/
import Reckoner.Text.Blank
import Reckoner.Text.Lines
import Reckoner.Text.Word
import Reckoner.Token.Keyword

namespace Reckoner.KeywordFile

/-- what is wrong with a line, and its number, counted from one -/
inductive Error where
  /-- there is no equals sign -/
  | malformed (line : Nat)
  /-- the name is not that of a keyword -/
  | unknownKeyword (line : Nat) (name : String)
  /-- the spelling is not a word -/
  | invalidSpelling (line : Nat) (spelling : String)
  deriving DecidableEq, Repr

namespace Error

def line : Error → Nat
  | .malformed line | .unknownKeyword line _ | .invalidSpelling line _ => line

def message (e : Error) : String :=
  "line " ++ toString e.line ++ ": " ++
    match e with
    | .malformed _ => "expected 'name = spelling'"
    | .unknownKeyword _ name => "'" ++ name ++ "' is not a keyword"
    | .invalidSpelling _ spelling => "'" ++ spelling ++ "' cannot be spelled as an identifier"

end Error

/-- whether a trimmed line is passed over -/
def isComment : List Char → Bool
  | [] => true
  | c :: _ => c == '#' || c == '!'

/-- the texts before and after the first equals sign, both trimmed -/
def splitEntry (text : List Char) : Option (List Char × List Char) :=
  match text.dropWhile (· != '=') with
  | [] => none
  | _ :: after => some (Text.trim (text.takeWhile (· != '=')), Text.trim after)

def applyLine (s : Spellings) (number : Nat) (line : List Char) : Except Error Spellings :=
  let text := Text.trim line
  if isComment text then .ok s
  else match splitEntry text with
    | none => .error (.malformed number)
    | some (name, spelling) =>
      if Text.isWord spelling then
        match s.respellNamed? (String.ofList name) (String.ofList spelling) with
        | some s => .ok s
        | none => .error (.unknownKeyword number (String.ofList name))
      else .error (.invalidSpelling number (String.ofList spelling))

/-- applies lines in order, the first of them with the given number -/
def applyLines (s : Spellings) (number : Nat) : List (List Char) → Except Error Spellings
  | [] => .ok s
  | line :: lines =>
    match applyLine s number line with
    | .ok s => applyLines s (number + 1) lines
    | .error e => .error e

def parse (text : String) : Except Error Spellings :=
  applyLines .standard 1 (Text.lines text.toList)

end Reckoner.KeywordFile
