/-
Cutting a text into lexemes. At the front of a text stands one of: a blank or comment, a token, a character that
begins nothing, or a string or comment that is never closed. `cut` finds it together with the characters it
covers, always the longest reading; `lexemes` cuts the whole text. `flatten_lexemes` says that no character is
lost: the lexemes, joined, are the text.

`cut` mirrors `scan_token`. It hands on to `cutString`, `cutNumber`, `cutWord` and `cutBlockComment`, which mirror `string`,
`number`, `identifier` and `block_comment`.
-/
import Reckoner.Text.Word
import Reckoner.Token.Basic
import Reckoner.Token.Escape
import Reckoner.Token.Keyword

namespace Reckoner

/-- what stands at the front of a text -/
inductive Piece where
  | token (kind : Kind) (literal : Option Literal)
  /-- a blank or a comment -/
  | skipped
  /-- a character that begins nothing -/
  | stray
  /-- a string without its closing quote: it reaches to the end of the text -/
  | openString
  /-- a comment without its end: it reaches to the end of the text -/
  | openComment
  deriving BEq, Repr

/-- a piece and the characters it covers -/
structure Lexeme where
  piece : Piece
  text : List Char
  deriving BEq, Repr

/-- one step of cutting: the piece found, its characters after the first, and the text after it -/
structure Cut where
  piece : Piece
  more : List Char
  rest : List Char

/-! ## Classes of lexemes -/

/-- the blanks that may stand between tokens -/
def isGap (c : Char) : Bool :=
  c == ' ' || c == '\t' || c == '\r' || c == '\n'

theorem isGap_iff {c : Char} : isGap c = true ↔ c = ' ' ∨ c = '\t' ∨ c = '\r' ∨ c = '\n' := by
  simp [isGap, or_assoc]

def startsWithDigit : List Char → Bool
  | [] => false
  | c :: _ => c.isDigit

/-- the operator that begins with a character, given the character after it, and how many characters after the
first belong to it -/
def operator? : Char → Option Char → Option (Kind × Nat)
  | '(', _ => some (.leftParen, 0)
  | ')', _ => some (.rightParen, 0)
  | '\x7b', _ => some (.leftBrace, 0)
  | '\x7d', _ => some (.rightBrace, 0)
  | ',', _ => some (.comma, 0)
  | '.', _ => some (.dot, 0)
  | '-', _ => some (.minus, 0)
  | '+', _ => some (.plus, 0)
  | ';', _ => some (.semicolon, 0)
  | '/', _ => some (.slash, 0)
  | '?', _ => some (.question, 0)
  | ':', _ => some (.colon, 0)
  | '*', some '*' => some (.starStar, 1)
  | '*', _ => some (.star, 0)
  | '!', some '=' => some (.bangEqual, 1)
  | '!', _ => some (.bang, 0)
  | '=', some '=' => some (.equalEqual, 1)
  | '=', _ => some (.equal, 0)
  | '>', some '=' => some (.greaterEqual, 1)
  | '>', some '>' => some (.rightShift, 1)
  | '>', _ => some (.greater, 0)
  | '<', some '=' => some (.lessEqual, 1)
  | '<', some '<' => some (.leftShift, 1)
  | '<', _ => some (.less, 0)
  | _, _ => none

/-- The text up to the end of a comment that is open inside `outer` others, and the text after it. Comments
nest, so each opening needs an ending of its own. -/
def closeComment? : (outer : Nat) → List Char → Option (List Char × List Char)
  | _, [] => none
  | 0, '*' :: '/' :: rest => some (['*', '/'], rest)
  | outer + 1, '*' :: '/' :: rest =>
    (closeComment? outer rest).map fun (body, after) => ('*' :: '/' :: body, after)
  | outer, '/' :: '*' :: rest =>
    (closeComment? (outer + 1) rest).map fun (body, after) => ('/' :: '*' :: body, after)
  | outer, c :: rest => (closeComment? outer rest).map fun (body, after) => (c :: body, after)

/-! ## One step -/

def cutString (cs : List Char) : Cut :=
  match closeQuote? cs with
  | some (body, rest) =>
    ⟨.token .string (some (.text (String.ofList (unescape body)))), body ++ ['"'], rest⟩
  | none => ⟨.openString, cs, []⟩

/-- a comment that runs to the end of its line, after the first slash -/
def cutLineComment (cs : List Char) : Cut :=
  ⟨.skipped, cs.takeWhile (· != '\n'), cs.dropWhile (· != '\n')⟩

/-- a block comment, after the first slash; `inner` is the text after the star -/
def cutBlockComment (inner : List Char) : Cut :=
  match closeComment? 0 inner with
  | some (body, rest) => ⟨.skipped, '*' :: body, rest⟩
  | none => ⟨.openComment, '*' :: inner, []⟩

def maxInteger : Nat := 2147483647

/-- the token for a numeral without a point -/
def wholeNumber (digits : List Char) : Piece :=
  let n := Decimal.natural digits
  if n ≤ maxInteger then .token .integer (some (.integer (Int32.ofNat n)))
  else .token .double (some (.double (Decimal.read digits [])))

/-- the token for a numeral with digits after the point -/
def fractional (whole fraction : List Char) : Piece :=
  .token .double (some (.double (Decimal.read whole fraction)))

/-- a numeral that begins with the digits `c :: digits`: it goes on over a point if a digit follows the point -/
def cutDigits (c : Char) (digits : List Char) : List Char → Cut
  | '.' :: more =>
    if startsWithDigit more then
      let fraction := more.takeWhile Char.isDigit
      ⟨fractional (c :: digits) fraction, digits ++ '.' :: fraction, more.dropWhile Char.isDigit⟩
    else ⟨wholeNumber (c :: digits), digits, '.' :: more⟩
  | rest => ⟨wholeNumber (c :: digits), digits, rest⟩

/-- a numeral, after its first character: a digit, or a point with a digit after it -/
def cutNumber (c : Char) (cs : List Char) : Cut :=
  let digits := cs.takeWhile Char.isDigit
  let rest := cs.dropWhile Char.isDigit
  if c = '.' then ⟨fractional [] digits, digits, rest⟩ else cutDigits c digits rest

/-- a word, after its first character: a keyword if it is spelled like one -/
def cutWord (s : Spellings) (c : Char) (cs : List Char) : Cut :=
  let more := cs.takeWhile Text.continuesWord
  let text := String.ofList (c :: more)
  let piece := match s.lookup text with
    | some kind => .token kind none
    | none => .token .identifier (some (.text text))
  ⟨piece, more, cs.dropWhile Text.continuesWord⟩

/-- an operator, or a character that begins nothing -/
def cutOperator (c : Char) (cs : List Char) : Cut :=
  match operator? c cs.head? with
  | some (kind, n) => ⟨.token kind none, cs.take n, cs.drop n⟩
  | none => ⟨.stray, [], cs⟩

/-- what stands at the front of the text `c :: cs` -/
def cut (s : Spellings) (c : Char) (cs : List Char) : Cut :=
  if isGap c then ⟨.skipped, [], cs⟩
  else if c = '"' then cutString cs
  else if c.isDigit || (c == '.' && startsWithDigit cs) then cutNumber c cs
  else if Text.startsWord c then cutWord s c cs
  else if c = '/' then
    match cs with
    | '/' :: _ => cutLineComment cs
    | '*' :: inner => cutBlockComment inner
    | _ => cutOperator c cs
  else cutOperator c cs

/-! ## Nothing is lost -/

theorem closeComment?_append {outer : Nat} {text body after : List Char}
    (h : closeComment? outer text = some (body, after)) : body ++ after = text := by
  fun_induction closeComment? outer text generalizing body after with
  | case1 => simp at h
  | case2 rest =>
    obtain ⟨rfl, rfl⟩ := Prod.mk.inj (Option.some.inj h)
    rfl
  | case3 outer rest ih =>
    obtain ⟨⟨b, a⟩, hr, hb⟩ := Option.map_eq_some_iff.1 h
    obtain ⟨rfl, rfl⟩ := Prod.mk.inj hb
    simp [ih hr]
  | case4 outer rest ih =>
    obtain ⟨⟨b, a⟩, hr, hb⟩ := Option.map_eq_some_iff.1 h
    obtain ⟨rfl, rfl⟩ := Prod.mk.inj hb
    simp [ih hr]
  | case5 outer c rest _ _ _ ih =>
    obtain ⟨⟨b, a⟩, hr, hb⟩ := Option.map_eq_some_iff.1 h
    obtain ⟨rfl, rfl⟩ := Prod.mk.inj hb
    simp [ih hr]

theorem cutString_append (cs : List Char) : (cutString cs).more ++ (cutString cs).rest = cs := by
  unfold cutString
  split
  · next body rest h => simpa using closeQuote?_append h
  · simp

theorem cutBlockComment_append (inner : List Char) :
    (cutBlockComment inner).more ++ (cutBlockComment inner).rest = '*' :: inner := by
  unfold cutBlockComment
  split
  · next body rest h => simpa using closeComment?_append h
  · simp

theorem cutDigits_append (c : Char) (digits rest : List Char) :
    (cutDigits c digits rest).more ++ (cutDigits c digits rest).rest = digits ++ rest := by
  fun_cases cutDigits c digits rest
  · rw [List.append_assoc, List.cons_append]
    exact congrArg (digits ++ '.' :: ·) List.takeWhile_append_dropWhile
  · rfl
  · rfl

theorem cutNumber_append (c : Char) (cs : List Char) :
    (cutNumber c cs).more ++ (cutNumber c cs).rest = cs := by
  have h := List.takeWhile_append_dropWhile (p := Char.isDigit) (l := cs)
  simp only [cutNumber]
  split
  · exact h
  · rw [cutDigits_append, h]

theorem cutOperator_append (c : Char) (cs : List Char) :
    (cutOperator c cs).more ++ (cutOperator c cs).rest = cs := by
  unfold cutOperator
  split <;> simp

theorem cut_append (s : Spellings) (c : Char) (cs : List Char) :
    (cut s c cs).more ++ (cut s c cs).rest = cs := by
  unfold cut
  repeat' split
  · rfl
  · exact cutString_append cs
  · exact cutNumber_append c cs
  · exact List.takeWhile_append_dropWhile
  · exact List.takeWhile_append_dropWhile
  · exact cutBlockComment_append _
  · exact cutOperator_append c _
  · exact cutOperator_append c cs

theorem length_rest_le (s : Spellings) (c : Char) (cs : List Char) :
    (cut s c cs).rest.length ≤ cs.length := by
  have h := congrArg List.length (cut_append s c cs)
  rw [List.length_append] at h
  omega

/-! ## The whole text -/

def lexemes (s : Spellings) : List Char → List Lexeme
  | [] => []
  | c :: cs =>
    ⟨(cut s c cs).piece, c :: (cut s c cs).more⟩ :: lexemes s (cut s c cs).rest
termination_by text => text.length
decreasing_by
  have := length_rest_le s c cs
  simp only [List.length_cons]
  omega

theorem flatten_lexemes (s : Spellings) (text : List Char) :
    ((lexemes s text).map Lexeme.text).flatten = text := by
  fun_induction lexemes s text with
  | case1 => rfl
  | case2 c cs ih => simp [ih, cut_append]

end Reckoner
