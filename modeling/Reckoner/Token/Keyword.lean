/-
Keywords and their spellings. There are 22 keywords, each with a fixed name and a kind. A table of spellings
says how each is written and which text is read as which keyword. `respell` changes one spelling: the text that
the keyword had before is no longer read as anything, and the new text is read as this keyword from then on,
even if another keyword is spelled the same way.

`respellNamed?` mirrors `set_spelling`, `spellingNamed?` mirrors `spelling`, and `lookup` mirrors `lookup`; `standard` is the
table that `new` gives.
-/
import Reckoner.Token.Kind

namespace Reckoner

/-- the keywords, in their customary order -/
inductive Keyword where
  | and | or | not | classWord | ifWord | elseWord | trueWord | falseWord | nilWord | functionWord | returnWord | whileWord | forWord
  | printWord | superWord | thisWord | varWord | bitOr | bitAnd | bitNot | bitXor | bitNand
  deriving DecidableEq, Repr

namespace Keyword

def all : List Keyword := [
  .and, .or, .not, .classWord, .ifWord, .elseWord, .trueWord, .falseWord, .nilWord, .functionWord, .returnWord, .whileWord, .forWord,
  .printWord, .superWord, .thisWord, .varWord, .bitOr, .bitAnd, .bitNot, .bitXor, .bitNand]

/-- the fixed name of a keyword, which is also how it is spelled unless respelled -/
def name : Keyword → String
  | .and => "and"
  | .or => "or"
  | .not => "not"
  | .classWord => "class"
  | .ifWord => "if"
  | .elseWord => "else"
  | .trueWord => "true"
  | .falseWord => "false"
  | .nilWord => "nil"
  | .functionWord => "function"
  | .returnWord => "return"
  | .whileWord => "while"
  | .forWord => "for"
  | .printWord => "print"
  | .superWord => "super"
  | .thisWord => "this"
  | .varWord => "var"
  | .bitOr => "b_or"
  | .bitAnd => "b_and"
  | .bitNot => "b_not"
  | .bitXor => "b_xor"
  | .bitNand => "b_nand"

/-- the kind of token that a keyword makes; `not` is another way to write `!` -/
def kind : Keyword → Kind
  | .and => .and
  | .or => .or
  | .not => .bang
  | .classWord => .classWord
  | .ifWord => .ifWord
  | .elseWord => .elseWord
  | .trueWord => .trueWord
  | .falseWord => .falseWord
  | .nilWord => .nilWord
  | .functionWord => .functionWord
  | .returnWord => .returnWord
  | .whileWord => .whileWord
  | .forWord => .forWord
  | .printWord => .printWord
  | .superWord => .superWord
  | .thisWord => .thisWord
  | .varWord => .varWord
  | .bitOr => .bitOr
  | .bitAnd => .bitAnd
  | .bitNot => .bitNot
  | .bitXor => .bitXor
  | .bitNand => .bitNand

def ofName? (name : String) : Option Keyword :=
  all.find? (·.name == name)

end Keyword

/-- how keywords are written, and which texts are read as keywords -/
structure Spellings where
  spelling : Keyword → String
  keyword? : String → Option Keyword

namespace Spellings

/-- every keyword spelled by its name -/
def standard : Spellings where
  spelling := Keyword.name
  keyword? := Keyword.ofName?

instance : Inhabited Spellings := ⟨standard⟩

/-- The table after one keyword is given a new spelling. Its old spelling is dropped from the texts read as
keywords, whichever keyword it was read as. -/
def respell (s : Spellings) (k : Keyword) (text : String) : Spellings where
  spelling := fun j => if j = k then text else s.spelling j
  keyword? := fun t =>
    if t = text then some k else if t = s.spelling k then none else s.keyword? t

/-- the kind of token that a text is read as, if it is a keyword -/
def lookup (s : Spellings) (text : String) : Option Kind :=
  (s.keyword? text).map Keyword.kind

/-- `respell` for a keyword given by name; `none` if there is no such keyword -/
def respellNamed? (s : Spellings) (name text : String) : Option Spellings :=
  (Keyword.ofName? name).map fun k => s.respell k text

/-- the spelling of a keyword given by name; `none` if there is no such keyword -/
def spellingNamed? (s : Spellings) (name : String) : Option String :=
  (Keyword.ofName? name).map s.spelling

end Spellings

end Reckoner
