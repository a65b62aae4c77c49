/-
Kinds of tokens. Each kind has a name, under which tokens are shown, and eight keywords open a statement;
after an error, reading expressions takes up again before one of them or after a semicolon.

`Kind.startsStatement` mirrors `starts_statement`.
-/

namespace Reckoner

inductive Kind where
  -- brackets, separators and one-character operators
  | leftParen | rightParen | leftBrace | rightBrace | comma | dot | minus | plus | semicolon
  | slash | star | question | colon
  -- operators of one or two characters
  | starStar | bang | bangEqual | equal | equalEqual | greater | greaterEqual | rightShift | less
  | lessEqual | leftShift
  -- words that are no keyword, and constants
  | identifier | string | integer | double
  -- operators spelled as words
  | and | or | bitOr | bitAnd | bitNot | bitXor | bitNand
  -- other keywords
  | classWord | ifWord | elseWord | trueWord | falseWord | nilWord | functionWord | returnWord
  | whileWord | forWord | printWord | superWord | thisWord | varWord
  -- the end of the text
  | eof
  deriving DecidableEq, Repr, Inhabited

namespace Kind

def all : List Kind := [
  .leftParen, .rightParen, .leftBrace, .rightBrace, .comma, .dot, .minus, .plus, .semicolon,
  .slash, .star, .question, .colon, .starStar, .bang, .bangEqual, .equal, .equalEqual, .greater,
  .greaterEqual, .rightShift, .less, .lessEqual, .leftShift, .identifier, .string, .integer,
  .double, .and, .or, .bitOr, .bitAnd, .bitNot, .bitXor, .bitNand, .classWord, .ifWord, .elseWord,
  .trueWord, .falseWord, .nilWord, .functionWord, .returnWord, .whileWord, .forWord, .printWord,
  .superWord, .thisWord, .varWord, .eof]

def name : Kind → String
  | .leftParen => "LEFT_PAREN"
  | .rightParen => "RIGHT_PAREN"
  | .leftBrace => "LEFT_BRACE"
  | .rightBrace => "RIGHT_BRACE"
  | .comma => "COMMA"
  | .dot => "DOT"
  | .minus => "MINUS"
  | .plus => "PLUS"
  | .semicolon => "SEMICOLON"
  | .slash => "SLASH"
  | .star => "STAR"
  | .question => "QUESTION"
  | .colon => "COLON"
  | .starStar => "STAR_STAR"
  | .bang => "BANG"
  | .bangEqual => "BANG_EQUAL"
  | .equal => "EQUAL"
  | .equalEqual => "EQUAL_EQUAL"
  | .greater => "GREATER"
  | .greaterEqual => "GREATER_EQUAL"
  | .rightShift => "RIGHT_SHIFT"
  | .less => "LESS"
  | .lessEqual => "LESS_EQUAL"
  | .leftShift => "LEFT_SHIFT"
  | .identifier => "IDENTIFIER"
  | .string => "STRING"
  | .integer => "INTEGER"
  | .double => "DOUBLE"
  | .and => "AND"
  | .or => "OR"
  | .bitOr => "B_OR"
  | .bitAnd => "B_AND"
  | .bitNot => "B_NOT"
  | .bitXor => "B_XOR"
  | .bitNand => "B_NAND"
  | .classWord => "CLASS"
  | .ifWord => "IF"
  | .elseWord => "ELSE"
  | .trueWord => "TRUE"
  | .falseWord => "FALSE"
  | .nilWord => "NIL"
  | .functionWord => "FUNCTION"
  | .returnWord => "RETURN"
  | .whileWord => "WHILE"
  | .forWord => "FOR"
  | .printWord => "PRINT"
  | .superWord => "SUPER"
  | .thisWord => "THIS"
  | .varWord => "VAR"
  | .eof => "EOF"

def startsStatement : Kind → Bool
  | .classWord | .functionWord | .varWord | .forWord | .ifWord | .whileWord | .printWord
  | .returnWord => true
  | _ => false

end Kind

end Reckoner
