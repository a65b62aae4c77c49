/-
Settings of a run: how keywords are spelled, how deep expressions may nest, and what is shown for each
expression.

`Config.loadKeywords` mirrors `load_keywords`; `Emit.ofName?` reads the modes of `--emit`.
-/
import Reckoner.File
import Reckoner.KeywordFile
import Reckoner.Program

namespace Reckoner

/-- what is shown of a source: its tokens, the printed trees, or the values -/
inductive Emit where
  | tokens | ast | value
  deriving DecidableEq, Repr

namespace Emit

def ofName? : String → Option Emit
  | "tokens" => some .tokens
  | "ast" => some .ast
  | "value" => some .value
  | _ => none

def unknownMessage (name : String) : String :=
  "unknown emit mode '" ++ name ++ "' (expected tokens, ast or value)"

end Emit

structure Config where
  spellings : Spellings := .standard
  limit : Nat := defaultLimit
  emit : Emit := .value

/-! ## Loading keyword files -/

inductive LoadError where
  /-- it could not be read -/
  | unreadable (path : String) (fault : ReadFault)
  /-- it has a bad line -/
  | invalid (error : KeywordFile.Error)
  deriving DecidableEq, Repr

def LoadError.message : LoadError → String
  | .unreadable path fault => "cannot read keyword file '" ++ path ++ "': " ++ fault.message
  | .invalid error => error.message

/-- what loading a keyword file leaves: the settings, whether the file was taken, and the log -/
structure Loading where
  config : Config
  result : Except LoadError Unit
  events : List Event := []

/-- Loads the keyword file whose bytes were read from a path. The file starts from the standard spellings, so
nothing of an earlier file remains; a file that is not taken leaves the settings as they are. -/
def Config.loadKeywords (c : Config) (path : String) (contents : Except ReadFault (List UInt8)) : Loading :=
  match contents with
  | .error fault => { config := c, result := .error (.unreadable path fault) }
  | .ok bytes =>
    match decodeText bytes with
    | .error fault => { config := c, result := .error (.unreadable path fault) }
    | .ok text =>
      match KeywordFile.parse text with
      | .error error => { config := c, result := .error (.invalid error) }
      | .ok spellings => { config := { c with spellings }, result := .ok (), events := [.loaded path] }

end Reckoner
