/-
Reading text files: why a file may not be readable, how each fault is worded, and text from bytes.

`decodeText` and the faults are those of reading a whole file as text, in `load_keywords` and `run_file`.
-/

namespace Reckoner

inductive ReadFault where
  | notFound
  | isDirectory
  | notDirectory
  | nameTooLong
  /-- the bytes are not UTF-8 -/
  | notText
  /-- any other reason, in the words of the system -/
  | refused (reason : String)
  deriving DecidableEq, Repr

def ReadFault.message : ReadFault → String
  | .notFound => "No such file or directory (os error 2)"
  | .isDirectory => "Is a directory (os error 21)"
  | .notDirectory => "Not a directory (os error 20)"
  | .nameTooLong => "File name too long (os error 36)"
  | .notText => "stream did not contain valid UTF-8"
  | .refused reason => reason

def decodeText (bytes : List UInt8) : Except ReadFault String :=
  match String.fromUTF8? ⟨bytes.toArray⟩ with
  | some text => .ok text
  | none => .error .notText

end Reckoner
