/-
Files in memory, found by path. A path is followed part by part from the folder; each part must be entered from a
directory, so a path cannot go on, nor end in a slash, after a file. Nothing is known of what lies outside the
folder except that the places above it are directories.

A folder stands for the files that `load_keywords` and `run_file` read.
-/
import Reckoner.File

namespace Reckoner

/-- files by their paths from one folder -/
structure Folder where
  files : List (String × List UInt8) := []

def pathParts : List Char → List Char × List (List Char)
  | [] => ([], [])
  | c :: rest =>
    let (part, parts) := pathParts rest
    if c = '/' then ([], part :: parts) else (c :: part, parts)

def byteLength (text : List Char) : Nat :=
  (String.ofList text).utf8ByteSize

def pathLimit : Nat := 4096

/-- the greatest number of bytes in one part of a path -/
def partLimit : Nat := 255

namespace Folder

/-- where a path has led so far: to a file, to a directory in the folder, or to one that is not in it -/
inductive Place where
  | file (bytes : List UInt8)
  | inside (parts : List (List Char))
  | outside

/-- the file or directory at a place in the folder -/
def place? (folder : Folder) (parts : List (List Char)) : Option Place :=
  let split (f : String × List UInt8) :=
    let (part, others) := pathParts f.1.toList
    part :: others
  match folder.files.find? fun f => split f == parts with
  | some (_, bytes) => some (.file bytes)
  | none => if folder.files.any fun f => parts.isPrefixOf (split f) then some (.inside parts) else none

/-- one step along a path: a dot or nothing stays, two dots go up, a name goes down -/
def enter (folder : Folder) : Place → List Char → Except ReadFault Place
  | .file _, _ => .error .notDirectory
  | .inside parts, part =>
    if part = [] || part = ['.'] then .ok (.inside parts)
    else if part = ['.', '.'] then .ok (if parts = [] then .outside else .inside parts.dropLast)
    else if partLimit < byteLength part then .error .nameTooLong
    else match folder.place? (parts ++ [part]) with
      | some place => .ok place
      | none => .error .notFound
  | .outside, part =>
    if part = [] || part = ['.'] || part = ['.', '.'] then .ok .outside
    else if partLimit < byteLength part then .error .nameTooLong
    else .error .notFound

def follow (folder : Folder) (place : Place) : List (List Char) → Except ReadFault Place
  | [] => .ok place
  | part :: parts =>
    match folder.enter place part with
    | .ok next => folder.follow next parts
    | .error fault => .error fault

def read (folder : Folder) (path : String) : Except ReadFault (List UInt8) :=
  if path = "" then .error .notFound
  else if pathLimit ≤ path.utf8ByteSize then .error .nameTooLong
  else
    let (part, parts) := pathParts path.toList
    let start := if part = [] then .outside else .inside []
    match folder.follow start (part :: parts) with
    | .ok (.file bytes) => .ok bytes
    | .ok _ => .error .isDirectory
    | .error fault => .error fault

end Folder

end Reckoner
