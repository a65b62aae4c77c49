/-
The program: files, input and output around the command line, and a plain drawing of reports.

The program's `main` in its outermost layer, and the loop of `start` on real input.
-/
import Reckoner.CommandLine

namespace Reckoner.Main

open CommandLine

/-- draws a report in plain lines: its message, the place it points to, its label and its note -/
def draw : Drawing := fun r source =>
  let rank := match r.rank with
    | .error => "Error"
    | .warning => "Warning"
  let code := r.code.elim "" fun n => "[" ++ toString n ++ "] "
  let titled (t : Titled) := t.title ++ ": " ++ t.text
  let place := Position.after {} (source.toList.take r.offset)
  let lines := [code ++ rank ++ ": " ++ titled r.message,
      "  at " ++ r.file ++ ":" ++ toString place.line ++ ":" ++ toString place.column] ++
    r.label.toList.map (fun l => "  " ++ l.text) ++ r.note.toList.map fun n => "  " ++ titled n
  { text := String.join (lines.map (· ++ "\n")) }

/-- prints an output: text on one channel, reports on the other -/
def present (output : Output) : IO Unit := do
  IO.print output.stdout
  for text in output.reports do
    IO.eprint text

def fetch (path : String) : IO (Except ReadFault (List UInt8)) := do
  try
    let bytes ← IO.FS.readBinFile path
    return .ok bytes.toList
  catch
    | .noFileOrDirectory .. => return .error .notFound
    -- opening fails below a file, reading fails at a directory
    | .inappropriateType (some _) .. => return .error .notDirectory
    | .inappropriateType none .. => return .error .isDirectory
    | .invalidArgument .. => return .error .nameTooLong
    | error => return .error (.refused (toString error))

/-- reads the files at some paths, so that they can be looked up -/
def fetchAll (paths : List String) : IO (String → Except ReadFault (List UInt8)) := do
  let found ← paths.mapM fun path => return (path, ← fetch path)
  return fun path => (found.lookup path).getD (.error .notFound)

/-- the bytes of the next line of input, newline included; none at the end of the input -/
partial def readLine (input : IO.FS.Stream) : IO (List UInt8) := do
  match (← input.read 1).toList with
  | [] => return []
  | b :: _ => if b = 10 then return [b] else return b :: (← readLine input)

partial def converse (c : Config) : IO Unit := do
  IO.print Session.prompt
  (← IO.getStdout).flush
  let line ← readLine (← IO.getStdin)
  if line.isEmpty then IO.println ""
  else match Session.reply draw c line with
    | .stop output => present output
    | .goOn output =>
      present output
      converse c

end Reckoner.Main

open Reckoner Reckoner.CommandLine in
def main (arguments : List String) : IO UInt32 := do
  let finish (exit : Exit) : IO UInt32 := do
    Main.present exit.output
    return exit.status.toUInt32
  match Options.parse arguments with
  | .error stop => finish stop.exit
  | .ok options =>
    let read ← Main.fetchAll (options.keywords.toList ++ options.file.toList)
    match options.config read with
    | .error exit => finish exit
    | .ok (c, _) =>
      match options.file with
      | some path => finish (runFile Main.draw read c path)
      | none =>
        IO.print Session.banner
        Main.converse c
        return 0
