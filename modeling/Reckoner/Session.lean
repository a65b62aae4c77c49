/-
Interactive sessions. A prompt is shown, a line is read and answered, and so on until the input ends, a line says
`exit` or `quit`, or a line is not text. Lines are trimmed and answered one by one; no line leaves anything behind
for the next one.

`run` mirrors the session's `start`, with `reply` for one turn of its loop; `answer` mirrors `run_repl_command`.
-/
import Reckoner.Pipeline

namespace Reckoner.Session

def version : String := "yak 0.1.0"

def banner : String :=
  version ++ "\nType 'exit' or press Ctrl+D to quit\n\n"

def prompt : String := "> "

section
variable (draw : Drawing)

/-- Goes through the expressions of a line. A tree is printed where trees are asked for; else the expression is
evaluated, and its value is kept in place of the one before it. The first error is shown and ends it, and the
value that is `last` at the end is printed. -/
def answerAll (emit : Emit) (source : String) (last : Option Value) : List Expr → Output
  | [] => .ofLines (last.toList.map Value.display)
  | e :: es =>
    if emit = .ast then .ofLines [e.print] ++ answerAll emit source last es
    else
      let r := e.run
      match r.result with
      | .error error => .ofEvents r.events ++ showError draw source none error
      | .ok v => .ofEvents r.events ++ answerAll emit source (some v) es

variable (c : Config)

def answer (source : String) : Output :=
  match c.emit with
  | .tokens =>
    let lexed := lex c.spellings source
    .ofEvents lexed.events ++ .ofLines (lexed.tokens.map Token.display) ++
      showDiagnostics draw source none lexed.diagnostics
  | emit =>
    let parsed := parseSource c source
    let shown := .ofEvents parsed.events ++ showDiagnostics draw source none parsed.diagnostics
    if hasFatal parsed.diagnostics then shown
    else shown ++ answerAll draw emit source none parsed.expressions

/-- what a line does: it is answered and the session goes on, or the session ends with a last word -/
inductive Reply where
  | goOn (output : Output)
  | stop (output : Output)

/-- the reply to one line of input, given as bytes with its newline -/
def reply (line : List UInt8) : Reply :=
  match decodeText line with
  | .error fault => .stop (.ofComplaint ("Error reading input: " ++ fault.message))
  | .ok text =>
    let source := String.ofList (Text.trim text.toList)
    if source = "" then .goOn {}
    else if source = "exit" || source = "quit" then .stop (.ofLines ["Goodbye!"])
    else .goOn (answer draw c source)

/-- bytes cut after each newline -/
def inputLines : List UInt8 → List (List UInt8)
  | [] => []
  | b :: rest =>
    if b = 10 then [b] :: inputLines rest
    else match inputLines rest with
      | [] => [[b]]
      | line :: lines => (b :: line) :: lines

/-- prompts and replies for the lines of input, to the end of the session -/
def converse : List (List UInt8) → Output
  | [] => { stdout := prompt ++ "\n" }
  | line :: lines =>
    match reply draw c line with
    | .stop output => { stdout := prompt } ++ output
    | .goOn output => { stdout := prompt } ++ output ++ converse lines

def run (stdin : List UInt8) : Output :=
  { stdout := banner } ++ converse draw c (inputLines stdin)

end

end Reckoner.Session
