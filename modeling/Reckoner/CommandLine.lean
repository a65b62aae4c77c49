/-
The command line: flags, options with values, and at most one file. Arguments are taken from the left and the first
wrong one decides. An option that waits for its value is checked only when the next flag, file or the end comes,
so a flag that does not exist is named before a bad value right in front of it.

`Options.parse` reads the arguments, by the rules of `cli`; `execute` carries them out on the files and input it is given,
as the program's `main` does. `runFile` mirrors `run_file`, `Stop.exit` mirrors `fail_on_flag_error`, `Exit.fail` mirrors
`fail`.
-/
import Reckoner.Session

namespace Reckoner.CommandLine

/-! ## Flags -/

inductive Flag where
  | interactive | emit | keywords | maxDepth | verbose | help | version
  deriving DecidableEq, Repr

namespace Flag

def ofLong? : String → Option Flag
  | "interactive" => some .interactive
  | "emit" => some .emit
  | "keywords" => some .keywords
  | "max-depth" => some .maxDepth
  | "verbose" => some .verbose
  | "help" => some .help
  | "version" => some .version
  | _ => none

def ofShort? : Char → Option Flag
  | 'i' => some .interactive
  | 'p' => some .emit
  | 'k' => some .keywords
  | 'v' => some .verbose
  | 'h' => some .help
  | 'V' => some .version
  | _ => none

def takesValue : Flag → Bool
  | .emit | .keywords | .maxDepth => true
  | .interactive | .verbose | .help | .version => false

def display : Flag → String
  | .interactive => "--interactive"
  | .emit => "--emit <MODE>"
  | .keywords => "--keywords <FILE>"
  | .maxDepth => "--max-depth <N>"
  | .verbose => "--verbose"
  | .help => "--help"
  | .version => "--version"

end Flag

/-! ## Options -/

structure Options where
  file : Option String := none
  interactive : Bool := false
  emit : Option Emit := none
  keywords : Option String := none
  limit : Option Nat := none
  verbosity : Nat := 0
  deriving DecidableEq, Repr

/-- why the arguments were not taken to the end -/
inductive Stop where
  /-- a flag that does not exist, or a second file -/
  | unrecognized (flag : String)
  /-- an option without its value -/
  | missingValue (flag : Flag)
  /-- a bad value, a value where none is taken, or a flag given twice -/
  | usage
  /-- the help was asked for -/
  | help
  /-- the version was asked for -/
  | version
  deriving DecidableEq, Repr

/-- the greatest nesting that can be asked for, the greatest number of 64 bits -/
def maxLimit : Nat := 18446744073709551615

/-- a natural up to `maxLimit` in decimal digits, with or without a plus sign -/
def readLimit? (text : String) : Option Nat :=
  let digits := match text.toList with
    | '+' :: rest => rest
    | all => all
  let n := Decimal.natural digits
  if digits ≠ [] && digits.all Char.isDigit && n ≤ maxLimit then some n else none

namespace Options

def activate (o : Options) : Flag → Except Stop Options
  | .interactive => if o.interactive then .error .usage else .ok { o with interactive := true }
  | .verbose => .ok { o with verbosity := o.verbosity + 1 }
  | .help => .error .help
  | .version => .error .version
  | .emit | .keywords | .maxDepth => .ok o

/-- the options after an option with its value; no option may be given twice -/
def store (o : Options) (flag : Flag) (value : String) : Except Stop Options :=
  match flag with
  | .emit =>
    if o.emit.isSome then .error .usage
    else match Emit.ofName? value with
      | some mode => .ok { o with emit := some mode }
      | none => .error (if value = "" then .missingValue .emit else .usage)
  | .keywords => if o.keywords.isSome then .error .usage else .ok { o with keywords := some value }
  | .maxDepth =>
    if o.limit.isSome then .error .usage
    else match readLimit? value with
      | some n => .ok { o with limit := some n }
      | none => .error .usage
  | .interactive | .verbose | .help | .version => .ok o

end Options

/-! ## Taking arguments -/

/-- The options so far, the option whose value was not checked yet, with the value if it has come, and whether only
files may follow. -/
structure Progress where
  options : Options := {}
  pending : Option (Flag × Option String) := none
  filesOnly : Bool := false

namespace Progress

def settle (p : Progress) : Except Stop Progress :=
  match p.pending with
  | none => .ok p
  | some (flag, none) => .error (.missingValue flag)
  | some (flag, some value) =>
    (p.options.store flag value).map fun options => { p with options, pending := none }

def flag (p : Progress) (f : Flag) : Except Stop Progress :=
  p.settle.bind fun p => (p.options.activate f).map fun options => { p with options }

/-- takes an option, with the value written onto it if there is one -/
def option (p : Progress) (f : Flag) (value : Option String) : Except Stop Progress :=
  p.settle.bind fun p =>
    match value with
    | none => .ok { p with pending := some (f, none) }
    | some text => (p.options.store f text).map fun options => { p with options }

/-- takes the file; there is room for one -/
def file (p : Progress) (path : String) : Except Stop Progress :=
  if p.options.file.isSome then .error (.unrecognized path)
  else p.settle.map fun p => { p with options := { p.options with file := some path } }

/-- takes an argument that begins with two dashes, given without them -/
def long (p : Progress) (text : List Char) : Except Stop Progress :=
  let name := String.ofList (text.takeWhile (· != '='))
  let value := match text.dropWhile (· != '=') with
    | [] => none
    | _ :: after => some (String.ofList after)
  match Flag.ofLong? name with
  | none => .error (.unrecognized ("--" ++ name))
  | some f =>
    if f.takesValue then p.option f value
    else if value.isSome then .error .usage
    else p.flag f

/-- takes the letters after one dash; the letters after an option's are its value, an equals sign left out -/
def short (p : Progress) : List Char → Except Stop Progress
  | [] => .ok p
  | c :: rest =>
    match Flag.ofShort? c with
    | none => .error (.unrecognized (String.ofList ['-', c]))
    | some f =>
      if f.takesValue then
        p.option f <| match rest with
          | [] => none
          | '=' :: value => some (String.ofList value)
          | value => some (String.ofList value)
      else (p.flag f).bind fun p => p.short rest

/-- takes an argument that begins with no dash, or is one dash alone: a value if one is waited for, else the file -/
def plain (p : Progress) (argument : String) : Except Stop Progress :=
  match p.pending with
  | some (f, none) => .ok { p with pending := some (f, some argument) }
  | _ => p.file argument

def take (p : Progress) (argument : String) : Except Stop Progress :=
  if p.filesOnly then p.file argument
  else match argument.toList with
    | ['-', '-'] => .ok { p with filesOnly := true }
    | '-' :: '-' :: text => p.long text
    | '-' :: c :: letters => p.short (c :: letters)
    | _ => p.plain argument

def takeAll (p : Progress) : List String → Except Stop Progress
  | [] => p.settle
  | argument :: rest => (p.take argument).bind fun p => p.takeAll rest

end Progress

def Options.parse (arguments : List String) : Except Stop Options :=
  (Progress.takeAll {} arguments).map Progress.options

/-! ## Carrying out -/

/-- how the program ends: its exit status, and what it printed and reported -/
structure Exit where
  status : Nat
  output : Output := {}

def helpText : String :=
  "Lexer, parser and evaluator for the yak expression language\n\n" ++
  "Usage: yak [OPTIONS] [FILE]\n\n" ++
  "Arguments:\n" ++
  "  [FILE]  The source file to evaluate\n\n" ++
  "Options:\n" ++
  "  -i, --interactive      Start in interactive REPL mode\n" ++
  "  -p, --emit <MODE>      What to print for each expression [default: value] [possible values: tokens, ast, value]\n" ++
  "  -k, --keywords <FILE>  File of 'name = spelling' keyword overrides\n" ++
  "      --max-depth <N>    Deepest expression nesting accepted by the parser\n" ++
  "  -v, --verbose...       Log pipeline stages (-v) or every token and node (-vv)\n" ++
  "  -h, --help             Print help\n" ++
  "  -V, --version          Print version\n"

/-- ends the program with a diagnostic that has no place in a source -/
def Exit.fail (kind : Diagnostic.Kind) (details : List String) : Exit :=
  let d : Diagnostic := { kind, severity := .fatal, details }
  ⟨kind.code, .ofComplaint d.message⟩

/-- how the program ends when the arguments were not taken to the end -/
def Stop.exit : Stop → Exit
  | .unrecognized flag => .fail .unrecognizedFlag [flag]
  | .missingValue flag => .fail .missingFlagArgument [flag.display, "(EOL)"]
  | .usage => ⟨2, {}⟩
  | .help => ⟨0, { stdout := helpText }⟩
  | .version => ⟨0, { stdout := Session.version ++ "\n" }⟩

section
variable (draw : Drawing) (read : String → Except ReadFault (List UInt8))

/-- the settings that the options ask for with the log of loading them, or how the program ends without them; `read`
gives a file's bytes -/
def Options.config (o : Options) : Except Exit (Config × List Event) :=
  let c : Config := { limit := o.limit.getD defaultLimit, emit := o.emit.getD .value }
  match o.keywords with
  | none => .ok (c, [])
  | some path =>
    let loading := c.loadKeywords path (read path)
    match loading.result with
    | .ok () => .ok (loading.config, loading.events)
    | .error (.unreadable path .notFound) => .error (.fail .fileNotFound [path])
    | .error error => .error ⟨1, .ofComplaint ("Error: " ++ error.message)⟩

def runFile (c : Config) (path : String) : Exit :=
  match (read path).bind decodeText with
  | .error .notFound => .fail .fileNotFound [path]
  | .error fault => ⟨1, .ofComplaint ("Error reading file '" ++ path ++ "': " ++ fault.message)⟩
  | .ok source =>
    let ran := runSource draw c source (some path)
    match ran.error? with
    | none => ⟨0, ran.output⟩
    | some error => ⟨error.exitCode, ran.output ++ .ofEvents [.failed error.message]⟩

/-- Carries out a command line: a file is run, and without one a session is held on the input. -/
def execute (arguments : List String) (stdin : List UInt8) : Exit :=
  match Options.parse arguments with
  | .error stop => stop.exit
  | .ok options =>
    match options.config read with
    | .error exit => exit
    | .ok (c, events) =>
      let exit := match options.file with
        | some path => runFile draw read c path
        | none => ⟨0, Session.run draw c stdin⟩
      { exit with output := .ofEvents events ++ exit.output }

end

end Reckoner.CommandLine
