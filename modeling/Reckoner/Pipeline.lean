/-
From a source to its values. The source is cut into tokens, read as a program, and, unless that met a fatal
diagnostic, evaluated expression by expression up to the first runtime error.

- `parseSource` mirrors `parse_source`;
- `evaluateSource` mirrors `evaluate_source`: the values are collected, and none are left if there is an error;
- `runSource` mirrors `run`: what the settings ask for is printed as it comes, and what is wrong is reported.
-/
import Reckoner.Config
import Reckoner.Expr.Eval
import Reckoner.Expr.Printer
import Reckoner.Report
import Reckoner.Token.Lex

namespace Reckoner

/-! ## Reading -/

/-- the expressions of a source, all diagnostics met in cutting and reading it, and the log -/
structure Parsed where
  expressions : List Expr
  diagnostics : List Diagnostic
  events : List Event

def parseSource (c : Config) (source : String) : Parsed :=
  let lexed := lex c.spellings source
  let outcome := (Reader.ofTokens lexed.tokens c.limit).program
  { expressions := outcome.result,
    diagnostics := lexed.diagnostics ++ outcome.diagnostics,
    events := .entered .scanning :: lexed.events ++ .entered .parsing :: outcome.events }

/-! ## Evaluating -/

inductive PipelineError where
  | diagnostics (all : List Diagnostic)
  | runtime (error : RuntimeError)
  deriving DecidableEq, Repr

namespace PipelineError

def message : PipelineError → String
  | .diagnostics all =>
    toString all.length ++ " diagnostic(s), first fatal: " ++ (firstFatal? all).elim "none" (·.kind.name)
  | .runtime error => error.message

/-- the exit status for an error: the code of the first fatal diagnostic, or 70 for a runtime error -/
def exitCode : PipelineError → Nat
  | .diagnostics all => (firstFatal? all).elim 1 (·.kind.code)
  | .runtime _ => 70

end PipelineError

/-- the values of expressions, or the first error among them, and the log -/
structure Collected where
  result : Except RuntimeError (List Value)
  events : List Event := []

/-- collects the values of expressions; the first error ends it, and the values before it are given up -/
def collectValues : List Expr → Collected
  | [] => ⟨.ok [], []⟩
  | e :: es =>
    let r := e.run
    match r.result with
    | .error error => ⟨.error error, r.events⟩
    | .ok v =>
      let rest := collectValues es
      ⟨rest.result.map (v :: ·), r.events ++ rest.events⟩

theorem collectValues_cons_result (e : Expr) (es : List Expr) :
    (collectValues (e :: es)).result = e.evaluate.bind fun v => (collectValues es).result.map (v :: ·) := by
  rw [collectValues, Expr.evaluate]
  cases e.run.result <;> rfl

/-- the outcome of the whole work on a source, and the log -/
structure Evaluation where
  result : Except PipelineError (List Value)
  events : List Event

def Evaluation.error? (e : Evaluation) : Option PipelineError :=
  match e.result with
  | .ok _ => none
  | .error err => some err

theorem Evaluation.error?_eq_some_iff {e : Evaluation} {err : PipelineError} :
    e.error? = some err ↔ e.result = .error err := by
  unfold error?
  split <;> simp [*]

/-- the values of a source's expressions -/
def evaluateSource (c : Config) (source : String) : Evaluation :=
  let parsed := parseSource c source
  if hasFatal parsed.diagnostics then ⟨.error (.diagnostics parsed.diagnostics), parsed.events⟩
  else
    let collected := collectValues parsed.expressions
    ⟨collected.result.mapError .runtime, parsed.events ++ .entered .evaluating :: collected.events⟩

/-! ## Running -/

/-- what a run leaves behind, and the error that ended it -/
structure Ran where
  output : Output
  error? : Option PipelineError := none

section
variable (draw : Drawing)

/-- prints the value of each expression as soon as it is there; the first error is shown and ends it -/
def printValues (source : String) (file : Option String) : List Expr → Ran
  | [] => { output := {} }
  | e :: es =>
    let r := e.run
    match r.result with
    | .error error =>
      { output := .ofEvents r.events ++ showError draw source file error, error? := some (.runtime error) }
    | .ok v =>
      let rest := printValues source file es
      { rest with output := .ofEvents r.events ++ .ofLines [v.display] ++ rest.output }

/-- Runs a source and shows what the settings ask for. Diagnostics are shown first, and a fatal one stops the
run; where tokens are asked for, they are printed in front of the diagnostics, and nothing stops it. -/
def runSource (c : Config) (source : String) (file : Option String) : Ran :=
  match c.emit with
  | .tokens =>
    let lexed := lex c.spellings source
    { output := .ofEvents lexed.events ++ .ofLines (lexed.tokens.map Token.display) ++
        showDiagnostics draw source file lexed.diagnostics }
  | emit =>
    let parsed := parseSource c source
    let shown := .ofEvents parsed.events ++ showDiagnostics draw source file parsed.diagnostics
    if hasFatal parsed.diagnostics then
      { output := shown, error? := some (.diagnostics parsed.diagnostics) }
    else if emit = .ast then
      { output := shown ++ .ofLines (parsed.expressions.map Expr.print) }
    else
      let ran := printValues draw source file parsed.expressions
      { ran with output := shown ++ .ofEvents [.entered .evaluating] ++ ran.output }

end

end Reckoner
