/-
Reports of diagnostics and runtime errors. A report is filled in here, as `render` of a diagnostic and `report` of a
runtime error do it: its rank and code, the file and the offset it points to, a message, a label at the place it is
about, and advice. Drawing it onto the source is left to a `Drawing`. A drawing may stop short with a fault; the
plain message is written behind it then, and the log tells why.

`showDiagnostics` mirrors `render_all`, `showError` mirrors `report_runtime_error`.
-/
import Reckoner.Output
import Reckoner.RuntimeError

namespace Reckoner

/-! ## Reports -/

inductive Colour where
  | red | yellow | magenta | cyan
  deriving DecidableEq, Repr

/-- a text behind a title in colour -/
structure Titled where
  title : String
  colour : Colour
  text : String
  deriving DecidableEq, Repr

/-- a text in colour at some characters of the source -/
structure Label where
  span : Span
  text : String
  colour : Colour
  deriving DecidableEq, Repr

inductive Report.Rank where
  | error | warning
  deriving DecidableEq, Repr

/-- a report before it is drawn; `offset` is the character of the file that it points to -/
structure Report where
  rank : Report.Rank
  code : Option Nat
  file : String
  offset : Nat
  message : Titled
  label : Option Label
  note : Option Titled
  deriving DecidableEq, Repr

/-- the name under which a source is shown that is not from a file -/
def unnamedFile : String := "<repl>"

def helpNote (text : String) : Titled :=
  ⟨"help", .cyan, text⟩

/-- The report of a diagnostic. There is a label if there is a place for it, and a note if there is advice. -/
def Diagnostic.report (d : Diagnostic) (file : Option String) : Report :=
  let colour := if d.isFatal then .red else .yellow
  { rank := if d.isFatal then .error else .warning
    code := some d.kind.code
    file := file.getD unnamedFile
    offset := (d.span.getD {}).start
    message := ⟨d.kind.name, colour, d.summary⟩
    label := d.span.map fun span => ⟨span, d.summary, colour⟩
    note := d.kind.help?.map helpNote }

/-- the report of a runtime error, at the operator it blames -/
def RuntimeError.report (e : RuntimeError) (file : Option String) : Report :=
  { rank := .error
    code := none
    file := file.getD unnamedFile
    offset := e.span.start
    message := ⟨"Runtime Error", .magenta, e.message⟩
    label := some ⟨e.span, e.label, .magenta⟩
    note := some (helpNote e.help) }

/-! ## Drawing -/

/-- what a drawing has written, and the fault that stopped it short -/
structure Drawn where
  text : String
  fault? : Option String := none
  deriving DecidableEq, Repr

/-- draws a report onto the source that it is about -/
abbrev Drawing := Report → (source : String) → Drawn

section
variable (draw : Drawing) (source : String)

/-- Draws a report on `subject`. Where that fails, the `plain` message is written behind it. -/
def Report.show (subject plain : String) (r : Report) : Output :=
  let drawn := draw r source
  match drawn.fault? with
  | none => { reports := [drawn.text] }
  | some fault => { reports := [drawn.text, plain ++ "\n"], events := [.undrawn subject fault] }

variable (file : Option String)

def showDiagnostics : List Diagnostic → Output
  | [] => {}
  | d :: ds => (d.report file).show draw source "diagnostic" d.message ++ showDiagnostics ds

def showError (e : RuntimeError) : Output :=
  (e.report file).show draw source "runtime error" e.message

/-! ## What showing leaves behind -/

/-- nothing is printed, and only a drawing that failed is logged -/
theorem Report.show_stdout_events (r : Report) (subject plain : String) :
    (r.show draw source subject plain).stdout = "" ∧
      ∀ ev ∈ (r.show draw source subject plain).events, ∃ fault, ev = .undrawn subject fault := by
  simp only [Report.show]
  split
  · exact ⟨rfl, by simp⟩
  · next fault _ => exact ⟨rfl, fun ev hev => ⟨fault, List.mem_singleton.1 hev⟩⟩

@[simp] theorem stdout_showError (e : RuntimeError) : (showError draw source file e).stdout = "" :=
  (Report.show_stdout_events ..).1

@[simp] theorem stdout_showDiagnostics (ds : List Diagnostic) : (showDiagnostics draw source file ds).stdout = "" := by
  induction ds with
  | nil => rfl
  | cons d ds ih => simp [showDiagnostics, ih, (Report.show_stdout_events ..).1]

theorem events_showDiagnostics (ds : List Diagnostic) :
    ∀ ev ∈ (showDiagnostics draw source file ds).events, ∃ fault, ev = .undrawn "diagnostic" fault := by
  induction ds with
  | nil => simp [showDiagnostics]
  | cons d ds ih =>
    intro ev hev
    rcases List.mem_append.1 hev with hev | hev
    · exact (Report.show_stdout_events ..).2 ev hev
    · exact ih ev hev

end

end Reckoner
