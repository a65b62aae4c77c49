/-
What work leaves behind: the text it prints, what it writes beside that, and its log.

`run`, `start`, `load_keywords` and what they call write to these channels, each part behind what is there.
-/
import Reckoner.Event

namespace Reckoner

/-- the text printed, the reports written beside it, each as it is written, and the log; all in order -/
structure Output where
  stdout : String := ""
  reports : List String := []
  events : List Event := []
  deriving Repr

namespace Output

protected def append (a b : Output) : Output :=
  ⟨a.stdout ++ b.stdout, a.reports ++ b.reports, a.events ++ b.events⟩

instance : Append Output := ⟨Output.append⟩

def ofLines (lines : List String) : Output :=
  { stdout := String.join (lines.map (· ++ "\n")) }

def ofEvents (events : List Event) : Output :=
  { events }

/-- a plain complaint, on a line of its own -/
def ofComplaint (text : String) : Output :=
  { reports := [text ++ "\n"] }

/-! ## Parts of an output -/

@[simp] theorem reports_ofLines (lines : List String) : (ofLines lines).reports = [] := rfl

@[simp] theorem events_ofLines (lines : List String) : (ofLines lines).events = [] := rfl

@[simp] theorem stdout_ofEvents (events : List Event) : (ofEvents events).stdout = "" := rfl

@[simp] theorem reports_ofEvents (events : List Event) : (ofEvents events).reports = [] := rfl

@[simp] theorem events_ofEvents (events : List Event) : (ofEvents events).events = events := rfl

/-! ## One output after another -/

@[simp] theorem stdout_append (a b : Output) : (a ++ b).stdout = a.stdout ++ b.stdout := rfl

@[simp] theorem reports_append (a b : Output) : (a ++ b).reports = a.reports ++ b.reports := rfl

@[simp] theorem events_append (a b : Output) : (a ++ b).events = a.events ++ b.events := rfl

protected theorem ext {a b : Output} (hstdout : a.stdout = b.stdout) (hreports : a.reports = b.reports)
    (hevents : a.events = b.events) : a = b := by
  cases a
  cases b
  simp_all

@[simp] protected theorem append_assoc (a b c : Output) : a ++ b ++ c = a ++ (b ++ c) :=
  Output.ext String.append_assoc (List.append_assoc ..) (List.append_assoc ..)

@[simp] protected theorem empty_append (a : Output) : {} ++ a = a :=
  Output.ext String.empty_append rfl rfl

@[simp] protected theorem append_empty (a : Output) : a ++ {} = a :=
  Output.ext String.append_empty (List.append_nil _) (List.append_nil _)

@[simp] theorem ofLines_append (a b : List String) : ofLines (a ++ b) = ofLines a ++ ofLines b :=
  Output.ext (by simp [ofLines]) rfl rfl

@[simp] theorem ofEvents_append (a b : List Event) : ofEvents (a ++ b) = ofEvents a ++ ofEvents b := rfl

end Output

end Reckoner
