/-
Log events. Every step of the work can be followed through the events it leaves, in order: tokens cut,
diagnostics reported, stages entered and finished, tree nodes evaluated. An event has a level, a message and
named fields, all made from what the event is about.

These are the events that the program traces, from `scan_tokens` and `report` to `evaluate` and `render_all`.
-/
import Reckoner.Diagnostic
import Reckoner.Token.Basic

namespace Reckoner

inductive Stage where
  | scanning | parsing | evaluating
  deriving DecidableEq, Repr

def Stage.name : Stage → String
  | .scanning => "scanning"
  | .parsing => "parsing"
  | .evaluating => "evaluating"

/-- one line of the log -/
inductive Event where
  /-- a stage begins -/
  | entered (stage : Stage)
  /-- a token was cut from the source -/
  | cut (token : Token)
  /-- a diagnostic was reported -/
  | reported (diagnostic : Diagnostic)
  /-- the whole source was cut, with so many tokens and diagnostics -/
  | lexed (tokens diagnostics : Nat)
  /-- a single expression was read and `next` stands after it -/
  | ignored (next : Token)
  /-- the whole program was read, with so many expressions -/
  | parsed (expressions : Nat)
  /-- a tree node of this shape is evaluated -/
  | visited (node : String)
  /-- a binary operator is applied to values of these types -/
  | applied (operator left right : String)
  /-- the report of a diagnostic or a runtime error could not be drawn -/
  | undrawn (subject fault : String)
  /-- the keyword file at this path was loaded -/
  | loaded (path : String)
  /-- the run of a file failed, with this message -/
  | failed (message : String)
  deriving BEq, Repr

namespace Event

/-- the level of an event, from the finest detail to a warning -/
def level : Event → String
  | .cut _ | .visited _ | .applied .. => "TRACE"
  | .entered _ | .reported _ | .lexed .. | .parsed _ | .loaded _ | .failed _ => "DEBUG"
  | .ignored _ | .undrawn .. => "WARN"

def message : Event → String
  | .entered stage => stage.name
  | .cut _ => "token"
  | .reported _ => "diagnostic reported"
  | .lexed .. => "lexing complete"
  | .ignored _ => "ignoring input after expression"
  | .parsed _ => "parsing complete"
  | .visited _ => "evaluating"
  | .applied .. => "binary"
  | .undrawn subject fault => "failed to render " ++ subject ++ ": " ++ fault
  | .loaded _ => "loaded keyword spellings"
  | .failed message => "run failed: " ++ message

def fields : Event → List (String × String)
  | .entered _ | .undrawn .. | .failed _ => []
  | .cut t => [("token", t.display), ("line", toString t.line), ("column", toString t.column)]
  | .reported d =>
    [("kind", d.kind.name), ("line", toString d.line), ("column", toString d.column),
      ("fatal", if d.isFatal then "true" else "false")]
  | .lexed tokens diagnostics =>
    [("tokens", toString tokens), ("diagnostics", toString diagnostics)]
  | .ignored t =>
    [("lexeme", t.lexeme), ("line", toString t.line), ("column", toString t.column)]
  | .parsed expressions => [("expressions", toString expressions)]
  | .visited node => [("node", node)]
  | .applied operator left right => [("operator", operator), ("left", left), ("right", right)]
  | .loaded path => [("path", path)]

end Event

end Reckoner
