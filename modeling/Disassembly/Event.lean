/-!
# Events

What the program reports beside its results. The operations of this library do not print: they give
lists of events, in the order in which things happened, and the caller chooses which to show.
-/

namespace Disassembly

/-- How grave an event is, the gravest first. -/
inductive Severity where
  | error
  | warn
  | info
  | debug
deriving DecidableEq, Repr

namespace Severity

/-- Zero for the gravest. -/
def rank : Severity → Nat
  | error => 0
  | warn => 1
  | info => 2
  | debug => 3

/-- The word that stands before an event. -/
def label : Severity → String
  | error => "ERROR"
  | warn => "WARN"
  | info => "INFO"
  | debug => "DEBUG"

end Severity

/-- Something to report. -/
structure Event where
  severity : Severity
  text : String
deriving DecidableEq, Repr

namespace Event

/-- The event as one line, without the line's end. -/
def line (event : Event) : String :=
  event.severity.label ++ " " ++ event.text

/-- The lines of the events at least as grave as `level`. -/
def linesAt (level : Severity) (events : List Event) : List String :=
  (events.filter fun e => decide (e.severity.rank ≤ level.rank)).map line

end Event

end Disassembly
