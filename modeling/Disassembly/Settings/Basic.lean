import Disassembly.Expression.Region
import Disassembly.Files
import Disassembly.Layout
import Disassembly.OutputFlags
import Disassembly.Symbols

/-!
# Settings

What a run of the program is to do, as the command line and the options files have set it, and the
errors that setting it can meet.
-/

namespace Disassembly

/-- What a run of the program is to do. -/
structure Settings where
  input : Option String := none
  output : Option String := none
  /-- Write one file for each section. -/
  split : Bool := false
  flags : OutputFlags := {}
  layout : Layout := {}
  symbols : Symbols := ∅

namespace Settings

/-- How deep options files may include each other. -/
def maxNesting : Nat := 8

/-- Why settings cannot be made. -/
inductive Error where
  /-- The value of an option is not understood. -/
  | rejected (rejection : Expression.Rejection)
  /-- The option exists but does nothing yet. -/
  | unimplemented (option : Char)
  | tooManyInputs (name : String)
  | noInput
  | unreadable (path : String) (cause : FileError)
  /-- The arguments in an options file have no meaning. -/
  | malformed (path : String)
  | nesting
  /-- Not an error as such: help was asked for. -/
  | help (text : String)
deriving DecidableEq, Repr

/-- The report of an error. -/
def Error.message : Error → String
  | rejected rejection => rejection.message
  | unimplemented option => "-" ++ option.toString ++ ": not implemented yet"
  | tooManyInputs name => "too many input files: \"" ++ name ++ "\""
  | noInput => "no input file"
  | unreadable path _ => "cannot read options file " ++ path
  | malformed path => "options file " ++ path ++ ": malformed arguments"
  | nesting => "options files nested deeper than " ++ Text.decimal maxNesting ++ " levels"
  | help text => text

/-- What lies behind an error. -/
def Error.cause? : Error → Option FileError
  | unreadable _ cause => some cause
  | _ => none

/-- Settings after a number of steps, what was reported on the way, and the error that ended it. -/
structure Outcome where
  settings : Settings
  events : List Event := []
  error : Option Error := none

/-- An outcome without error. -/
def done (settings : Settings) : Outcome :=
  { settings }

/-- An outcome with an error. -/
def fail (settings : Settings) (error : Error) : Outcome :=
  { settings, error := some error }

/-- Goes on from an outcome, unless an error ended it. -/
def Outcome.andThen (outcome : Outcome) (next : Settings → Outcome) : Outcome :=
  match outcome.error with
  | some _ => outcome
  | none =>
    let later := next outcome.settings
    { later with events := outcome.events ++ later.events }

@[simp] theorem Outcome.done_andThen (settings : Settings) (next : Settings → Outcome) :
    settings.done.andThen next = next settings := rfl

@[simp] theorem Outcome.fail_andThen (settings : Settings) (error : Error)
    (next : Settings → Outcome) :
    (settings.fail error).andThen next = settings.fail error := rfl

@[simp] theorem Outcome.andThen_done (outcome : Outcome) : outcome.andThen done = outcome := by
  obtain ⟨settings, events, error⟩ := outcome
  cases error <;> simp [andThen, done]

/-- Only the order of the parts matters, not how they are grouped. -/
theorem Outcome.andThen_assoc (outcome : Outcome) (f g : Settings → Outcome) :
    (outcome.andThen f).andThen g = outcome.andThen fun settings => (f settings).andThen g := by
  obtain ⟨settings, events, error⟩ := outcome
  cases error with
  | some error => rfl
  | none =>
    cases h : (f settings).error <;> simp [andThen, h]

end Settings

end Disassembly
