import Disassembly.Arguments.Basic
import Disassembly.Settings.Basic

/-!
# Steps

The single actions that settings are made of, in the order in which they are read: an input name, a
setting, and at the end of each argument list its output name and switches. A step that fails
leaves the settings as they were, except that the output flags before a word that is not understood
have been set.
-/

namespace Disassembly.Settings

/-- One action on the settings. -/
inductive Step where
  /-- An options file has been opened. -/
  | opened (path : String)
  /-- There is no default options file. -/
  | noDefault (path : String)
  | input (name : String)
  | setting (option : Setting) (value : String)
  /-- The end of an argument list, with its output name and switches. -/
  | finish (output : Option String) (switches : List Switch)
deriving DecidableEq, Repr

/-- Goes on with the value of an expression, or fails. -/
def withValue {α : Type} (settings : Settings) (value : Except Expression.Rejection α)
    (next : α → Outcome) : Outcome :=
  match value with
  | .ok a => next a
  | .error rejection => settings.fail (.rejected rejection)

/-- Declares a symbol, with a warning where it replaces one. -/
def declare (settings : Settings) (a : UInt32) (name : String) : Outcome :=
  let events :=
    match settings.symbols[a]? with
    | none => []
    | some old =>
      [{ severity := .warn
         text := "symbol at " ++ Text.upperAddress a ++ " redeclared, replacing \"" ++ old
           ++ "\"" }]
  { settings := { settings with symbols := settings.symbols.insert a name }, events }

/-- Sets output flags. -/
def setFlags (settings : Settings) (value : String) : Outcome :=
  let (flags, unknown) := settings.flags.apply value
  let settings := { settings with flags }
  match unknown with
  | none => settings.done
  | some _ =>
    settings.fail (.rejected
      { option := Setting.flags.letter, token := value, reason := .unknownFlag })

/-- Whether a value asks for help. -/
def asksHelp (value : String) : Bool :=
  Text.trim value.toList = ['?']

/-- Takes over the value of a setting. -/
def set (settings : Settings) (option : Setting) (value : String) : Outcome :=
  let letter := option.letter
  let text := value.toList
  let layout := settings.layout
  match option with
  | .select =>
    settings.withValue (Expression.region letter text) fun r =>
      done { settings with layout := { layout with selected := layout.selected.insert r } }
  | .entry =>
    settings.withValue (Expression.symbol letter text) fun _ =>
      settings.fail (.unimplemented letter)
  | .correlate =>
    settings.withValue (Expression.placedRegion letter text) fun _ =>
      settings.fail (.unimplemented letter)
  | .place =>
    settings.withValue (Expression.placedRegion letter text) fun r =>
      done { settings with layout := { layout with files := layout.files.insert r } }
  | .content =>
    if asksHelp value then settings.fail (.help Expression.contentHelp)
    else settings.withValue (Expression.typedRegion letter text) fun r =>
      done { settings with layout := { layout with contents := layout.contents.insert r } }
  | .symbol =>
    settings.withValue (Expression.symbol letter text) fun s => settings.declare s.1 s.2
  | .vectors =>
    settings.withValue (Expression.vectorTable letter text) fun r =>
      done { settings with layout := { layout with contents := layout.contents.insert r } }
  | .flags =>
    if asksHelp value then settings.fail (.help OutputFlags.help) else settings.setFlags value

/-- Takes over the output name and the switches of an argument list. -/
def finish (settings : Settings) (output : Option String) (switches : List Switch) : Outcome :=
  if switches.contains .littleEndian then settings.fail (.unimplemented 'l')
  else
    let flags := settings.flags
    done { settings with
      output := output.or settings.output
      split := settings.split || switches.contains .split
      flags := { flags with
        verbose := flags.verbose || switches.contains .verbose
        debug := flags.debug || switches.contains .debug } }

/-- Performs one step. -/
def perform (settings : Settings) (step : Step) : Outcome :=
  match step with
  | .opened path =>
    { settings, events := [{ severity := .debug, text := "reading options from " ++ path }] }
  | .noDefault path =>
    { settings
      events := [{ severity := .warn, text := "default options file " ++ path ++ " not found" }] }
  | .input name =>
    if settings.input.isSome then settings.fail (.tooManyInputs name)
    else done { settings with input := some name }
  | .setting option value => settings.set option value
  | .finish output switches => settings.finish output switches

end Disassembly.Settings
