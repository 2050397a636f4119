import Disassembly.Arguments.Help
import Disassembly.Arguments.OptionsFile
import Disassembly.Arguments.Reader
import Disassembly.Settings.Step

/-!
# Loading settings

Takes over argument lists and options files. What an argument list names is taken over in the order
in which it is read, and an options file at the place where it is named; a file is opened only when
everything before it has succeeded. Options files may name further ones, up to a limit on the
nesting. Argument lists, those in files too, are read by a parser, which may be given.
-/

namespace Disassembly.Settings

/-- Takes over items in order, options files by `readFile`, up to the first error. -/
def applyItems (readFile : String → Settings → Outcome) : List Item → Settings → Outcome
  | [], settings => settings.done
  | .input name :: items, settings =>
    (settings.perform (.input name)).andThen (applyItems readFile items)
  | .setting option value :: items, settings =>
    (settings.perform (.setting option value)).andThen (applyItems readFile items)
  | .optionsFile path :: items, settings =>
    (readFile path settings).andThen (applyItems readFile items)

/-- Takes over an argument list, options files by `readFile`: its items in order, then its output
name and switches. -/
def applyWith (readFile : String → Settings → Outcome) (arguments : Arguments)
    (settings : Settings) : Outcome :=
  (applyItems readFile arguments.items settings).andThen
    (·.perform (.finish arguments.output arguments.switches))

/-- The arguments in an options file. -/
def loadArguments (look : Lookup) (path : String)
    (parse : Arguments.Parser := Arguments.Parser.standard) : Except Error Arguments :=
  match look.readText path with
  | .error cause => .error (.unreadable path cause)
  | .ok text =>
    match Arguments.read (Arguments.ofFileText text) parse with
    | .ok arguments => .ok arguments
    | .error .help => .error (.help Arguments.helpText)
    | .error .version => .error (.help Arguments.versionText)
    | .error .rejected => .error (.malformed path)

/-- Takes over an options file that may be the first of at most `room` nested ones. -/
def applyFileWithin (parse : Arguments.Parser) (look : Lookup) :
    Nat → String → Settings → Outcome
  | 0, _, settings => settings.fail .nesting
  | room + 1, path, settings =>
    match loadArguments look path parse with
    | .error error => settings.fail error
    | .ok arguments =>
      (settings.perform (.opened path)).andThen
        (applyWith (applyFileWithin parse look room) arguments)

/-- Takes over an options file at a depth of nesting; the command line has depth zero. -/
def applyFile (settings : Settings) (look : Lookup) (depth : Nat) (path : String)
    (parse : Arguments.Parser := Arguments.Parser.standard) : Outcome :=
  applyFileWithin parse look (maxNesting + 1 - depth) path settings

/-- Takes over an argument list at a depth of nesting. -/
def apply (settings : Settings) (look : Lookup) (depth : Nat) (arguments : Arguments)
    (parse : Arguments.Parser := Arguments.Parser.standard) : Outcome :=
  applyWith (fun path settings => settings.applyFile look (depth + 1) path parse) arguments settings

/-- The options file that is read first, if there is one. -/
def defaultFile : String := "dfr.txt"

/-- Takes over the default options file, if there is one. -/
def applyDefaultFile (settings : Settings) (look : Lookup)
    (parse : Arguments.Parser := Arguments.Parser.standard) : Outcome :=
  if look.isFile defaultFile then settings.applyFile look 1 defaultFile parse
  else settings.perform (.noDefault defaultFile)

/-- There has to be an input. -/
def requireInput (settings : Settings) : Outcome :=
  if settings.input.isSome then settings.done else settings.fail .noInput

/-- The settings of a run: those of the default options file, then those of the command line. -/
def load (look : Lookup) (arguments : Arguments)
    (parse : Arguments.Parser := Arguments.Parser.standard) : Outcome :=
  ((applyDefaultFile {} look parse).andThen (·.apply look 0 arguments parse)).andThen requireInput

end Disassembly.Settings
