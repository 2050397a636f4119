import Disassembly.Dump.Report
import Disassembly.ListingFile
import Disassembly.Settings.Load

/-!
# The program

From an argument list and the files in the working directory to the files of a listing. Everything
the program does is decided here; what is left to the command line is to fetch files, to write
files, and to show events and texts.
-/

namespace Disassembly

namespace Program

/-- Why an input cannot be disassembled. -/
inductive LoadError where
  | cannotOpen (path : String) (cause : FileError)
  | cannotLoad (path : String) (cause : FileError)
  | emptyInput (path : String)
  | inputTooLarge
deriving DecidableEq, Repr

/-- The report of an error, and what lies behind it. -/
def LoadError.message : LoadError → String × String
  | cannotOpen path cause => ("cannot open " ++ path, cause.message)
  | cannotLoad path cause => ("cannot load " ++ path, cause.message)
  | emptyInput path => ("cannot load " ++ path, "input file " ++ path ++ " is empty")
  | inputTooLarge =>
    ("input file larger than the address space", "out of range integral type conversion attempted")

/-- The layout of a run: without any file regions, the whole input lies at address zero. -/
def completeLayout (look : Lookup) (layout : Layout) (input : String) :
    Except LoadError Layout :=
  if layout.files.isEmpty then
    match look input with
    | .error cause => .error (.cannotOpen input cause)
    | .ok .directory => .ok layout
    | .ok (.file bytes) =>
      if bytes.size < 0x100000000 then
        .ok { layout with
          files := layout.files.insert { start := 0, stop := UInt32.ofNat bytes.size } }
      else .error .inputTooLarge
  else .ok layout

/-- The bytes of the input, which may not be empty. -/
def readInput (look : Lookup) (input : String) : Except LoadError (Array UInt8) :=
  match look.read input with
  | .error cause => .error (.cannotLoad input cause)
  | .ok bytes => if bytes.isEmpty then .error (.emptyInput input) else .ok bytes

/-- The report on the index of the instruction set. -/
def indexEvent : Event :=
  { severity := .debug
    text := "opcode table built descriptors=" ++ Text.decimal Index.standard.descriptors.size
      ++ " claimed=" ++ Text.decimal Index.standard.claimed }

/-- What is reported on the settings when debugging. -/
def settingsReports (settings : Settings) (layout : Layout) (image : Image) : List Event :=
  if settings.flags.debug then
    [Dump.report "layout" (.indented 0) (Dump.layout layout),
      Dump.report "symbols" .compact (Dump.symbols settings.symbols),
      Dump.report "segments" .compact (Dump.segments image)]
  else []

/-- Disassembles an input as the settings say. -/
def disassemble (look : Lookup) (settings : Settings) (input : String) :
    Except LoadError (Listing × List Event) := do
  let layout ← completeLayout look settings.layout input
  let bytes ← readInput look input
  let image := Image.ofFile bytes layout.windows
  let job : Job :=
    { memory := image.memory, layout, symbols := settings.symbols, flags := settings.flags }
  let listing := job.run
  let functions := listing.outline.map fun o => Dump.report "functions" .compact (Dump.functions o)
  return (listing, Image.warnings bytes layout.windows ++ settingsReports settings layout image
    ++ indexEvent :: listing.events job ++ functions.toList)

/-- Why there is no listing. -/
inductive Failure where
  | arguments (stop : Arguments.Stop)
  | settings (error : Settings.Error)
  | load (error : LoadError)
deriving DecidableEq, Repr

/-- A listing and the files to write it to. -/
structure Product where
  listing : Listing
  files : List (String × String)

/-- The result of a run and what is to be reported. -/
structure Result where
  product : Except Failure Product
  events : List Event

/-- A run that failed. -/
def Result.failed (failure : Failure) (events : List Event) : Result :=
  { product := .error failure, events }

/-- Runs the program with the settings that arguments lead to. -/
def runArguments (look : Lookup) (arguments : Arguments) : Result :=
  let outcome := Settings.load look arguments
  match outcome.error, outcome.settings.input with
  | some error, _ => .failed (.settings error) outcome.events
  | none, none => .failed (.settings .noInput) outcome.events
  | none, some input =>
    let settings := outcome.settings
    match disassemble look settings input with
    | .error error => .failed (.load error) outcome.events
    | .ok (listing, events) =>
      let files := ListingFile.all listing input settings.output settings.split
      { product := .ok { listing, files }, events := outcome.events ++ events }

/-- Runs the program. -/
def run (look : Lookup) (list : List String) : Result :=
  match Arguments.read list with
  | .error stop => .failed (.arguments stop) []
  | .ok arguments => runArguments look arguments

/-- What the program leaves on the console. -/
structure Console where
  code : UInt8
  stdout : String := ""
  stderr : String := ""
deriving DecidableEq, Repr

/-- Every line of a text moved in by four blanks. -/
def indented (text : String) : String :=
  "    " ++ String.ofList (text.toList.flatMap fun c =>
    if c = '\n' then ['\n', ' ', ' ', ' ', ' '] else [c])

/-- The console after an error. -/
def Console.ofError (message : String) (cause : Option String) : Console :=
  { code := 1
    stderr := "Error: " ++ message ++ "\n"
      ++ match cause with
        | some c => "\nCaused by:\n" ++ indented c ++ "\n"
        | none => "" }

/-- The console after a failure. -/
def Failure.console : Failure → Console
  | arguments .help => { code := 0, stdout := Arguments.helpText }
  | arguments .version => { code := 0, stdout := Arguments.versionText }
  | arguments .rejected =>
    { code := 2, stderr := "error: invalid arguments\n\n" ++ Arguments.usage }
  | settings (.help text) => { code := 1, stderr := text }
  | settings .noInput => { code := 1, stderr := Arguments.usage }
  | settings error => .ofError error.message (error.cause?.map FileError.message)
  | load error => .ofError error.message.1 (some error.message.2)

/-- The console after writing the files, or failing to. -/
def writtenConsole : Option FileError → Console
  | none => { code := 0 }
  | some error => .ofError error.message none

/-- Runs the program in a working directory held in memory. -/
def execute (files : FileSet) (list : List String) : Console × FileSet :=
  match (run files.look list).product with
  | .error failure => (failure.console, files)
  | .ok product =>
    let (after, error) := files.writeAll product.files
    (writtenConsole error, after)

end Program

end Disassembly
