import Disassembly.Program

/-!
# The command line

Fetches the files that the arguments name, runs the program on them, shows its events and writes
the files that it gives. What happens in between is decided by `Program.run`.
-/

namespace Disassembly.CommandLine

/-- What the system says about a failure, with its code as a positive or negative number. -/
def fileError : IO.Error → FileError
  | .noFileOrDirectory _ _ _ => .notFound
  | .inappropriateType _ code _ =>
    if code = 20 ∨ code = 0 - 20 then .notDirectory else .isDirectory
  | .invalidArgument _ code _ =>
    if code = 36 ∨ code = 0 - 36 then .nameTooLong else .other "Invalid argument (os error 22)"
  | .permissionDenied _ _ _ => .other "Permission denied (os error 13)"
  | e => .other (toString e)

/-- What lies at a path. -/
def fetch (path : String) : IO (Except FileError Entry) := do
  match FileSet.checkPath path with
  | .error e => return .error e
  | .ok _ =>
    try
      let bytes ← IO.FS.readBinFile path
      return .ok (.file bytes.data)
    catch e =>
      match fileError e with
      | .isDirectory => return .ok .directory
      | e => return .error e

/-- Files fetched so far, under their paths. -/
abbrev Fetched := List (String × Except FileError Entry)

/-- What is known about a path. -/
def Fetched.look (fetched : Fetched) : Lookup := fun path =>
  (fetched.lookup path).getD (.error .notFound)

/-- Fetches a file that is not yet known. -/
def Fetched.add (fetched : Fetched) (path : String) : IO Fetched := do
  if (fetched.lookup path).isSome then return fetched
  return (path, ← fetch path) :: fetched

/-- Fetches options files, and every file that they name; those already `seen` are left out. -/
partial def gather (seen : List String) (fetched : Fetched) : List String → IO Fetched
  | [] => return fetched
  | path :: paths => do
    if seen.contains path then gather seen fetched paths
    else
      let fetched ← fetched.add path
      match Settings.loadArguments fetched.look path with
      | .error _ => gather (path :: seen) fetched paths
      | .ok arguments =>
        let fetched ← arguments.inputs.foldlM Fetched.add fetched
        gather (path :: seen) fetched (arguments.optionsFiles ++ paths)

/-- Shows the events at least as grave as a level. -/
def showEvents (level : Severity) (events : List Event) : IO Unit :=
  (Event.linesAt level events).forM IO.eprintln

/-- Writes files in order, up to the first that fails. -/
def writeFiles (level : Severity) : List (String × String) → IO (Option FileError)
  | [] => return none
  | (path, text) :: files => do
    match FileSet.checkPath path with
    | .error e => return some e
    | .ok _ =>
      try IO.FS.writeFile path text catch e => return some (fileError e)
      showEvents level [{ severity := .info, text := "wrote " ++ path }]
      writeFiles level files

/-- Shows what the program leaves on the console. -/
def finish (console : Program.Console) : IO UInt32 := do
  IO.print console.stdout
  IO.eprint console.stderr
  return console.code.toUInt32

/-- Runs the program on arguments that have been read. -/
def run (arguments : Arguments) : IO UInt32 := do
  let level : Severity := if arguments.has .debug then .debug else .info
  let fetched ← arguments.inputs.foldlM Fetched.add []
  let fetched ← gather [] fetched (Settings.defaultFile :: arguments.optionsFiles)
  let result := Program.runArguments fetched.look arguments
  showEvents level result.events
  match result.product with
  | .error failure => finish failure.console
  | .ok product => finish (Program.writtenConsole (← writeFiles level product.files))

end Disassembly.CommandLine

/-- Reads the arguments and runs the program. -/
def main (list : List String) : IO UInt32 :=
  match Disassembly.Arguments.read list with
  | .error stop =>
    Disassembly.CommandLine.finish (Disassembly.Program.Failure.arguments stop).console
  | .ok arguments => Disassembly.CommandLine.run arguments
