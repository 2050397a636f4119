import Disassembly.Text.Pieces

/-!
# Files

The program sees the file system through a `Lookup`: what lies at a path, or why nothing can be had
there. A `FileSet` is a working directory held in memory, with files under their components and the
directories that these need; it answers lookups and takes new files.
-/

namespace Disassembly

/-- Why a file cannot be read or written. -/
inductive FileError where
  | notFound
  | isDirectory
  | notDirectory
  /-- A component of the path, or the whole path, is longer than the system allows. -/
  | nameTooLong
  /-- The path holds the character zero, which no file name can hold. -/
  | zeroInName
  /-- The file is not text in UTF-8. -/
  | notText
  /-- Any other failure, in the words of the system. -/
  | other (text : String)
deriving DecidableEq, Repr

/-- The wording of a file error. -/
def FileError.message : FileError → String
  | notFound => "No such file or directory (os error 2)"
  | isDirectory => "Is a directory (os error 21)"
  | notDirectory => "Not a directory (os error 20)"
  | nameTooLong => "File name too long (os error 36)"
  | zeroInName => "file name contained an unexpected NUL byte"
  | notText => "stream did not contain valid UTF-8"
  | other text => text

/-- What lies at a path. -/
inductive Entry where
  | file (bytes : Array UInt8)
  | directory
deriving DecidableEq, Repr

/-- The file system as the program sees it. -/
abbrev Lookup := String → Except FileError Entry

namespace Lookup

/-- The bytes of a file. -/
def read (look : Lookup) (path : String) : Except FileError (Array UInt8) := do
  match ← look path with
  | .file bytes => return bytes
  | .directory => throw .isDirectory

/-- The text of a file. -/
def readText (look : Lookup) (path : String) : Except FileError String := do
  let bytes ← look.read path
  match String.fromUTF8? ⟨bytes⟩ with
  | some text => return text
  | none => throw .notText

/-- Whether a file, and not a directory, lies at a path. -/
def isFile (look : Lookup) (path : String) : Bool :=
  match look path with
  | .ok (.file _) => true
  | _ => false

end Lookup

/-- A working directory in memory: files under their components. -/
structure FileSet where
  files : List (List String × Array UInt8) := []
deriving Repr

namespace FileSet

/-- A place that a path leads to. -/
inductive Place where
  | directory
  | file (name : List String) (bytes : Array UInt8)
  /-- A free name in an existing directory. -/
  | vacant (name : List String)
deriving Repr

/-- The pieces of a path between slashes. -/
def components (path : String) : List String :=
  (Text.pieces '/' path.toList).map String.ofList

/-- The file with the given components. -/
def file? (set : FileSet) (name : List String) : Option (Array UInt8) :=
  (set.files.find? fun f => f.1 = name).map Prod.snd

/-- Whether some file lies below the given components. -/
def isDirectory (set : FileSet) (name : List String) : Bool :=
  set.files.any fun f => name.isPrefixOf f.1 && decide (name.length < f.1.length)

/-- The bytes that a component may have. -/
def maxComponent : Nat := 255

/-- The bytes that a path may have. -/
def maxPath : Nat := 4095

/-- Whether a component is too long for any file or directory. -/
def isTooLong (component : String) : Bool :=
  maxComponent < component.utf8ByteSize

/-- Refuses a path that can lead nowhere, whatever files there are. -/
def checkPath (path : String) : Except FileError Unit :=
  if '\x00' ∈ path.toList then .error .zeroInName
  else if path = "" then .error .notFound
  else if maxPath < path.utf8ByteSize then .error .nameTooLong
  else .ok ()

/-- Follows components from a directory that is not the working directory or below it. Nothing is
known there but that directories lie above. -/
def followOutside : List String → Except FileError Place
  | [] => .ok .directory
  | c :: cs =>
    if c = "" ∨ c = "." ∨ c = ".." then followOutside cs
    else if isTooLong c then .error .nameTooLong
    else .error .notFound

/-- Follows components from the working directory or one below it. -/
def follow (set : FileSet) (here : List String) : List String → Except FileError Place
  | [] => .ok .directory
  | c :: cs =>
    if c = "" ∨ c = "." then follow set here cs
    else if c = ".." then
      if here = [] then followOutside cs else follow set here.dropLast cs
    else if isTooLong c then .error .nameTooLong
    else
      let next := here ++ [c]
      if set.isDirectory next then follow set next cs
      else
        match set.file? next with
        | some bytes => if cs = [] then .ok (.file next bytes) else .error .notDirectory
        | none => if cs = [] then .ok (.vacant next) else .error .notFound

/-- The place that the components of a path lead to. -/
def resolve (set : FileSet) : List String → Except FileError Place
  | "" :: cs => followOutside cs
  | cs => set.follow [] cs

/-- What lies at a path. -/
def look (set : FileSet) : Lookup := fun path => do
  checkPath path
  match ← set.resolve (components path) with
  | .directory => return .directory
  | .file _ bytes => return .file bytes
  | .vacant _ => throw .notFound

/-- The set with a file in place of any other of that name. -/
def insert (set : FileSet) (name : List String) (bytes : Array UInt8) : FileSet :=
  { files := set.files.filter (fun f => f.1 ≠ name) ++ [(name, bytes)] }

/-- The components of a path to write to. A path that ends with a slash can only be a directory, so
its last name is not looked up: the directory that would hold it stands for it. -/
def targetComponents (path : String) : List String :=
  let cs := components path
  if cs.getLast? = some "" then ((cs.reverse.dropWhile (· = "")).drop 1).reverse ++ ["."] else cs

/-- Writes a text to a path. -/
def write (set : FileSet) (path text : String) : Except FileError FileSet := do
  checkPath path
  match ← set.resolve (targetComponents path) with
  | .directory => throw .isDirectory
  | .file name _ | .vacant name => return set.insert name text.toUTF8.data

/-- Writes texts to paths in order, up to the first that fails. -/
def writeAll (set : FileSet) : List (String × String) → FileSet × Option FileError
  | [] => (set, none)
  | (path, text) :: rest =>
    match set.write path text with
    | .ok set => set.writeAll rest
    | .error e => (set, some e)

/-- The files that are new or differ from those of an earlier set, under their paths. -/
def changes (before after : FileSet) : List (String × Array UInt8) :=
  (after.files.filter fun f => before.file? f.1 ≠ some f.2).map fun f =>
    (String.intercalate "/" f.1, f.2)

/-- The set of files under the given paths. -/
def ofList (files : List (String × Array UInt8)) : FileSet :=
  { files := files.map fun f =>
      ((components f.1).filter fun c => c ≠ "" ∧ c ≠ ".", f.2) }

end FileSet

end Disassembly
