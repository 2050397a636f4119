import Disassembly.Text.Pieces

/-!
# Paths

The parts of a path that file names are made from. The components of a path are the pieces between
slashes; repeated and trailing slashes and `.` components do not count, except a `.` at the very
beginning. A path has a file name unless its last component is `..` or it has none.
-/

namespace Disassembly.Path

/-- What a path begins with. -/
inductive Lead where
  /-- A slash: the path is absolute. -/
  | root
  /-- A `.` component. -/
  | here
  /-- Neither. -/
  | plain
deriving DecidableEq, Repr

/-- The beginning of a path and the pieces after it. -/
def split (path : List Char) : Lead × List (List Char) :=
  match Text.pieces '/' path with
  | [] :: p :: ps => (.root, p :: ps)
  | ['.'] :: ps => (.here, ps)
  | ps => (.plain, ps)

/-- The text of a path with a given beginning and given pieces. -/
def assemble (lead : Lead) (pieces : List (List Char)) : List Char :=
  match lead with
  | .root => '/' :: Text.joinPieces '/' pieces
  | .here => '.' :: pieces.flatMap ('/' :: ·)
  | .plain => Text.joinPieces '/' pieces

/-- Whether a piece does not count as a component. -/
def isIdle (piece : List Char) : Bool :=
  piece = [] || piece = ['.']

/-- The pieces up to the last one that counts. -/
def dropIdle (pieces : List (List Char)) : List (List Char) :=
  (pieces.reverse.dropWhile isIdle).reverse

/-- The last component, unless it is `..`. -/
def fileName? (path : List Char) : Option (List Char) :=
  ((dropIdle (split path).2).getLast?).filter (· ≠ ['.', '.'])

/-- The path without its last component. -/
def parent (path : List Char) : List Char :=
  let (lead, pieces) := split path
  assemble lead (dropIdle (dropIdle pieces).dropLast)

/-- A file name up to its last dot; the whole name when it has no dot but at its start. -/
def stem (name : List Char) : List Char :=
  match name.reverse.dropWhile (· ≠ '.') with
  | [] => name
  | _ :: before => if before = [] then name else before.reverse

/-- A path extended by one component. -/
def push (path name : List Char) : List Char :=
  match path.getLast? with
  | none => name
  | some '/' => path ++ name
  | some _ => path ++ '/' :: name

/-- The path with another file name in place of its own, or added when it has none. -/
def withFileName (path name : List Char) : List Char :=
  match fileName? path with
  | some _ => push (parent path) name
  | none => push path name

end Disassembly.Path
