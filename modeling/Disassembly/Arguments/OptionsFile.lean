import Disassembly.Text.Blank
import Disassembly.Text.Pieces

/-!
# Options files

An options file holds arguments, one option on each line. Blank lines and lines that begin with `#`
are left out. A line of the form `-X argument` stands for two arguments and any other line for one;
the blanks around a line and between the option and its argument do not count.
-/

namespace Disassembly.Arguments

/-- The arguments that one line stands for. -/
def lineTokens (line : List Char) : List (List Char) :=
  match Text.trim line with
  | [] => []
  | '#' :: _ => []
  | '-' :: c :: blank :: rest =>
    if c ≠ '-' ∧ Text.isBlank blank then [['-', c], Text.trim rest]
    else ['-' :: c :: blank :: rest]
  | line => [line]

/-- The arguments in the text of an options file. -/
def tokens (text : List Char) : List (List Char) :=
  (Text.pieces '\n' text).flatMap lineTokens

/-- The argument list in the text of an options file. -/
def ofFileText (text : String) : List String :=
  (tokens text.toList).map String.ofList

end Disassembly.Arguments
