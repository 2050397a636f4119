import Disassembly.Expression.Numeral
import Disassembly.Region

/-!
# Ranges, contents and symbols

The values of the options that fill a layout: `start-end` or `start,length`, alone or assigned a
content or a file offset, and an address assigned a name. A vector table is given by its address
alone and stands for a range of `0x400` bytes of interrupt vectors.
-/

namespace Disassembly.Expression

/-- A range: two numbers with `-` or `,` between them, the second one an end or a length. -/
def region (option : Char) (token : List Char) : Except Rejection Region :=
  let left := token.takeWhile fun c => c ≠ '-' ∧ c ≠ ','
  match token.dropWhile fun c => c ≠ '-' ∧ c ≠ ',' with
  | [] => reject option token .notARange
  | separator :: right => do
    let start ← number option left
    let second ← number option right
    let stop := if separator = ',' then start.toNat + second.toNat else second.toNat
    if 0x100000000 ≤ stop then reject option token .pastAddressSpace
    else if stop < start.toNat then reject option token .endsBeforeStart
    else return { start, stop := UInt32.ofNat stop }

/-- The kinds that the width of a data content stands for. -/
def kinds : List Char → Except Reason (List DataKind)
  | [] => .error .missingWidth
  | ['4'] => .ok [.long]
  | ['2'] => .ok [.word]
  | ['1'] => .ok [.bytes]
  | letters =>
    match letters.mapM DataKind.ofLetter? with
    | some kinds => .ok kinds
    | none => .error .unknownWidth

/-- The text without `:V` at its end, and whether it was there. -/
def splitVector (cs : List Char) : List Char × Bool :=
  match cs.reverse with
  | 'V' :: ':' :: r => (r.reverse, true)
  | _ => (cs, false)

/-- What stands after `DATA`: nothing or a width, and then possibly `:V`, which makes every entry
an interrupt vector. -/
def dataContent (cs : List Char) : Except Reason Content :=
  let (width, vector) := splitVector cs
  let read : Except Reason (List DataKind) :=
    match width with
    | [] => .ok [.long]
    | '/' :: letters => kinds letters
    | _ => .error .unknownContent
  read.map fun ks => .data (if vector then [.vector] else ks)

/-- A content, in upper or lower case. -/
def contentName (token : List Char) : Except Reason Content :=
  match (Text.trim token).map Char.toUpper with
  | ['C', 'O', 'D', 'E'] => .ok .code
  | 'D' :: 'A' :: 'T' :: 'A' :: rest => dataContent rest
  | _ => .error .unknownContent

/-- The content in the value of an option. -/
def content (option : Char) (token : List Char) : Except Rejection Content :=
  match contentName token with
  | .ok c => .ok c
  | .error reason => reject option token reason

/-- The two sides of an assignment, split at the first `=`; neither may be blank. -/
def assignment (option : Char) (token : List Char) :
    Except Rejection (List Char × List Char) :=
  match token.dropWhile (· ≠ '=') with
  | [] => reject option token .notAnAssignment
  | _ :: rest =>
    let left := Text.trim (token.takeWhile (· ≠ '='))
    let right := Text.trim rest
    if left = [] ∨ right = [] then reject option token .notAnAssignment else .ok (left, right)

/-- A range assigned a content. -/
def typedRegion (option : Char) (token : List Char) : Except Rejection Region := do
  let (left, right) ← assignment option token
  let r ← region option left
  let c ← content option right
  return { r with content := c }

/-- A range assigned a file offset. -/
def placedRegion (option : Char) (token : List Char) : Except Rejection Region := do
  let (left, right) ← assignment option token
  let r ← region option left
  let n ← number option right
  return { r with fileOffset := n }

/-- An address assigned a name. -/
def symbol (option : Char) (token : List Char) : Except Rejection (UInt32 × String) := do
  let (left, right) ← assignment option token
  if right.any Text.isBlank then reject option token .blankInName
  else
    let a ← number option left
    return (a, String.ofList right)

/-- What an address is completed with to declare a vector table. -/
def vectorTableSuffix : List Char :=
  [',', '0', 'x', '4', '0', '0', '=', 'D', 'A', 'T', 'A', ':', 'V']

/-- A vector table, given by its address. -/
def vectorTable (option : Char) (token : List Char) : Except Rejection Region :=
  typedRegion option (Text.trim token ++ vectorTableSuffix)

/-- The help text on contents. -/
def contentHelp : String :=
  "Memory types (-m range=type):\n"
    ++ "  CODE        instructions\n"
    ++ "  DATA        32-bit values (same as DATA/L)\n"
    ++ "  DATA/w      one record per pass over w, a sequence of:\n"
    ++ "                L  32-bit value      W  16-bit value\n"
    ++ "                B  pair of bytes     S  NUL-terminated string\n"
    ++ "              or a single width in bytes: 4, 2 or 1\n"
    ++ "  DATA:V      interrupt vector table entries\n"

end Disassembly.Expression
