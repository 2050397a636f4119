import Disassembly.Symbols
import Disassembly.OutputFlags
import Disassembly.Text.Digits

/-!
# Text conventions of a listing

A `Style` fixes how numbers, registers and addresses are spelled and how one line is laid out: an
optional column with the words of the record, the mnemonic, the operands from the ninth column on,
and a comment. An address with a declared name is written as that name, with the number as comment.
-/

namespace Disassembly

/-- How the parts of a listing line are written. -/
structure Style where
  /-- `$` instead of `0x` before hexadecimal numbers. -/
  dollar : Bool := false
  /-- `AC`, `FP` and `SP` for the registers 13, 14 and 15. -/
  aliases : Bool := false
  /-- A column with the words of the record. -/
  rawWords : Bool := false
deriving DecidableEq, Repr

/-- The style that the output flags ask for. -/
def OutputFlags.style (flags : OutputFlags) : Style :=
  { dollar := flags.dollar, aliases := flags.aliases, rawWords := flags.rawWords }

namespace Style

/-- What stands before a hexadecimal number. -/
def radixMark (style : Style) : String :=
  if style.dollar then "$" else "0x"

/-- A number with the digits it needs. -/
def number (style : Style) (n : Nat) : String :=
  style.radixMark ++ Text.hex n

/-- A number with at least `width` digits. -/
def numberWide (style : Style) (width n : Nat) : String :=
  style.radixMark ++ Text.hexPadded width n

/-- A signed number, the sign before the radix mark. -/
def signed (style : Style) (i : Int) : String :=
  if i < 0 then "-" ++ style.number i.natAbs else style.number i.toNat

/-- A general register. -/
def register (style : Style) (r : Nat) : String :=
  match style.aliases, r with
  | true, 13 => "AC"
  | true, 14 => "FP"
  | true, 15 => "SP"
  | _, r => "R" ++ Text.decimal r

/-- The dedicated registers that have a name, in the order of their numbers. -/
def specialNames : List String :=
  ["TBR", "RP", "SSP", "USP", "MDH", "MDL"]

/-- A dedicated register. -/
def special (r : Nat) : String :=
  (specialNames[r]?).getD ("RS" ++ Text.decimal r)

/-- An address, and the comment that goes with it: a declared name, with the number as comment, or
the number alone. -/
def address (style : Style) (symbols : Symbols) (a : UInt32) : String × Option String :=
  let plain := style.numberWide 8 a.toNat
  match symbols[a]? with
  | some name => (name, some plain)
  | none => (plain, none)

/-- The registers of a bit map in parentheses, from the lowest bit up. Bit `b` stands for register
`b`, or `7 - b` when the order is reversed, plus eight in the high half. -/
def registerList (style : Style) (bits : Nat) (high reversed : Bool) : String :=
  let base := if high then 8 else 0
  let chosen := (List.range 8).filter fun b => bits.testBit b
  let names := chosen.map fun b => style.register (base + if reversed then 7 - b else b)
  "(" ++ String.intercalate ", " names ++ ")"

/-- The column with the words of a record: the first three, filled to fifteen characters. -/
def wordColumn (words : List UInt16) : List Char :=
  ((words.take 3).flatMap fun w => (Text.hexPadded 4 w.toNat).toList ++ [' ']).rightpad 15 ' '

/-- One line of a listing, without the address column. -/
def line (style : Style) (words : List UInt16) (mnemonic operands : String)
    (comment : Option String) : String :=
  let column := if style.rawWords then String.ofList (wordColumn words) else ""
  let body :=
    if operands = "" then mnemonic
    else String.ofList (mnemonic.toList.rightpad 8 ' ') ++ operands
  let tail :=
    match comment with
    | some c => "  ; " ++ c
    | none => ""
  column ++ body ++ tail

example : ({} : Style).signed (-16) = "-0x10" := by decide
example : ({} : Style).registerList 0b101 false false = "(R0, R2)" := by decide
example : ({} : Style).registerList 1 true true = "(R15)" := by decide
example : ({ rawWords := true } : Style).line [0x9720] "RET" "" none = "9720           RET" := by
  decide
example : ({} : Style).line [0x8B01] "MOV" "R0, R1" (some "x") = "MOV     R0, R1  ; x" := by decide

end Style

end Disassembly
