/-!
# Bytes inside quotes

A string found in the image is shown between double quotes. `escapeByte` gives each byte one
spelling in printable ASCII: itself when it is printable and no quote or backslash, a two-character
escape for the common controls, and `\x` with two lower-case hexadecimal digits for the rest.
-/

namespace Disassembly.Text

/-- The spelling of one byte of a quoted string. -/
def escapeByte (b : UInt8) : List Char :=
  if b = 0x09 then ['\\', 't']
  else if b = 0x0A then ['\\', 'n']
  else if b = 0x0D then ['\\', 'r']
  else if b = 0x22 || b = 0x27 || b = 0x5C then ['\\', Char.ofNat b.toNat]
  else if 0x20 ≤ b && b < 0x7F then [Char.ofNat b.toNat]
  else ['\\', 'x', Nat.digitChar (b.toNat / 16), Nat.digitChar (b.toNat % 16)]

/-- The spelling of a run of bytes, one after the other. -/
def escapeBytes (bs : List UInt8) : List Char :=
  bs.flatMap escapeByte

example :
    String.ofList (escapeBytes [0x41, 0x22, 0x09, 0xFF, 0x00]) = "A\\\"\\t\\xff\\x00" := by
  decide

end Disassembly.Text
