/-!
# Numbers as text

Addresses, words and bytes are written in hexadecimal with upper-case digits, either with as many
digits as they need or filled with zeros on the left to a fixed width. Error and log texts write
addresses in lower case with all eight digits.
-/

namespace Disassembly.Text

/-- The hexadecimal digits of a number, upper case, no leading zeros; `0` for zero. -/
def hexDigits (n : Nat) : List Char :=
  (Nat.toDigits 16 n).map Char.toUpper

/-- A number in upper-case hexadecimal. -/
def hex (n : Nat) : String :=
  String.ofList (hexDigits n)

/-- A number in upper-case hexadecimal with at least `width` digits. -/
def hexPadded (width n : Nat) : String :=
  String.ofList ((hexDigits n).leftpad width '0')

/-- An address as error and log texts write it: `0x` and eight lower-case digits. -/
def lowerAddress (a : UInt32) : String :=
  "0x" ++ String.ofList ((Nat.toDigits 16 a.toNat).leftpad 8 '0')

/-- An address as headings write it: `0x` and eight upper-case digits. -/
def upperAddress (a : UInt32) : String :=
  "0x" ++ hexPadded 8 a.toNat

/-- A number in decimal. -/
def decimal (n : Nat) : String :=
  String.ofList (Nat.toDigits 10 n)

example : hex 0x1F = "1F" := by decide
example : hexPadded 8 0x40000 = "00040000" := by decide
example : lowerAddress 0xBEEF = "0x0000beef" := by decide

end Disassembly.Text
