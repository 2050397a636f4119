import Disassembly.Expression.Basic
import Disassembly.Text.Blank

/-!
# Numbers in expressions

A number is decimal, or hexadecimal after `0x`, with an optional `+` before the digits and an
optional `K` or `M` after them that multiplies it by 1024 or 1024². Blanks around it do not count.
The digits have to denote a 32-bit number, and so does the product.
-/

namespace Disassembly.Expression

/-- The value of a digit in bases up to sixteen. -/
def digitValue? (base : Nat) (c : Char) : Option Nat :=
  let value :=
    if '0' ≤ c ∧ c ≤ '9' then c.toNat - '0'.toNat
    else if 'a' ≤ c ∧ c ≤ 'f' then c.toNat - 'a'.toNat + 10
    else if 'A' ≤ c ∧ c ≤ 'F' then c.toNat - 'A'.toNat + 10
    else base
  if value < base then some value else none

/-- The number that a run of digits denotes, the digits before it denoting `acc`. -/
def digitsValue? (base : Nat) (acc : Nat) : List Char → Option Nat
  | [] => some acc
  | c :: cs =>
    match digitValue? base c with
    | some v => digitsValue? base (acc * base + v) cs
    | none => none

/-- The text without one leading `+`. -/
def dropPlus : List Char → List Char
  | '+' :: cs => cs
  | cs => cs

/-- The number denoted by one or more digits, after an optional `+`. -/
def natural? (base : Nat) (cs : List Char) : Option Nat :=
  match dropPlus cs with
  | [] => none
  | digits => digitsValue? base 0 digits

/-- The number before its scale is applied: hexadecimal after `0x` or `0X`, else decimal. -/
def unscaled? : List Char → Option Nat
  | '0' :: 'x' :: cs => natural? 16 cs
  | '0' :: 'X' :: cs => natural? 16 cs
  | cs => natural? 10 cs

/-- The text without its scale letter, and the scale. -/
def splitScale (cs : List Char) : List Char × Nat :=
  match cs.getLast? with
  | some 'K' | some 'k' => (cs.dropLast, 1024)
  | some 'M' | some 'm' => (cs.dropLast, 1024 * 1024)
  | _ => (cs, 1)

/-- The value of a number, or why it has none. -/
def numeral (token : List Char) : Except Reason UInt32 :=
  let (digits, scale) := splitScale (Text.trim token)
  match unscaled? digits with
  | none => .error .malformedNumber
  | some v =>
    if 0x100000000 ≤ v then .error .malformedNumber
    else if 0x100000000 ≤ v * scale then .error .numberOutOfRange
    else .ok (UInt32.ofNat (v * scale))

/-- The value of a number in the value of an option. -/
def number (option : Char) (token : List Char) : Except Rejection UInt32 :=
  match numeral token with
  | .ok n => .ok n
  | .error reason => reject option token reason

example : (numeral "0x2M".toList).toOption = some 0x200000 := by decide
example : (numeral " +7k ".toList).toOption = some 7168 := by decide
example : (numeral "4096M".toList).toOption = none := by decide

end Disassembly.Expression
