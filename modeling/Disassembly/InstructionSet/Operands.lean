import Disassembly.InstructionSet.Descriptor
import Disassembly.Style
import Disassembly.Word

/-!
# Operands

The fields of an instruction, taken out of its words as the operand layout says, and their written
form. A branch displacement counts half-words from the address after the first word, and wraps
around at either end of the address space.
-/

namespace Disassembly

/-- The operand fields of one instruction. -/
structure Operands where
  /-- Bits 3 … 0 of the first word. -/
  i : Nat
  /-- Bits 7 … 4 of the first word. -/
  j : Nat
  /-- The immediate value or displacement. -/
  immediate : Int
  /-- The direct target of a branch or call. -/
  target : Option UInt32
deriving DecidableEq, Repr

namespace Operands

/-- The address `displacement` half-words after the word that follows `pc`. -/
def relative (pc : UInt32) (displacement : Int) : UInt32 :=
  pc + 2 + Word.ofSigned (displacement * 2)

/-- The immediate value that a layout reads from the words of an instruction. -/
def immediateOf (shape : Shape) (first second third : UInt16) : Int :=
  let w := first.toUInt32
  let nibble := (w >>> 4) &&& 0xF
  let middle := (w >>> 4) &&& 0xFF
  let low := w &&& 0xFF
  match shape with
  | .nibble | .nibbleAt => nibble.toNat
  | .negativeNibble => Word.onesField 4 nibble
  | .longShift => nibble.toNat + 16
  | .immediate8 => middle.toNat
  | .immediate20 => (nibble <<< 16 ||| second.toUInt32).toNat
  | .immediate32 => Word.toSigned (Word.ofHalves second third)
  | .loadFrame scale | .storeFrame scale => Word.signedField 8 middle * scale
  | .loadStack | .storeStack => nibble.toNat * 4
  | .byte | .conditionCodes | .registerList _ _ => low.toNat
  | .frameSize => low.toNat * 4
  | .stackAdjust => Word.signedField 8 low * 4
  | .loadDirect scale | .storeDirect scale => low.toNat * scale
  | _ => 0

/-- The direct target that a layout reads from the first word of an instruction at `pc`. -/
def targetOf (shape : Shape) (pc : UInt32) (first : UInt16) : Option UInt32 :=
  match shape with
  | .nearTarget => some (relative pc (Word.signedField 8 first.toUInt32))
  | .farTarget => some (relative pc (Word.signedField 11 first.toUInt32))
  | _ => none

/-- The operand fields of an instruction at `pc`. -/
def ofWords (shape : Shape) (pc : UInt32) (words : List UInt16) : Operands :=
  let first := words.getD 0 0
  { i := (first &&& 0xF).toNat
    j := ((first >>> 4) &&& 0xF).toNat
    immediate := immediateOf shape first (words.getD 1 0) (words.getD 2 0)
    target := targetOf shape pc first }

/-- The written operands, and the comment that goes with them. -/
def text (style : Style) (symbols : Symbols) (shape : Shape) (words : List UInt16)
    (operands : Operands) : String × Option String :=
  let ri := style.register operands.i
  let rj := style.register operands.j
  let r13 := style.register 13
  let r14 := style.register 14
  let r15 := style.register 15
  let signed := style.signed operands.immediate
  let plain := style.number (Word.ofSigned operands.immediate).toNat
  match shape with
  | .implied => ("", none)
  | .rawWord => (style.numberWide 4 (words.getD 0 0).toNat, none)
  | .registers => (rj ++ ", " ++ ri, none)
  | .nibble | .negativeNibble | .longShift | .immediate8 => ("#" ++ signed ++ ", " ++ ri, none)
  | .nibbleAt => ("#" ++ plain ++ ", @" ++ ri, none)
  | .immediate20 | .immediate32 =>
    let (value, comment) := style.address symbols (Word.ofSigned operands.immediate)
    ("#" ++ value ++ ", " ++ ri, comment)
  | .load => ("@" ++ rj ++ ", " ++ ri, none)
  | .store => (ri ++ ", @" ++ rj, none)
  | .modify => (rj ++ ", @" ++ ri, none)
  | .loadIndexed => ("@(" ++ r13 ++ ", " ++ rj ++ "), " ++ ri, none)
  | .storeIndexed => (ri ++ ", @(" ++ r13 ++ ", " ++ rj ++ ")", none)
  | .loadFrame _ => ("@(" ++ r14 ++ ", " ++ signed ++ "), " ++ ri, none)
  | .storeFrame _ => (ri ++ ", @(" ++ r14 ++ ", " ++ signed ++ ")", none)
  | .loadStack => ("@(" ++ r15 ++ ", " ++ plain ++ "), " ++ ri, none)
  | .storeStack => (ri ++ ", @(" ++ r15 ++ ", " ++ plain ++ ")", none)
  | .register => (ri, none)
  | .atRegister => ("@" ++ ri, none)
  | .pop => ("@" ++ r15 ++ "+, " ++ ri, none)
  | .push => (ri ++ ", @-" ++ r15, none)
  | .popSpecial => ("@" ++ r15 ++ "+, " ++ Style.special operands.i, none)
  | .pushSpecial => (Style.special operands.i ++ ", @-" ++ r15, none)
  | .popStatus => ("@" ++ r15 ++ "+, PS", none)
  | .pushStatus => ("PS, @-" ++ r15, none)
  | .fromSpecial => (Style.special operands.j ++ ", " ++ ri, none)
  | .toSpecial => (ri ++ ", " ++ Style.special operands.j, none)
  | .fromStatus => ("PS, " ++ ri, none)
  | .toStatus => (ri ++ ", PS", none)
  | .byte | .conditionCodes | .frameSize => ("#" ++ plain, none)
  | .stackAdjust => ("#" ++ signed, none)
  | .loadDirect _ => ("@" ++ plain ++ ", " ++ r13, none)
  | .storeDirect _ => (r13 ++ ", @" ++ plain, none)
  | .nearTarget | .farTarget => style.address symbols (operands.target.getD 0)
  | .registerList high reversed =>
    (style.registerList (Word.ofSigned operands.immediate).toNat high reversed, none)

end Operands

end Disassembly
