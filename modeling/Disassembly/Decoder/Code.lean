import Disassembly.Decoder.Basic
import Disassembly.InstructionSet.Operands
import Disassembly.Record

/-!
# Decoding instructions

The first word selects the descriptor, the descriptor says how many words follow, and the operands
are read from all of them.
-/

namespace Disassembly

/-- The transfer of control of an instruction with the given direct target. -/
def Descriptor.flow (d : Descriptor) (target : Option UInt32) : Option Flow :=
  let transfer kind unconditional := some { kind, target, unconditional, delayed := d.delayed }
  match d.control with
  | .onward => none
  | .branch => transfer .branch false
  | .jump => transfer .branch true
  | .call => transfer .call false
  | .ret => transfer .ret true

namespace Decoder

/-- The descriptor of a first word, that of an unknown word when none claims it. -/
def descriptor (decoder : Decoder) (first : UInt16) : Descriptor :=
  (decoder.find first).getD .unknown

/-- The record of an instruction at `pc` with the given words. -/
def instruction (decoder : Decoder) (d : Descriptor) (pc : UInt32) (words : List UInt16) :
    Record :=
  let operands := Operands.ofWords d.shape pc words
  let (text, comment) := operands.text decoder.style decoder.symbols d.shape words
  { address := pc
    words := words
    size := 2 * d.units
    text := decoder.style.line words d.mnemonic text comment
    isCode := true
    flow := d.flow operands.target }

/-- The instruction at `pc`. -/
def code (decoder : Decoder) (memory : Memory) (pc : UInt32) : Except DecodeError Record := do
  let first ← memory.fetch pc
  let d := decoder.descriptor first
  let rest ← memory.fetchMany d.extensions (pc + 2)
  return decoder.instruction d pc (first :: rest)

end Decoder

end Disassembly
