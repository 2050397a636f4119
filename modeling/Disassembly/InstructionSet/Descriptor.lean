/-!
# Instruction descriptors

An instruction is one 16-bit word followed by up to two extension words. A `Descriptor` says which
first words it claims (those that equal `encoding` on the bits of `mask`), how the operands lie in
the words (`Shape`), and what happens to the flow of control (`Control`).

In a first word, the field `i` is bits 3 … 0 and the field `j` bits 7 … 4.
-/

namespace Disassembly

/-- The operand layout of an instruction. The comments show the written form. -/
inductive Shape where
  /-- No operands. -/
  | implied
  /-- The word itself, for words that are no instruction. -/
  | rawWord
  /-- `Rj, Ri` -/
  | registers
  /-- `#u4, Ri` -/
  | nibble
  /-- `#-n, Ri`: a four-bit field filled with ones. -/
  | negativeNibble
  /-- `#n, Ri`: a shift by 16 … 31. -/
  | longShift
  /-- `#u4, @Ri`: an operation on bits in memory. -/
  | nibbleAt
  /-- `#u8, Ri`: a byte in bits 11 … 4. -/
  | immediate8
  /-- `#u20, Ri`: the field `j` above one extension word. -/
  | immediate20
  /-- `#u32, Ri`: two extension words. -/
  | immediate32
  /-- `@Rj, Ri` -/
  | load
  /-- `Ri, @Rj` -/
  | store
  /-- `@(R13, Rj), Ri` -/
  | loadIndexed
  /-- `Ri, @(R13, Rj)` -/
  | storeIndexed
  /-- `Rj, @Ri`: read, modify, write. -/
  | modify
  /-- `@(R14, disp), Ri`: a signed byte in bits 11 … 4, times the scale. -/
  | loadFrame (scale : Nat)
  /-- `Ri, @(R14, disp)` -/
  | storeFrame (scale : Nat)
  /-- `@(R15, disp), Ri`: the field `j` times four. -/
  | loadStack
  /-- `Ri, @(R15, disp)` -/
  | storeStack
  /-- `Ri` -/
  | register
  /-- `@Ri` -/
  | atRegister
  /-- `@R15+, Ri` -/
  | pop
  /-- `Ri, @-R15` -/
  | push
  /-- `@R15+, Rs`: the dedicated register in field `i`. -/
  | popSpecial
  /-- `Rs, @-R15` -/
  | pushSpecial
  /-- `@R15+, PS` -/
  | popStatus
  /-- `PS, @-R15` -/
  | pushStatus
  /-- `Rs, Ri`: the dedicated register in field `j`. -/
  | fromSpecial
  /-- `Ri, Rs` -/
  | toSpecial
  /-- `PS, Ri` -/
  | fromStatus
  /-- `Ri, PS` -/
  | toStatus
  /-- `#u8`: the low byte. -/
  | byte
  /-- `#u8`, applied to the condition codes. -/
  | conditionCodes
  /-- `#u10`: the low byte times four. -/
  | frameSize
  /-- `#s10`: the signed low byte times four. -/
  | stackAdjust
  /-- `@dir, R13`: the low byte times the scale. -/
  | loadDirect (scale : Nat)
  /-- `R13, @dir` -/
  | storeDirect (scale : Nat)
  /-- A branch by the signed low byte, in half-words. -/
  | nearTarget
  /-- A call by the signed low eleven bits, in half-words. -/
  | farTarget
  /-- A bit map of registers: R8 … R15 when `high`, highest register first when `reversed`. -/
  | registerList (high reversed : Bool)
deriving DecidableEq, Repr

/-- How many words of an instruction the operand layout reads. -/
def Shape.wordsRead : Shape → Nat
  | .immediate20 => 2
  | .immediate32 => 3
  | _ => 1

/-- Where control goes after an instruction. -/
inductive Control where
  /-- On to the next instruction. -/
  | onward
  /-- To a target or onward, by a condition. -/
  | branch
  /-- To a target, always. -/
  | jump
  /-- Into a subroutine, and back. -/
  | call
  /-- Back to the caller. -/
  | ret
deriving DecidableEq, Repr

/-- One kind of instruction. -/
structure Descriptor where
  encoding : UInt16
  mask : UInt16
  mnemonic : String
  shape : Shape
  /-- How many words follow the first one. -/
  extensions : Nat := 0
  control : Control := .onward
  /-- The next instruction is executed before control goes elsewhere. -/
  delayed : Bool := false
deriving DecidableEq, Repr

namespace Descriptor

/-- Whether a first word belongs to the descriptor. -/
def claims (d : Descriptor) (word : UInt16) : Bool :=
  word &&& d.mask == d.encoding

/-- The length of the instruction in words. -/
def units (d : Descriptor) : Nat :=
  1 + d.extensions

/-- The descriptor of words that are no instruction. -/
def unknown : Descriptor :=
  { encoding := 0, mask := 0, mnemonic := "dw", shape := .rawWord }

end Descriptor

end Disassembly
