import Disassembly.InstructionSet.Index
import Disassembly.Memory
import Disassembly.Style

/-!
# Decoders

A decoder turns bytes into records. It knows how to find the descriptor of a first word, how to
write the result, and which addresses have names. Decoding fails only where the memory has no byte;
a word that is no instruction is not an error.
-/

namespace Disassembly

/-- Why nothing could be decoded at an address. -/
inductive DecodeError where
  /-- The half-word at the address is not in the image. -/
  | outOfImage (address : UInt32)
  /-- The string that starts at the address has no zero byte in the image. -/
  | unterminated (address : UInt32)
deriving DecidableEq, Repr

/-- The report of a decoding error. -/
def DecodeError.message : DecodeError → String
  | outOfImage a => "no image bytes at " ++ Text.lowerAddress a
  | unterminated a =>
    "string at " ++ Text.lowerAddress a ++ " runs off the image without a terminator"

/-- What decoding depends on besides the bytes. -/
structure Decoder where
  /-- The descriptor of a first word. -/
  find : UInt16 → Option Descriptor
  style : Style
  symbols : Symbols

namespace Decoder

/-- The decoder for the instruction set. -/
def standard (style : Style) (symbols : Symbols) : Decoder :=
  { find := Index.standard.lookup, style, symbols }

theorem standard_eq (style : Style) (symbols : Symbols) :
    standard style symbols = { find := InstructionSet.find?, style, symbols } := by
  rw [standard, Index.lookup_standard]

end Decoder

namespace Memory

/-- The half-word at an address, or the error that it is missing. -/
def fetch (memory : Memory) (a : UInt32) : Except DecodeError UInt16 :=
  match memory.half? a with
  | some w => .ok w
  | none => .error (.outOfImage a)

/-- `n` half-words from an address on, or the error at the first missing one. -/
def fetchMany (memory : Memory) : Nat → UInt32 → Except DecodeError (List UInt16)
  | 0, _ => .ok []
  | n + 1, a => do
    let w ← memory.fetch a
    let ws ← fetchMany memory n (a + 2)
    return w :: ws

end Memory

end Disassembly
