import Disassembly.Word

/-!
# Memory

What the disassembler sees of the address space: for every address a byte, or nothing when no byte
is known there. Larger units are big-endian, and their addresses wrap around at the end of the
address space.
-/

namespace Disassembly

/-- The bytes known at each address. -/
abbrev Memory := UInt32 → Option UInt8

namespace Memory

/-- The half-word at an address, when both bytes are known. -/
def half? (memory : Memory) (a : UInt32) : Option UInt16 := do
  let hi ← memory a
  let lo ← memory (a + 1)
  return Word.ofBytes hi lo

/-- The word at an address, when all four bytes are known. -/
def word? (memory : Memory) (a : UInt32) : Option UInt32 := do
  let hi ← memory.half? a
  let lo ← memory.half? (a + 2)
  return Word.ofHalves hi lo

/-- The bytes from `a` up to the next zero byte, after those already `seen`; nothing when an
unknown byte or the end of the address space comes first. -/
def beforeZero? (memory : Memory) (seen : Array UInt8) (a : UInt32) : Option (Array UInt8) :=
  match memory a with
  | none => none
  | some b =>
    if b = 0 then some seen
    else if _h : a.toNat + 1 < 0x100000000 then beforeZero? memory (seen.push b) (a + 1)
    else none
termination_by 0x100000000 - a.toNat
decreasing_by
  rw [UInt32.toNat_add, UInt32.toNat_one, Nat.mod_eq_of_lt _h]
  omega

end Memory

end Disassembly
