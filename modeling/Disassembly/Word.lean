/-!
# Machine words

Fields of an instruction word and the big-endian composition of bytes and half-words.

A signed field is the two's-complement reading of the low bits of a word (`signedField`). The
immediate of the "2" instruction forms is instead always negative: every bit above the field is
one (`onesField`), so a four-bit field stands for −16 … −1. The two's-complement reading is the
number congruent to the word modulo `2 ^ n` that lies in `[-2 ^ (n - 1), 2 ^ (n - 1))`, and the
ones-filled reading the one that lies in `[-2 ^ n, -1]`. Both are irreducible, so that proofs go
through these laws and never compute with shifts and masks of 32 bits.
-/

namespace Disassembly.Word

/-- The signed 32-bit number with the bits of `x`. -/
def toSigned (x : UInt32) : Int :=
  x.toBitVec.toInt

/-- The low `n` bits of `x` read in two's complement, for `n` from 1 to 32. The field is moved to
the top of the word and back down, and its sign fills the bits above it. -/
@[irreducible]
def signedField (n : Nat) (x : UInt32) : Int :=
  ((x.toBitVec <<< (32 - n)).sshiftRight (32 - n)).toInt

/-- The word whose low `n` bits are one and whose other bits are zero. -/
def lowMask (n : Nat) : UInt32 :=
  if 32 ≤ n then 0xFFFFFFFF else (1 <<< UInt32.ofNat n) - 1

/-- The word whose low `n` bits are those of `x` and whose other bits are one, read as a signed
32-bit number. -/
@[irreducible]
def onesField (n : Nat) (x : UInt32) : Int :=
  toSigned (~~~lowMask n ||| (x &&& lowMask n))

/-- The 32-bit word congruent to `i`. -/
def ofSigned (i : Int) : UInt32 :=
  UInt32.ofBitVec (BitVec.ofInt 32 i)

/-- Two bytes as a half-word, the first one high. -/
def ofBytes (hi lo : UInt8) : UInt16 :=
  hi.toUInt16 <<< 8 ||| lo.toUInt16

/-- Two half-words as a word, the first one high. -/
def ofHalves (hi lo : UInt16) : UInt32 :=
  hi.toUInt32 <<< 16 ||| lo.toUInt32

/-- The half-words of a run of bytes, big-endian; an odd last byte is left out. -/
def pairBytes (bytes : Array UInt8) : List UInt16 :=
  (List.range (bytes.size / 2)).map fun k =>
    ofBytes (bytes.getD (2 * k) 0) (bytes.getD (2 * k + 1) 0)

/-- The bytes of a half-word, high one first. -/
def toBytes (w : UInt16) : List UInt8 :=
  [(w >>> 8).toUInt8, w.toUInt8]

example : signedField 8 0xFF = -1 := by decide +kernel
example : signedField 11 0x400 = -1024 := by decide +kernel
example : onesField 4 0x8 = -8 := by decide +kernel
example : onesField 32 5 = 5 := by decide +kernel

end Disassembly.Word
