import Disassembly.InstructionSet.Operands
import Mathlib.Algebra.Group.Int.Defs
import Mathlib.Algebra.Group.Nat.Defs

/-!
# Fields of instruction words as numbers

The operand fields are cut out of the words by shifts and masks, and the signed ones are read in
two's complement. The statements here turn them into quotients and remainders of the words as
natural numbers, so that what a field says about its word is plain arithmetic:

* **unsigned fields** — the nibbles, the middle byte, the low byte and the long immediates;
* **signed fields** — a signed field agrees with its word modulo `2 ^ n` (`signedField_emod`) and
  stays within its range (`signedField_bounds`), and a field filled with ones is `2 ^ n` less than
  its bits (`onesField_eq`);
* **addresses** — the 32-bit word of a number (`toNat_ofSigned`) and the target of a displacement
  (`toNat_relative`).
-/

namespace Disassembly.Word

/-! ## Unsigned fields -/

/-- The `n` bits above the lowest four. -/
theorem shiftRight_and_mask (x n : Nat) : (x >>> 4) &&& (2 ^ n - 1) = x / 16 % 2 ^ n := by
  rw [Nat.and_two_pow_sub_one_eq_mod, Nat.shiftRight_eq_div_pow]

theorem toNat_fieldI (w : UInt16) : (w &&& 0xF).toNat = w.toNat % 16 := by
  rw [UInt16.toNat_and]
  exact Nat.and_two_pow_sub_one_eq_mod _ 4

theorem toNat_fieldJ (w : UInt16) : ((w >>> 4) &&& 0xF).toNat = w.toNat / 16 % 16 := by
  rw [UInt16.toNat_and, UInt16.toNat_shiftRight]
  exact shiftRight_and_mask _ 4

theorem toNat_nibble (w : UInt16) :
    ((w.toUInt32 >>> 4) &&& 0xF).toNat = w.toNat / 16 % 16 := by
  rw [UInt32.toNat_and, UInt32.toNat_shiftRight, UInt16.toNat_toUInt32]
  exact shiftRight_and_mask _ 4

theorem toNat_middle (w : UInt16) :
    ((w.toUInt32 >>> 4) &&& 0xFF).toNat = w.toNat / 16 % 256 := by
  rw [UInt32.toNat_and, UInt32.toNat_shiftRight, UInt16.toNat_toUInt32]
  exact shiftRight_and_mask _ 8

theorem toNat_low (w : UInt16) : (w.toUInt32 &&& 0xFF).toNat = w.toNat % 256 := by
  rw [UInt32.toNat_and, UInt16.toNat_toUInt32]
  exact Nat.and_two_pow_sub_one_eq_mod _ 8

/-- A word above a half-word. -/
theorem toNat_shiftLeft_or (x : UInt32) (lo : UInt16) (h : x.toNat < 0x10000) :
    (x <<< 16 ||| lo.toUInt32).toNat = x.toNat * 0x10000 + lo.toNat := by
  have hlo := lo.toNat_lt
  rw [UInt32.toNat_or, UInt32.toNat_shiftLeft, UInt16.toNat_toUInt32]
  show (x.toNat <<< 16) % 2 ^ 32 ||| lo.toNat = _
  rw [Nat.shiftLeft_eq, Nat.mod_eq_of_lt (by omega), Nat.mul_comm,
    ← Nat.two_pow_add_eq_or_of_lt hlo]

theorem toNat_ofHalves (hi lo : UInt16) :
    (ofHalves hi lo).toNat = hi.toNat * 0x10000 + lo.toNat := by
  have hhi := hi.toNat_lt
  rw [ofHalves, toNat_shiftLeft_or _ _ (by rwa [UInt16.toNat_toUInt32]), UInt16.toNat_toUInt32]

theorem toNat_ofBytes (hi lo : UInt8) : (ofBytes hi lo).toNat = hi.toNat * 0x100 + lo.toNat := by
  have hhi := hi.toNat_lt
  have hlo := lo.toNat_lt
  rw [ofBytes, UInt16.toNat_or, UInt16.toNat_shiftLeft, UInt8.toNat_toUInt16,
    UInt8.toNat_toUInt16]
  show (hi.toNat <<< 8) % 2 ^ 16 ||| lo.toNat = _
  rw [Nat.shiftLeft_eq, Nat.mod_eq_of_lt (by omega), Nat.mul_comm,
    ← Nat.two_pow_add_eq_or_of_lt hlo]

theorem toBytes_ofBytes (hi lo : UInt8) : toBytes (ofBytes hi lo) = [hi, lo] := by
  have hhi := hi.toNat_lt
  have hlo := lo.toNat_lt
  have hword := toNat_ofBytes hi lo
  have hhigh : (ofBytes hi lo >>> 8).toUInt8 = hi := by
    apply UInt8.toNat_inj.mp
    rw [UInt16.toNat_toUInt8, UInt16.toNat_shiftRight, hword]
    show (hi.toNat * 0x100 + lo.toNat) >>> 8 % 2 ^ 8 = _
    rw [Nat.shiftRight_eq_div_pow]
    omega
  have hlow : (ofBytes hi lo).toUInt8 = lo := by
    apply UInt8.toNat_inj.mp
    rw [UInt16.toNat_toUInt8, hword]
    omega
  rw [toBytes, hhigh, hlow]

/-- The 20-bit immediate. -/
theorem toNat_twenty (first second : UInt16) :
    ((first.toUInt32 >>> 4 &&& 0xF) <<< 16 ||| second.toUInt32).toNat =
      first.toNat / 16 % 16 * 0x10000 + second.toNat := by
  have hnibble := toNat_nibble first
  rw [toNat_shiftLeft_or _ _ (by omega), hnibble]

/-! ## Signed fields -/

/-- Moved to the top of the word, the low `n` bits of `x` stand for a multiple of `2 ^ (32 - n)`: of
a number that differs from `x` by a multiple of `2 ^ n`. -/
theorem exists_toInt_shiftLeft {n : Nat} (hn : n ≤ 32) (x : UInt32) :
    ∃ k : Int, (x.toBitVec <<< (32 - n)).toInt = (x.toNat - 2 ^ n * k) * 2 ^ (32 - n) := by
  have hsplit : ((2 ^ 32 : Nat) : Int) = 2 ^ n * 2 ^ (32 - n) := by
    rw [← Int.pow_add, Nat.add_sub_cancel' hn, Int.natCast_pow]
    rfl
  have hshift : ((x.toNat <<< (32 - n) : Nat) : Int) = x.toNat * 2 ^ (32 - n) := by
    rw [Nat.shiftLeft_eq, Int.natCast_mul, Int.natCast_pow]
    rfl
  refine ⟨((x.toNat <<< (32 - n) : Nat) : Int).bdiv (2 ^ 32), ?_⟩
  rw [BitVec.toInt_shiftLeft, Int.bmod_eq_self_sub_mul_bdiv, UInt32.toNat_toBitVec, hsplit,
    Int.sub_mul, Int.mul_right_comm, hshift]

/-- Nothing is lost on the way down: the arithmetic shift divides a multiple of `2 ^ (32 - n)`. -/
theorem toInt_shiftLeft_eq {n : Nat} (hn : n ≤ 32) (x : UInt32) :
    (x.toBitVec <<< (32 - n)).toInt = signedField n x * 2 ^ (32 - n) := by
  obtain ⟨k, hk⟩ := exists_toInt_shiftLeft hn x
  have hdown : signedField n x = x.toNat - 2 ^ n * k := by
    rw [signedField, BitVec.toInt_sshiftRight, Int.shiftRight_eq_div_pow, hk, Int.natCast_pow]
    exact Int.mul_ediv_cancel _ (Int.pow_ne_zero (by decide))
  rw [hk, hdown]

theorem signedField_emod {n : Nat} (hn : n ≤ 32) (x : UInt32) :
    signedField n x % 2 ^ n = (x.toNat : Int) % 2 ^ n := by
  obtain ⟨k, hk⟩ := exists_toInt_shiftLeft hn x
  rw [toInt_shiftLeft_eq hn] at hk
  rw [Int.eq_of_mul_eq_mul_right (Int.pow_ne_zero (by decide)) hk, Int.sub_mul_emod_self_left]

theorem signedField_bounds {n : Nat} (hpos : 1 ≤ n) (hn : n ≤ 32) (x : UInt32) :
    -2 ^ (n - 1) ≤ signedField n x ∧ signedField n x < 2 ^ (n - 1) := by
  have hscale : (0 : Int) < 2 ^ (32 - n) := Int.pow_pos (by decide)
  have hsplit : (2 : Int) ^ 31 = 2 ^ (n - 1) * 2 ^ (32 - n) := by
    rw [← Int.pow_add]
    congr 1
    omega
  have hlow := BitVec.le_toInt (x.toBitVec <<< (32 - n))
  have hhigh := BitVec.toInt_lt (x := x.toBitVec <<< (32 - n))
  rw [toInt_shiftLeft_eq hn] at hlow hhigh
  constructor
  · refine Int.le_of_mul_le_mul_right ?_ hscale
    rwa [Int.neg_mul, ← hsplit]
  · refine Int.lt_of_mul_lt_mul_right ?_ (Int.le_of_lt hscale)
    rwa [← hsplit]

/-- A signed field determines the bits it was read from. -/
theorem signedField_inj {n : Nat} (hn : n ≤ 32) {x y : UInt32}
    (h : signedField n x = signedField n y) : x.toNat % 2 ^ n = y.toNat % 2 ^ n := by
  have hx := signedField_emod hn x
  rw [h, signedField_emod hn] at hx
  exact_mod_cast hx.symm

theorem toNat_lowMask {n : Nat} (hn : n < 32) : (lowMask n).toNat = 2 ^ n - 1 := by
  have hlt : 2 ^ n < 2 ^ 32 := Nat.pow_lt_pow_right (by decide) hn
  have hshift : ((1 : UInt32) <<< UInt32.ofNat n).toNat = 2 ^ n := by
    rw [UInt32.toNat_shiftLeft, UInt32.toNat_ofNat_of_lt' (Nat.lt_trans hn (by decide)),
      Nat.mod_eq_of_lt hn]
    show 1 <<< n % 2 ^ 32 = _
    rw [Nat.one_shiftLeft, Nat.mod_eq_of_lt hlt]
  rw [lowMask, if_neg (by omega), UInt32.toNat_sub_of_le, hshift]
  · rfl
  · rw [UInt32.le_iff_toNat_le, hshift]
    exact Nat.two_pow_pos n

/-- The ones fill every place above the field, which keeps its own bits. -/
theorem toNat_filled {n : Nat} (hn : n < 32) (x : UInt32) :
    (~~~lowMask n ||| (x &&& lowMask n)).toNat = 2 ^ 32 - 2 ^ n + x.toNat % 2 ^ n := by
  have hpos := Nat.two_pow_pos n
  have hsplit : 2 ^ n * 2 ^ (32 - n) = 2 ^ 32 := by
    rw [← Nat.pow_add, Nat.add_sub_cancel' (by omega)]
  have hones : UInt32.size - 1 - (2 ^ n - 1) = 2 ^ n * (2 ^ (32 - n) - 1) := by
    rw [Nat.mul_sub_one, hsplit]
    show 0x100000000 - 1 - (2 ^ n - 1) = 0x100000000 - 2 ^ n
    omega
  rw [UInt32.toNat_or, UInt32.toNat_not, UInt32.toNat_and, toNat_lowMask hn,
    Nat.and_two_pow_sub_one_eq_mod, hones,
    ← Nat.two_pow_add_eq_or_of_lt (Nat.mod_lt _ hpos), Nat.mul_sub_one, hsplit]

/-- The ones-filled reading of fewer than 32 bits is negative. -/
theorem onesField_eq {n : Nat} (hn : n < 32) (x : UInt32) :
    onesField n x = (x.toNat % 2 ^ n : Nat) - 2 ^ n := by
  have hle : 2 ^ n ≤ 2 ^ 31 := Nat.pow_le_pow_right (by decide) (by omega)
  have hfilled := toNat_filled hn x
  have hcast : ((2 ^ n : Nat) : Int) = 2 ^ n := Int.natCast_pow 2 n
  rw [onesField, toSigned, BitVec.toInt_eq_toNat_cond, if_neg]
  · show ((~~~lowMask n ||| (x &&& lowMask n)).toNat : Int) - (0x100000000 : Nat) = _
    rw [hfilled]
    omega
  · show ¬ 2 * (~~~lowMask n ||| (x &&& lowMask n)).toNat < 2 ^ 32
    omega

theorem onesField_four (x : UInt32) : onesField 4 x = (x.toNat % 16 : Nat) - 16 :=
  onesField_eq (by decide) x

/-! ## Addresses -/

theorem toNat_ofSigned (i : Int) : ((ofSigned i).toNat : Int) = i % 0x100000000 := by
  show ((BitVec.ofInt 32 i).toNat : Int) = _
  rw [BitVec.toNat_ofInt]
  exact Int.toNat_of_nonneg (Int.emod_nonneg _ (by decide))

theorem ofSigned_toSigned (x : UInt32) : ofSigned (toSigned x) = x := by
  rw [ofSigned, toSigned, BitVec.ofInt_toInt]

/-- A displacement moves the address by its half-words, modulo the size of the address space. -/
theorem toNat_relative (pc : UInt32) (displacement : Int) :
    ((Operands.relative pc displacement).toNat : Int) =
      (pc.toNat + 2 + displacement * 2) % 0x100000000 := by
  have htwo : UInt32.toNat 2 = 2 := rfl
  have hoffset := toNat_ofSigned (displacement * 2)
  rw [Operands.relative, UInt32.toNat_add, UInt32.toNat_add, htwo]
  omega

end Disassembly.Word
