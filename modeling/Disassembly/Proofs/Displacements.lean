import Disassembly.InstructionSet.Table
import Disassembly.Proofs.Fields
import Mathlib.Algebra.Order.Group.Unbundled.Int
import Mathlib.Data.Int.ModEq

/-!
# Signed fields as integers, and where displacements lead

A field of `n` bits does not say which integer it stands for, only its residue modulo `2 ^ n`. A
reading of the field picks one of the `2 ^ n` integers of a window, and since a window has one
integer of every residue, the residue and the window together determine it (`eq_of_window`):

* **two's complement** — the window `[-2 ^ (n - 1), 2 ^ (n - 1))`, which is what shifting the field
  up and back down gives (`signedField_eq_iff`);
* **filled with ones** — the window `[-2 ^ n, -1]`, which is what setting all bits above the field
  gives (`onesField_eq_iff`).

A branch or call goes to the address that lies as many half-words after the next word as the
two's-complement reading of its displacement says, around either end of the address space
(`target_ofWords`).
-/

namespace Disassembly

namespace Word

/-- `i` is the two's-complement value of the low `n` bits of `x`. -/
structure TwosComplement (n x : Nat) (i : Int) : Prop where
  congruent : i ≡ x [ZMOD 2 ^ n]
  low_le : -2 ^ (n - 1) ≤ i
  lt_high : i < 2 ^ (n - 1)

/-- `i` is the value of the low `n` bits of `x` with ones in all places above them. -/
structure OnesFilled (n x : Nat) (i : Int) : Prop where
  congruent : i ≡ x [ZMOD 2 ^ n]
  low_le : -2 ^ n ≤ i
  le_high : i ≤ -1

/-- A window of `m` integers has only one of each residue modulo `m`. -/
theorem eq_of_window {m low i j : Int} (h : i ≡ j [ZMOD m]) (hi : low ≤ i) (hi' : i < low + m)
    (hj : low ≤ j) (hj' : j < low + m) : i = j := by
  have hdistance : |i - j| < m := abs_lt.mpr ⟨by omega, by omega⟩
  exact sub_eq_zero.mp (Int.eq_zero_of_abs_lt_dvd h.symm.dvd hdistance)

theorem TwosComplement.unique {n x : Nat} {i j : Int} (hn : 1 ≤ n) (hi : TwosComplement n x i)
    (hj : TwosComplement n x j) : i = j := by
  -- both halves of the window together have `2 ^ n` integers
  have hhalf : (2 : Int) ^ (n - 1) * 2 = 2 ^ n := pow_sub_one_mul (by omega) 2
  have hilt := hi.lt_high
  have hjlt := hj.lt_high
  exact eq_of_window (hi.congruent.trans hj.congruent.symm) hi.low_le (by omega) hj.low_le
    (by omega)

theorem OnesFilled.unique {n x : Nat} {i j : Int} (hi : OnesFilled n x i)
    (hj : OnesFilled n x j) : i = j := by
  have hile := hi.le_high
  have hjle := hj.le_high
  exact eq_of_window (hi.congruent.trans hj.congruent.symm) hi.low_le (by omega) hj.low_le
    (by omega)

/-- Shifting a field up and back down reads it in two's complement. -/
theorem signedField_eq_iff {n : Nat} (hpos : 1 ≤ n) (hn : n ≤ 32) (x : UInt32) (i : Int) :
    signedField n x = i ↔ TwosComplement n x.toNat i := by
  have hfield : TwosComplement n x.toNat (signedField n x) :=
    ⟨signedField_emod hn x, (signedField_bounds hpos hn x).1, (signedField_bounds hpos hn x).2⟩
  constructor
  · rintro rfl
    exact hfield
  · exact hfield.unique hpos

/-- Setting all bits above a field reads it as a negative number. -/
theorem onesField_eq_iff {n : Nat} (hn : n < 32) (x : UInt32) (i : Int) :
    onesField n x = i ↔ OnesFilled n x.toNat i := by
  have hpos : (0 : Int) < 2 ^ n := Int.pow_pos (by decide)
  have hvalue : onesField n x = (x.toNat : Int) % 2 ^ n - 2 ^ n := by
    rw [onesField_eq hn, Int.natCast_emod, Int.natCast_pow]
    rfl
  have hfield : OnesFilled n x.toNat (onesField n x) := by
    rw [hvalue]
    refine ⟨?_, ?_, ?_⟩
    · show ((x.toNat : Int) % 2 ^ n - 2 ^ n) % 2 ^ n = (x.toNat : Int) % 2 ^ n
      rw [Int.sub_emod_right, Int.emod_emod]
    · have hnonneg := Int.emod_nonneg (x.toNat : Int) (Int.ne_of_gt hpos)
      omega
    · have hlt := Int.emod_lt_of_pos (x.toNat : Int) hpos
      omega
  constructor
  · rintro rfl
    exact hfield
  · exact hfield.unique

end Word

/-- The target of a branch with eight bits of displacement, or of a call with eleven. -/
theorem target_ofWords {d : Descriptor} {n : Nat}
    (hd : d.shape = .nearTarget ∧ n = 8 ∨ d.shape = .farTarget ∧ n = 11) (pc : UInt32)
    (word : UInt16) (rest : List UInt16) :
    (Operands.ofWords d.shape pc (word :: rest)).target =
      some (Operands.relative pc (Word.signedField n word.toUInt32)) := by
  rcases hd with ⟨hshape, rfl⟩ | ⟨hshape, rfl⟩
  · rw [hshape]
    rfl
  · rw [hshape]
    rfl

/-- **Signed fields and targets.** For every width of 1 to 32 bits, reading a field in two's
complement gives the one integer of `[-2 ^ (n - 1), 2 ^ (n - 1))` that is congruent to the word
modulo `2 ^ n`, and for every width of 1 to 31 bits, filling it with ones gives the one of
`[-2 ^ n, -1]`. So a branch or call at `pc` has the target `pc + 2 + 2 * displacement` modulo the
size of the address space, where the displacement is the two's-complement value of the low eight or
eleven bits of its first word. -/
theorem targets_follow_signed_fields :
    (∀ n, 1 ≤ n → n ≤ 32 → ∀ (x : UInt32) (i : Int),
      Word.signedField n x = i ↔ Word.TwosComplement n x.toNat i) ∧
    (∀ n, 1 ≤ n → n ≤ 31 → ∀ (x : UInt32) (i : Int),
      Word.onesField n x = i ↔ Word.OnesFilled n x.toNat i) ∧
    ∀ (d : Descriptor) (n : Nat),
      d.shape = .nearTarget ∧ n = 8 ∨ d.shape = .farTarget ∧ n = 11 →
      ∀ (pc : UInt32) (word : UInt16) (rest : List UInt16),
        ∃ (displacement : Int) (target : UInt32),
          Word.TwosComplement n word.toNat displacement ∧
          (Operands.ofWords d.shape pc (word :: rest)).target = some target ∧
          (target.toNat : Int) = (pc.toNat + 2 + 2 * displacement) % 2 ^ 32 := by
  refine ⟨fun n hpos hn => Word.signedField_eq_iff hpos hn,
    fun n _ hn => Word.onesField_eq_iff (Nat.lt_succ_of_le hn), ?_⟩
  intro d n hd pc word rest
  have hwidth : 1 ≤ n ∧ n ≤ 32 := by omega
  have hfield := (Word.signedField_eq_iff hwidth.1 hwidth.2 word.toUInt32 _).mp rfl
  rw [UInt16.toNat_toUInt32] at hfield
  refine ⟨_, _, hfield, target_ofWords hd pc word rest, ?_⟩
  rw [Word.toNat_relative, Int.mul_comm]
  rfl

/-- The widest and the narrowest field, a field of ones with nothing above it but the sign, a branch
from near the start of the address space to before it, and a call across its end. -/
theorem targets_follow_signed_fields_wrapped :
    Word.signedField 32 0x80000000 = -0x80000000 ∧ Word.signedField 1 0xFFFFFFFF = -1 ∧
      Word.onesField 31 0x80000000 = -0x80000000 ∧
      (∃ d, InstructionSet.find? 0xE080 = some d ∧
        (Operands.ofWords d.shape 0x10 [0xE080]).target = some 0xFFFFFF12) ∧
      ∃ d, InstructionSet.find? 0xD3FF = some d ∧
        (Operands.ofWords d.shape 0xFFFFFFFE [0xD3FF]).target = some 0x7FE := by
  obtain ⟨hsigned, hones, htargets⟩ := targets_follow_signed_fields
  let branch : Descriptor :=
    { encoding := 0xE000, mask := 0xFF00, mnemonic := "BRA", shape := .nearTarget
      control := .jump }
  let call : Descriptor :=
    { encoding := 0xD000, mask := 0xF800, mnemonic := "CALL", shape := .farTarget
      control := .call }
  obtain ⟨i, back, hi, hback, hvalue⟩ := htargets branch 8 (.inl ⟨rfl, rfl⟩) 0x10 0xE080 []
  obtain ⟨j, ahead, hj, hahead, hvalue'⟩ := htargets call 11 (.inr ⟨rfl, rfl⟩) 0xFFFFFFFE 0xD3FF []
  obtain rfl : i = -128 := hi.unique (by decide) ⟨by decide, by decide, by decide⟩
  obtain rfl : j = 1023 := hj.unique (by decide) ⟨by decide, by decide, by decide⟩
  obtain rfl : back = 0xFFFFFF12 := UInt32.toNat_inj.mp (Int.ofNat_inj.mp hvalue)
  obtain rfl : ahead = 0x7FE := UInt32.toNat_inj.mp (Int.ofNat_inj.mp hvalue')
  exact ⟨(hsigned 32 (by decide) (by decide) _ _).mpr ⟨by decide, by decide, by decide⟩,
    (hsigned 1 (by decide) (by decide) _ _).mpr ⟨by decide, by decide, by decide⟩,
    (hones 31 (by decide) (by decide) _ _).mpr ⟨by decide, by decide, by decide⟩,
    ⟨branch, by decide +kernel, hback⟩, ⟨call, by decide +kernel, hahead⟩⟩

end Disassembly
