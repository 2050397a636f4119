import Disassembly.Section

/-!
# Addresses as numbers

Addresses are compared and rounded as 32-bit words. The statements here turn all of that into
statements about natural numbers, where the end of the address space is just a bound.
-/

namespace Disassembly

theorem toNat_max (a b : UInt32) : (max a b).toNat = max a.toNat b.toNat := by
  show (if a ≤ b then b else a).toNat = _
  split
  · next h =>
      rw [UInt32.le_iff_toNat_le] at h
      omega
  · next h =>
      rw [UInt32.le_iff_toNat_le] at h
      omega

theorem toNat_min (a b : UInt32) : (min a b).toNat = min a.toNat b.toNat := by
  show (if a ≤ b then a else b).toNat = _
  split
  · next h =>
      rw [UInt32.le_iff_toNat_le] at h
      omega
  · next h =>
      rw [UInt32.le_iff_toNat_le] at h
      omega

/-! ## Even addresses -/

theorem toNat_and_one (a : UInt32) : (a &&& 1).toNat = a.toNat % 2 := by
  rw [UInt32.toNat_and, UInt32.toNat_one, Nat.and_one_is_mod]

theorem toNat_evenDown (a : UInt32) : (evenDown a).toNat = a.toNat / 2 * 2 := by
  have hbit := toNat_and_one a
  have hle : a &&& 1 ≤ a := by
    rw [UInt32.le_iff_toNat_le, hbit]
    exact Nat.mod_le _ _
  rw [evenDown, UInt32.toNat_sub_of_le _ _ hle, hbit]
  omega

/-- The last address of the space has no even address after it. -/
theorem toNat_evenUp (a : UInt32) :
    (evenUp a).toNat = min ((a.toNat + 1) / 2 * 2) 0xFFFFFFFF := by
  have hlt := a.toNat_lt
  unfold evenUp
  split
  · next h =>
      rw [h]
      decide
  · next h =>
      have hne : a.toNat ≠ 0xFFFFFFFF := fun hmax => h (UInt32.toNat_inj.mp hmax)
      rw [UInt32.toNat_add, toNat_and_one]
      omega

/-! ## Regions -/

theorem Region.contains_iff (region : Region) (a : UInt32) :
    region.contains a = true ↔
      region.start.toNat ≤ a.toNat ∧ a.toNat < region.stop.toNat := by
  rw [contains, Bool.and_eq_true, decide_eq_true_iff, decide_eq_true_iff,
    UInt32.le_iff_toNat_le, UInt32.lt_iff_toNat_lt]

end Disassembly
