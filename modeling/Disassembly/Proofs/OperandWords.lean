import Disassembly.Proofs.OperandLayout

/-!
# Words read back from written operands

The tokens of a layout determine the words they were written from, up to the bits of the first word
that select the instruction.

* **fields** — a register in a slot gives back the nibble that it was read from, and a number in a
  slot the immediate, displacement or target (`fieldI_eq`, `fieldJ_eq`, `shown_eq`);
* **bits** — together they give back the low `Shape.freeBits` bits of the first word, and all of the
  extension words (`Operands.words_eq_of_tokens_eq`).
-/

namespace Disassembly

/-- How many low bits of the first word belong to the operands. -/
def Shape.freeBits : Shape → Nat
  | .implied | .popStatus | .pushStatus => 0
  | .register | .atRegister | .pop | .push | .popSpecial | .pushSpecial | .fromStatus | .toStatus
  | .immediate32 => 4
  | .farTarget => 11
  | .immediate8 | .loadFrame _ | .storeFrame _ => 12
  | .rawWord => 16
  | _ => 8

/-- What a layout multiplies its displacement or direct address by. -/
def Shape.scale : Shape → Nat
  | .loadFrame scale | .storeFrame scale | .loadDirect scale | .storeDirect scale => scale
  | _ => 1

namespace Operands

variable {shape : Shape} {pc : UInt32} {first first' : UInt16} {rest rest' : List UInt16}

/-! ## Fields -/

theorem slotToken_eq {words words' : List UInt16}
    (h : tokens shape pc words = tokens shape pc words') {slot : Slot}
    (hslot : slot ∈ shape.slots) :
    slotToken shape pc words slot = slotToken shape pc words' slot := by
  cases shape with
  | registerList high reversed => cases hslot
  | _ => exact List.map_inj_left.mp h slot hslot

/-- A register in a slot gives its field back. -/
theorem read_eq {field : RegisterField}
    (h : tokens shape pc (first :: rest) = tokens shape pc (first' :: rest'))
    (hslot : .general field ∈ shape.slots ∨ .dedicated field ∈ shape.slots) :
    (field.read first : Nat) = field.read first' := by
  rcases hslot with hslot | hslot
  · exact congrArg Fin.val (Token.register.inj (slotToken_eq h hslot))
  · exact congrArg Fin.val (Token.special.inj (slotToken_eq h hslot))

theorem fieldI_eq (h : tokens shape pc (first :: rest) = tokens shape pc (first' :: rest'))
    (hslot : .general .i ∈ shape.slots ∨ .dedicated .i ∈ shape.slots) :
    first.toNat % 16 = first'.toNat % 16 := by
  have hread := read_eq h hslot
  rwa [coe_read_i, coe_read_i, Word.toNat_fieldI, Word.toNat_fieldI] at hread

theorem fieldJ_eq (h : tokens shape pc (first :: rest) = tokens shape pc (first' :: rest'))
    (hslot : .general .j ∈ shape.slots ∨ .dedicated .j ∈ shape.slots) :
    first.toNat / 16 % 16 = first'.toNat / 16 % 16 := by
  have hread := read_eq h hslot
  rwa [coe_read_j, coe_read_j, Word.toNat_fieldJ, Word.toNat_fieldJ] at hread

theorem shown_eq {words words' : List UInt16}
    (h : tokens shape pc words = tokens shape pc words') (hslot : .value ∈ shape.slots) :
    shown shape pc words = shown shape pc words' :=
  Token.number.inj (slotToken_eq h hslot)

/-! ## Numbers -/

/-- A scaled displacement determines the byte that it was read from. -/
theorem signedField_scaled_inj {scale : Nat} (hpos : 0 < scale) {x y : UInt32}
    (h : Word.signedField 8 x * scale = Word.signedField 8 y * scale) :
    x.toNat % 256 = y.toNat % 256 := by
  have hscale : (scale : Int) ≠ 0 := by omega
  exact Word.signedField_inj (n := 8) (by decide) (Int.eq_of_mul_eq_mul_right hscale h)

/-- A scaled direct address determines the byte that it was read from. -/
theorem ofSigned_scaled_inj {scale : Nat} (hpos : 0 < scale) (hle : scale ≤ 4) {m n : Nat}
    (hm : m < 256) (hn : n < 256)
    (h : (Word.ofSigned (m * scale)).toNat = (Word.ofSigned (n * scale)).toNat) : m = n := by
  have hvalue : ∀ k : Nat, k < 256 → ((Word.ofSigned (k * scale)).toNat : Int) = k * scale := by
    intro k hk
    have hbound : k * scale ≤ 255 * 4 := Nat.mul_le_mul (by omega) hle
    rw [Word.toNat_ofSigned, ← Int.natCast_mul]
    omega
  have hproducts := (hvalue m hm).symm.trans ((congrArg Nat.cast h).trans (hvalue n hn))
  exact Nat.eq_of_mul_eq_mul_right hpos (by exact_mod_cast hproducts)

/-- A target determines the field of its displacement: the displacements of up to eleven bits are
small against the address space, so no two of them meet by wrapping around. -/
theorem relative_inj {n : Nat} (hn : 1 ≤ n ∧ n ≤ 11) {x y : UInt32}
    (h : (relative pc (Word.signedField n x)).toNat = (relative pc (Word.signedField n y)).toNat) :
    x.toNat % 2 ^ n = y.toNat % 2 ^ n := by
  have hrange : (2 : Int) ^ (n - 1) ≤ 2 ^ 10 := by
    exact_mod_cast Nat.pow_le_pow_right (by decide) (by omega)
  have hx := Word.signedField_bounds hn.1 (by omega) x
  have hy := Word.signedField_bounds hn.1 (by omega) y
  have hleft := Word.toNat_relative pc (Word.signedField n x)
  have hright := Word.toNat_relative pc (Word.signedField n y)
  refine Word.signedField_inj (by omega) ?_
  omega

/-! ## Bits of the first word -/

/-- The tokens of a layout without extension words give back the operand bits. -/
theorem low_eq_of_tokens_eq (hpos : 0 < shape.scale) (hle : shape.scale ≤ 4)
    (hread : shape.wordsRead = 1) (hlist : shape.isRegisterList = false)
    (h : tokens shape pc (first :: rest) = tokens shape pc (first' :: rest')) :
    first.toNat % 2 ^ shape.freeBits = first'.toNat % 2 ^ shape.freeBits := by
  -- the cases are grouped by the fields that the layout reads: none, one register, two registers,
  -- a register and a number, a number alone
  cases shape with
  | implied | popStatus | pushStatus => rw [Shape.freeBits, Nat.pow_zero, Nat.mod_one, Nat.mod_one]
  | register | atRegister | pop | push | popSpecial | pushSpecial | fromStatus | toStatus =>
      exact fieldI_eq h (by simp [Shape.slots])
  | registers | load | store | loadIndexed | storeIndexed | modify | fromSpecial | toSpecial =>
      have hi := fieldI_eq h (by simp [Shape.slots])
      have hj := fieldJ_eq h (by simp [Shape.slots])
      show first.toNat % 256 = first'.toNat % 256
      omega
  | nibble | negativeNibble | longShift | nibbleAt | loadStack | storeStack =>
      have hi := fieldI_eq h (by simp [Shape.slots])
      have hv := shown_eq h (by simp [Shape.slots])
      simp only [shown, ofWords, immediateOf, List.getD_cons_zero, Word.onesField_four,
        Word.toNat_ofSigned, Word.toNat_nibble] at hv
      show first.toNat % 256 = first'.toNat % 256
      omega
  | immediate8 =>
      have hi := fieldI_eq h (by simp [Shape.slots])
      have hv := shown_eq h (by simp [Shape.slots])
      simp only [shown, ofWords, immediateOf, List.getD_cons_zero, Word.toNat_middle] at hv
      show first.toNat % 4096 = first'.toNat % 4096
      omega
  | loadFrame scale | storeFrame scale =>
      have hi := fieldI_eq h (by simp [Shape.slots])
      have hv := signedField_scaled_inj hpos (shown_eq h (by simp [Shape.slots]))
      simp only [List.getD_cons_zero, Word.toNat_middle] at hv
      show first.toNat % 4096 = first'.toNat % 4096
      omega
  | byte | conditionCodes | frameSize =>
      have hv := shown_eq h (by simp [Shape.slots])
      simp only [shown, ofWords, immediateOf, List.getD_cons_zero, Word.toNat_ofSigned,
        Word.toNat_low] at hv
      show first.toNat % 256 = first'.toNat % 256
      omega
  | stackAdjust =>
      have hv := signedField_scaled_inj (by decide) (shown_eq h (by simp [Shape.slots]))
      simp only [List.getD_cons_zero, Word.toNat_low] at hv
      show first.toNat % 256 = first'.toNat % 256
      omega
  | loadDirect scale | storeDirect scale =>
      have hv := shown_eq h (by simp [Shape.slots])
      simp only [shown, ofWords, immediateOf, List.getD_cons_zero, Word.toNat_low] at hv
      show first.toNat % 256 = first'.toNat % 256
      exact ofSigned_scaled_inj hpos hle (by omega) (by omega) (Int.ofNat_inj.mp hv)
  | nearTarget | farTarget =>
      have hv := relative_inj (by decide) (Int.ofNat_inj.mp (shown_eq h (by simp [Shape.slots])))
      rwa [UInt16.toNat_toUInt32, UInt16.toNat_toUInt32] at hv
  | rawWord =>
      have hv := shown_eq h (by simp [Shape.slots])
      simp only [shown, List.getD_cons_zero] at hv
      show first.toNat % 65536 = first'.toNat % 65536
      omega
  | immediate20 | immediate32 => cases hread
  | registerList high reversed => cases hlist

/-! ## Register lists -/

theorem listTokens_inj {rs ss : List (Fin 16)} (h : listTokens rs = listTokens ss) : rs = ss := by
  -- the registers of the run are what is left when the marks are taken out
  have hregisters : ∀ registers : List (Fin 16),
      (listTokens registers).filter (fun t => !t.isMark) = registers.map Token.register := by
    intro registers
    induction registers using listTokens.induct with
    | case1 => rfl
    | case2 r => rfl
    | case3 r s rs ih =>
        rw [List.map_cons, ← ih]
        rfl
  have hmap : rs.map Token.register = ss.map Token.register := by
    rw [← hregisters rs, ← hregisters ss, h]
  exact List.map_injective_iff.mpr (fun _ _ => Token.register.inj) hmap

theorem testBit_iff_mem_listed (bits : Nat) (high reversed : Bool) {b : Nat} (hb : b < 8) :
    bits.testBit b = true ↔
      Fin.ofNat 16 ((if high then 8 else 0) + if reversed then 7 - b else b) ∈
        listed bits high reversed := by
  rw [listed, List.mem_map]
  refine ⟨fun hbit => ⟨b, List.mem_filter.mpr ⟨List.mem_range.mpr hb, hbit⟩, rfl⟩, ?_⟩
  -- two bits below eight never stand for the same register
  rintro ⟨b', hb', heq⟩
  obtain ⟨hrange, hbit⟩ := List.mem_filter.mp hb'
  have hlt := List.mem_range.mp hrange
  have hvalue := congrArg Fin.val heq
  rw [Fin.val_ofNat, Fin.val_ofNat] at hvalue
  have hsame : b' = b := by
    split at hvalue <;> split at hvalue <;> omega
  exact hsame ▸ hbit

/-- A register list determines its bit map. -/
theorem listed_inj {m n : Nat} {high reversed : Bool}
    (h : listed m high reversed = listed n high reversed) : m % 2 ^ 8 = n % 2 ^ 8 := by
  refine Nat.eq_of_testBit_eq fun b => ?_
  rw [Nat.testBit_mod_two_pow, Nat.testBit_mod_two_pow]
  by_cases hb : b < 8
  · have hm := testBit_iff_mem_listed m high reversed hb
    rw [h, ← testBit_iff_mem_listed n high reversed hb] at hm
    rw [Bool.eq_iff_iff.mpr hm]
  · rw [decide_eq_false hb, Bool.false_and, Bool.false_and]

theorem low_eq_of_listTokens_eq {high reversed : Bool}
    (h : tokens (.registerList high reversed) pc (first :: rest) =
      tokens (.registerList high reversed) pc (first' :: rest')) :
    first.toNat % 256 = first'.toNat % 256 := by
  have hlisted := listed_inj (listTokens_inj (List.append_cancel_right (List.cons.inj h).2))
  have hleft := Word.toNat_ofSigned (first.toUInt32 &&& 0xFF).toNat
  have hright := Word.toNat_ofSigned (first'.toUInt32 &&& 0xFF).toNat
  simp only [ofWords, immediateOf, List.getD_cons_zero] at hlisted
  rw [Word.toNat_low] at hleft hright hlisted
  rw [Word.toNat_low] at hlisted
  omega

/-! ## All words -/

/-- The tokens of a layout give back the operand bits of the first word and the extension words. -/
theorem words_eq_of_tokens_eq (hpos : 0 < shape.scale) (hle : shape.scale ≤ 4)
    (hlength : (first :: rest).length = shape.wordsRead)
    (hlength' : (first' :: rest').length = shape.wordsRead)
    (h : tokens shape pc (first :: rest) = tokens shape pc (first' :: rest')) :
    first.toNat % 2 ^ shape.freeBits = first'.toNat % 2 ^ shape.freeBits ∧ rest = rest' := by
  cases shape with
  | immediate20 =>
      obtain ⟨second, rfl⟩ := List.length_eq_one_iff.mp (Nat.succ.inj hlength)
      obtain ⟨second', rfl⟩ := List.length_eq_one_iff.mp (Nat.succ.inj hlength')
      have hi := fieldI_eq h (by simp [Shape.slots])
      have hv := shown_eq h (by simp [Shape.slots])
      -- the nibble above the extension word and the word itself share one number
      simp only [shown, ofWords, immediateOf, List.getD_cons_zero, List.getD_cons_succ,
        Word.toNat_ofSigned, Word.toNat_twenty] at hv
      have hsecond := second.toNat_lt
      have hsecond' := second'.toNat_lt
      have heq : second = second' := UInt16.toNat_inj.mp (by omega)
      refine ⟨?_, by rw [heq]⟩
      show first.toNat % 256 = first'.toNat % 256
      omega
  | immediate32 =>
      obtain ⟨second, third, rfl⟩ := List.length_eq_two.mp (Nat.succ.inj hlength)
      obtain ⟨second', third', rfl⟩ := List.length_eq_two.mp (Nat.succ.inj hlength')
      have hv := shown_eq h (by simp [Shape.slots])
      simp only [shown, ofWords, immediateOf, List.getD_cons_zero, List.getD_cons_succ,
        Word.ofSigned_toSigned, Word.toNat_ofHalves] at hv
      have hthird := third.toNat_lt
      have hthird' := third'.toNat_lt
      have hhigh : second = second' := UInt16.toNat_inj.mp (by omega)
      have hlow : third = third' := UInt16.toNat_inj.mp (by omega)
      exact ⟨fieldI_eq h (by simp [Shape.slots]), by rw [hhigh, hlow]⟩
  | registerList high reversed =>
      refine ⟨low_eq_of_listTokens_eq h, ?_⟩
      rw [List.length_eq_zero_iff.mp (Nat.succ.inj hlength),
        List.length_eq_zero_iff.mp (Nat.succ.inj hlength')]
  | _ =>
      refine ⟨low_eq_of_tokens_eq hpos hle rfl rfl h, ?_⟩
      rw [List.length_eq_zero_iff.mp (Nat.succ.inj hlength),
        List.length_eq_zero_iff.mp (Nat.succ.inj hlength')]

end Operands

end Disassembly
