import Disassembly.Proofs.Fields
import Disassembly.Proofs.Tokens
import Mathlib.Data.Fin.Basic

/-!
# The tokens of an operand layout

Every layout but the register lists has a fixed row of slots: some always hold the same token, the
others are filled with a register or a number from the words of the instruction. This is a second
description of the written operands, and the first result is that it gives the same text:

* **text** — without declared names, the operands are written as the tokens of their layout
  (`Operands.text_eq_tokens`);
* **spacing** — in every layout the words are separated by marks, so the tokens can be read back
  (`Operands.spaced_tokens`);
* **clashes** — rows of slots with a position that no token fits on both sides never give the same
  tokens (`Slot.map_ne_map_of_clash`).
-/

namespace Disassembly

/-- The two register fields of a first word. -/
inductive RegisterField where
  | i
  | j
deriving DecidableEq

/-- One position of an operand layout. -/
inductive Slot where
  /-- The same token in every instruction. -/
  | fixed (token : Token)
  /-- The general register in a field. -/
  | general (field : RegisterField)
  /-- The dedicated register in a field. -/
  | dedicated (field : RegisterField)
  /-- The immediate value, displacement or address. -/
  | value
deriving DecidableEq

namespace Slot

@[simp]
def mark (m : Mark) : Slot :=
  fixed (.mark m)

/-- A comma and a blank. -/
@[simp]
def comma : List Slot :=
  [mark .comma, mark .space]

/-- The parts of an address in memory, after `@`. -/
@[simp]
def indirect (inner : List Slot) : List Slot :=
  mark .indirect :: inner

/-- A base register and what is added to it, after `@`. -/
@[simp]
def indexed (base : Fin 16) (offset : Slot) : List Slot :=
  indirect ([mark .opening, fixed (.register base)] ++ comma ++ [offset, mark .closing])

/-- The top of the stack, which is then taken off. -/
@[simp]
def popped : List Slot :=
  indirect [fixed (.register 15), mark .plus]

/-- The place below the top of the stack. -/
@[simp]
def pushed : List Slot :=
  indirect [fixed .pushed]

end Slot

open Slot in
/-- The slots of a layout. A register list has as many tokens as its bits ask for and no slots. -/
def Shape.slots : Shape → List Slot
  | .implied | .registerList _ _ => []
  | .rawWord | .nearTarget | .farTarget => [value]
  | .registers => [general .j] ++ comma ++ [general .i]
  | .nibble | .negativeNibble | .longShift | .immediate8 | .immediate20 | .immediate32 =>
    [mark .hash, value] ++ comma ++ [general .i]
  | .nibbleAt => [mark .hash, value] ++ comma ++ indirect [general .i]
  | .load => indirect [general .j] ++ comma ++ [general .i]
  | .store => [general .i] ++ comma ++ indirect [general .j]
  | .modify => [general .j] ++ comma ++ indirect [general .i]
  | .loadIndexed => indexed 13 (general .j) ++ comma ++ [general .i]
  | .storeIndexed => [general .i] ++ comma ++ indexed 13 (general .j)
  | .loadFrame _ => indexed 14 value ++ comma ++ [general .i]
  | .storeFrame _ => [general .i] ++ comma ++ indexed 14 value
  | .loadStack => indexed 15 value ++ comma ++ [general .i]
  | .storeStack => [general .i] ++ comma ++ indexed 15 value
  | .register => [general .i]
  | .atRegister => indirect [general .i]
  | .pop => popped ++ comma ++ [general .i]
  | .push => [general .i] ++ comma ++ pushed
  | .popSpecial => popped ++ comma ++ [dedicated .i]
  | .pushSpecial => [dedicated .i] ++ comma ++ pushed
  | .popStatus => popped ++ comma ++ [fixed .status]
  | .pushStatus => [fixed .status] ++ comma ++ pushed
  | .fromSpecial => [dedicated .j] ++ comma ++ [general .i]
  | .toSpecial => [general .i] ++ comma ++ [dedicated .j]
  | .fromStatus => [fixed .status] ++ comma ++ [general .i]
  | .toStatus => [general .i] ++ comma ++ [fixed .status]
  | .byte | .conditionCodes | .frameSize | .stackAdjust => [mark .hash, value]
  | .loadDirect _ => indirect [value] ++ comma ++ [fixed (.register 13)]
  | .storeDirect _ => [fixed (.register 13)] ++ comma ++ indirect [value]

/-- The least number of digits of the number that a layout shows. -/
def Shape.digits : Shape → Nat
  | .rawWord => 4
  | .immediate20 | .immediate32 | .nearTarget | .farTarget => 8
  | _ => 0

/-- The register in a field of a first word. -/
def RegisterField.read (first : UInt16) : RegisterField → Fin 16
  | i => Fin.ofNat 16 (first &&& 0xF).toNat
  | j => Fin.ofNat 16 ((first >>> 4) &&& 0xF).toNat

namespace Operands

/-- The number that a layout shows: a signed immediate, a word or an address. -/
def shown (shape : Shape) (pc : UInt32) (words : List UInt16) : Int :=
  let operands := ofWords shape pc words
  match shape with
  | .rawWord => (words.getD 0 0).toNat
  | .nearTarget | .farTarget => (operands.target.getD 0).toNat
  | .nibble | .negativeNibble | .longShift | .immediate8 | .loadFrame _ | .storeFrame _
  | .stackAdjust => operands.immediate
  | _ => (Word.ofSigned operands.immediate).toNat

/-- What stands in a slot of an instruction. -/
def slotToken (shape : Shape) (pc : UInt32) (words : List UInt16) : Slot → Token
  | .fixed token => token
  | .general field => .register (field.read (words.getD 0 0))
  | .dedicated field => .special (field.read (words.getD 0 0))
  | .value => .number (shown shape pc words)

/-- Registers with commas between them. -/
def listTokens : List (Fin 16) → List Token
  | [] => []
  | [r] => [.register r]
  | r :: s :: rs => .register r :: .mark .comma :: .mark .space :: listTokens (s :: rs)

/-- The registers of a bit map, in the order in which they are written. -/
def listed (bits : Nat) (high reversed : Bool) : List (Fin 16) :=
  ((List.range 8).filter fun b => bits.testBit b).map fun b =>
    Fin.ofNat 16 ((if high then 8 else 0) + if reversed then 7 - b else b)

/-- The tokens of the written operands. -/
def tokens (shape : Shape) (pc : UInt32) (words : List UInt16) : List Token :=
  match shape with
  | .registerList high reversed =>
    .mark .opening :: listTokens
      (listed (Word.ofSigned (ofWords shape pc words).immediate).toNat high reversed)
      ++ [.mark .closing]
  | shape => shape.slots.map (slotToken shape pc words)

/-! ## The same text -/

@[simp]
theorem coe_read_i (first : UInt16) :
    (RegisterField.i.read first : Nat) = (first &&& 0xF).toNat := by
  rw [RegisterField.read, Fin.val_ofNat, Word.toNat_fieldI, Nat.mod_mod]

@[simp]
theorem coe_read_j (first : UInt16) :
    (RegisterField.j.read first : Nat) = ((first >>> 4) &&& 0xF).toNat := by
  rw [RegisterField.read, Fin.val_ofNat, Word.toNat_fieldJ, Nat.mod_mod]

theorem number_eq_numberWide (style : Style) (n : Nat) :
    style.number n = style.numberWide 0 n := by
  rw [Style.number, Style.numberWide, Text.hexPadded_zero]

theorem text_signed (style : Style) (value : Int) :
    (Token.number value).text style 0 = (style.signed value).toList := by
  rw [Token.text, Style.signed, number_eq_numberWide, number_eq_numberWide]
  split
  · rw [String.toList_append]
    rfl
  · rfl

theorem text_natural (style : Style) (width n : Nat) :
    (Token.number n).text style width = (style.numberWide width n).toList := by
  rw [Token.text, if_neg (by omega), Int.toNat_natCast]

theorem address_empty (style : Style) (a : UInt32) :
    style.address ∅ a = (style.numberWide 8 a.toNat, none) := by
  rw [Style.address, Std.ExtTreeMap.getElem?_empty]

theorem listTokens_text (style : Style) (registers : List (Fin 16)) :
    (listTokens registers).flatMap (Token.text style 0) =
      (String.intercalate ", " (registers.map fun r : Fin 16 => style.register r)).toList := by
  induction registers using listTokens.induct with
  | case1 => rfl
  | case2 r => simp [listTokens, Token.text]
  | case3 r s rs ih =>
      rw [List.map_cons] at ih
      rw [listTokens, List.map_cons, List.map_cons, String.intercalate_cons_cons,
        String.toList_append, String.toList_append, ← ih, List.append_assoc]
      rfl

theorem toList_registerList (style : Style) (bits : Nat) (high reversed : Bool) :
    (style.registerList bits high reversed).toList =
      '(' :: (listTokens (listed bits high reversed)).flatMap (Token.text style 0) ++ [')'] := by
  have hnames : (listed bits high reversed).map (fun r : Fin 16 => style.register r) =
      ((List.range 8).filter fun b => bits.testBit b).map fun b =>
        style.register ((if high then 8 else 0) + if reversed then 7 - b else b) := by
    rw [listed, List.map_map]
    refine List.map_congr_left fun b hb => ?_
    have hlt := List.mem_range.mp (List.mem_of_mem_filter hb)
    rw [Function.comp_apply, Fin.val_ofNat, Nat.mod_eq_of_lt (by split <;> split <;> omega)]
  rw [listTokens_text, hnames, Style.registerList, String.toList_append, String.toList_append]
  rfl

/-- Without declared names, the operands are written as the tokens of their layout. -/
theorem text_eq_tokens (style : Style) (shape : Shape) (pc : UInt32) (words : List UInt16) :
    (ofWords shape pc words).text style ∅ shape words =
      (String.ofList ((tokens shape pc words).flatMap (Token.text style shape.digits)), none) := by
  refine Prod.ext (String.toList_inj.mp ?_) ?_
  · rw [String.toList_ofList]
    cases shape with
    | registerList high reversed =>
        simp [Operands.text, tokens, Shape.digits, toList_registerList, Mark.character]
    | _ =>
        simp [Operands.text, ofWords, tokens, Shape.slots, Shape.digits, slotToken, shown,
          Mark.character, address_empty, number_eq_numberWide, text_signed, text_natural]
  · cases shape <;> simp [Operands.text, address_empty]

/-! ## Spacing -/

theorem spaced_listTokens (registers : List (Fin 16)) : Token.Spaced (listTokens registers) := by
  induction registers using listTokens.induct with
  | case1 => exact List.isChain_nil
  | case2 r => exact List.isChain_singleton _
  | case3 r s rs ih =>
      refine List.IsChain.cons_cons (.inr rfl) (List.IsChain.cons_cons (.inl rfl) ?_)
      exact ih.cons fun _ _ => .inl rfl

/-- In every layout, marks separate the words. -/
theorem spaced_tokens (shape : Shape) (pc : UInt32) (words : List UInt16) :
    Token.Spaced (tokens shape pc words) := by
  cases shape with
  | registerList high reversed =>
      refine List.IsChain.append ?_ (List.isChain_singleton _) ?_
      · exact (spaced_listTokens _).cons fun _ _ => .inl rfl
      · intro _ _ u hu
        cases hu
        exact .inr rfl
  | _ => simp [tokens, Shape.slots, slotToken, Token.Spaced, Token.isMark]

end Operands

/-! ## Clashes -/

namespace Slot

/-- Whether a token can stand in the slot. -/
def admits : Slot → Token → Bool
  | fixed token, t => decide (token = t)
  | general _, .register _ => true
  | dedicated _, .special _ => true
  | value, .number _ => true
  | _, _ => false

/-- Whether no token can stand in both slots. -/
def apart : Slot → Slot → Bool
  | fixed token, slot => !slot.admits token
  | slot, fixed token => !slot.admits token
  | general _, general _ => false
  | dedicated _, dedicated _ => false
  | value, value => false
  | _, _ => true

/-- Whether two rows of slots differ in length, or in a position that no token fits. -/
def clash : List Slot → List Slot → Bool
  | [], [] => false
  | s :: ss, t :: ts => s.apart t || clash ss ts
  | _, _ => true

theorem admits_slotToken (shape : Shape) (pc : UInt32) (words : List UInt16) (slot : Slot) :
    slot.admits (Operands.slotToken shape pc words slot) = true := by
  cases slot with
  | fixed token => exact decide_eq_true rfl
  | _ => rfl

theorem apart_eq_false {s t : Slot} {token : Token} (hs : s.admits token = true)
    (ht : t.admits token = true) : s.apart t = false := by
  cases s with
  | fixed u =>
      rw [apart, of_decide_eq_true hs, ht]
      rfl
  | _ =>
      cases t with
      | fixed u =>
          rw [← of_decide_eq_true ht] at hs
          simp [apart, hs]
      | _ => cases token <;> simp_all [apart, admits]

/-- Rows of slots that clash are never filled with the same tokens. -/
theorem map_ne_map_of_clash {ss ts : List Slot} {f g : Slot → Token}
    (hf : ∀ slot : Slot, slot.admits (f slot) = true)
    (hg : ∀ slot : Slot, slot.admits (g slot) = true) (h : clash ss ts = true) :
    ss.map f ≠ ts.map g := by
  induction ss generalizing ts with
  | nil =>
      cases ts with
      | nil => cases h
      | cons t ts => exact fun hnil => nomatch hnil
  | cons s ss ih =>
      cases ts with
      | nil => exact fun hnil => nomatch hnil
      | cons t ts =>
          intro hmap
          obtain ⟨hhead, htail⟩ := List.cons.inj hmap
          rw [clash, apart_eq_false (hf s) (hhead ▸ hg t), Bool.false_or] at h
          exact ih h htail

end Slot

/-- Whether a layout is a register list, which has no slots. -/
def Shape.isRegisterList : Shape → Bool
  | .registerList _ _ => true
  | _ => false

theorem Operands.tokens_eq_map {shape : Shape} (h : shape.isRegisterList = false) (pc : UInt32)
    (words : List UInt16) : tokens shape pc words = shape.slots.map (slotToken shape pc words) := by
  cases shape with
  | registerList high reversed => cases h
  | _ => rfl

/-- Layouts whose slots clash are never written alike. -/
theorem Operands.tokens_ne_of_clash {shape shape' : Shape} (hlist : shape.isRegisterList = false)
    (hlist' : shape'.isRegisterList = false) (h : Slot.clash shape.slots shape'.slots = true)
    (pc pc' : UInt32) (words words' : List UInt16) :
    tokens shape pc words ≠ tokens shape' pc' words' := by
  rw [tokens_eq_map hlist, tokens_eq_map hlist']
  exact Slot.map_ne_map_of_clash (Slot.admits_slotToken shape pc words)
    (Slot.admits_slotToken shape' pc' words') h

end Disassembly
