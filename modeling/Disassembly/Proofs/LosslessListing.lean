import Disassembly.Proofs.Decoding
import Disassembly.Proofs.OperandWords

/-!
# The code listing loses nothing

Two instructions at one address are written alike exactly when they have the same words. The text of
a line is taken apart from left to right:

* **the line** — the words column has the same width for every record, and the mnemonic ends at the
  first blank, so a line determines its mnemonic and its operands (`Style.line_inj`);
* **the descriptor** — descriptors that share a mnemonic have layouts whose slots clash, so the
  mnemonic and the tokens of the operands determine the descriptor
  (`InstructionSet.eq_of_tokens_eq`);
* **the words** — the descriptor fixes the bits of the first word that its mask covers, and the
  tokens give back all the others (`InstructionSet.words_eq_of_tokens_eq`).
-/

namespace Disassembly

/-! ## The line -/

namespace Style

theorem length_wordColumn (words : List UInt16) : (wordColumn words).length = 15 := by
  have hcolumns : ∀ ws : List UInt16,
      (ws.flatMap fun w => (Text.hexPadded 4 w.toNat).toList ++ [' ']).length = 5 * ws.length := by
    intro ws
    induction ws with
    | nil => rfl
    | cons w ws ih =>
        rw [List.flatMap_cons, List.length_append, ih, List.length_append,
          Text.length_hexPadded_four w.toNat_lt, List.length_singleton, List.length_cons]
        omega
  have htake : (words.take 3).length ≤ 3 := List.length_take_le 3 words
  rw [wordColumn, List.rightpad, List.length_append, List.length_replicate, hcolumns]
  omega

/-- The mnemonic and the operands of a line. -/
def body (mnemonic operands : String) : List Char :=
  if operands = "" then mnemonic.toList else mnemonic.toList.rightpad 8 ' ' ++ operands.toList

theorem toList_line (style : Style) (words : List UInt16) (mnemonic operands : String) :
    (style.line words mnemonic operands none).toList =
      (if style.rawWords then wordColumn words else []) ++ body mnemonic operands := by
  unfold line body
  dsimp only
  rw [String.toList_append, String.toList_append]
  split <;> split <;> simp

/-- A mnemonic that ends before the column of the operands and holds no blank. -/
structure FitsColumn (mnemonic : String) : Prop where
  blank : ' ' ∉ mnemonic.toList
  short : mnemonic.toList.length < 8

theorem rightpad_eq_append {mnemonic : List Char} (h : mnemonic.length < 8) :
    ∃ blanks, mnemonic.rightpad 8 ' ' = mnemonic ++ ' ' :: blanks := by
  refine ⟨List.replicate (7 - mnemonic.length) ' ', ?_⟩
  have hlength : 8 - mnemonic.length = 7 - mnemonic.length + 1 := by omega
  rw [List.rightpad, hlength, List.replicate_succ]

/-- The mnemonic is what stands before the first blank. -/
theorem head_pieces_body {mnemonic : String} (hfits : FitsColumn mnemonic) (operands : String) :
    (Text.pieces ' ' (body mnemonic operands)).head? = some mnemonic.toList := by
  rw [body]
  split
  · rw [Text.pieces_of_not_mem hfits.blank]
    rfl
  · obtain ⟨blanks, hblanks⟩ := rightpad_eq_append hfits.short
    rw [hblanks, List.append_assoc, List.cons_append, Text.pieces_append,
      Text.pieces_of_not_mem hfits.blank]
    rfl

theorem body_inj {mnemonic mnemonic' operands operands' : String}
    (hfits : FitsColumn mnemonic) (hfits' : FitsColumn mnemonic')
    (h : body mnemonic operands = body mnemonic' operands') :
    mnemonic = mnemonic' ∧ operands = operands' := by
  have hhead := head_pieces_body hfits operands
  rw [h, head_pieces_body hfits' operands'] at hhead
  have hmnemonic : mnemonic = mnemonic' := (String.toList_inj.mp (Option.some.inj hhead)).symm
  subst hmnemonic
  refine ⟨rfl, ?_⟩
  -- a line without operands is shorter than the column where operands start
  have hlonger : ∀ text : List Char, mnemonic.toList ≠ mnemonic.toList.rightpad 8 ' ' ++ text := by
    intro text htext
    have hshort := hfits.short
    have hlen := congrArg List.length htext
    rw [List.length_append, List.length_rightpad] at hlen
    omega
  unfold body at h
  split at h <;> split at h
  · next hempty hempty' => rw [hempty, hempty']
  · exact absurd h (hlonger _)
  · exact absurd h.symm (hlonger _)
  · exact String.toList_inj.mp (List.append_cancel_left h)

/-- A line determines its mnemonic and its operands. -/
theorem line_inj {style : Style} {words words' : List UInt16}
    {mnemonic mnemonic' operands operands' : String}
    (hfits : FitsColumn mnemonic) (hfits' : FitsColumn mnemonic')
    (h : style.line words mnemonic operands none = style.line words' mnemonic' operands' none) :
    mnemonic = mnemonic' ∧ operands = operands' := by
  have htext := congrArg String.toList h
  rw [toList_line, toList_line] at htext
  refine body_inj hfits hfits' (List.append_inj_right htext ?_)
  split
  · rw [length_wordColumn, length_wordColumn]
  · rfl

end Style

/-! ## The descriptor -/

/-- A word is determined by the bits that select its descriptor and the bits below them. -/
theorem Descriptor.claims_inj {d : Descriptor} {n : Nat} {w w' : UInt16}
    (hmask : ∀ b < 16, n ≤ b → d.mask.toNat.testBit b = true) (h : d.claims w = true)
    (h' : d.claims w' = true) (hlow : w.toNat % 2 ^ n = w'.toNat % 2 ^ n) : w = w' := by
  have hhigh : w.toNat &&& d.mask.toNat = w'.toNat &&& d.mask.toNat := by
    rw [← UInt16.toNat_and, ← UInt16.toNat_and, eq_of_beq h, eq_of_beq h']
  refine UInt16.toNat_inj.mp (Nat.eq_of_testBit_eq fun b => ?_)
  -- a bit is below the mask, under the mask, or past the end of the word
  by_cases hfree : b < n
  · have hbit := congrArg (Nat.testBit · b) hlow
    simpa [Nat.testBit_mod_two_pow, hfree] using hbit
  · by_cases hb : b < 16
    · have hbit := congrArg (Nat.testBit · b) hhigh
      simpa [Nat.testBit_and, hmask b hb (by omega)] using hbit
    · have hpow : 2 ^ 16 ≤ 2 ^ b := Nat.pow_le_pow_right (by decide) (by omega)
      rw [Nat.testBit_lt_two_pow (Nat.lt_of_lt_of_le w.toNat_lt hpow),
        Nat.testBit_lt_two_pow (Nat.lt_of_lt_of_le w'.toNat_lt hpow)]

namespace InstructionSet

/-- Every descriptor that a first word can have. -/
def catalogue : List Descriptor :=
  .unknown :: descriptors

/-- What the descriptors have in common. -/
structure Regular (d : Descriptor) : Prop where
  fits : Style.FitsColumn d.mnemonic
  units : d.units = d.shape.wordsRead
  mask : ∀ b < 16, d.shape.freeBits ≤ b → d.mask.toNat.testBit b = true
  scale_pos : 0 < d.shape.scale
  scale_le : d.shape.scale ≤ 4

theorem regular {d : Descriptor} (h : d ∈ catalogue) : Regular d := by
  have hblank : ∀ d ∈ catalogue, ' ' ∉ d.mnemonic.toList := by decide +kernel
  have hshort : ∀ d ∈ catalogue, d.mnemonic.toList.length < 8 := by decide +kernel
  have hunits : ∀ d ∈ catalogue, d.units = d.shape.wordsRead := by decide +kernel
  have hmask : ∀ d ∈ catalogue, ∀ b < 16, d.shape.freeBits ≤ b →
      d.mask.toNat.testBit b = true := by decide +kernel
  have hscale : ∀ d ∈ catalogue, 0 < d.shape.scale ∧ d.shape.scale ≤ 4 := by decide +kernel
  exact ⟨⟨hblank d h, hshort d h⟩, hunits d h, hmask d h, (hscale d h).1, (hscale d h).2⟩

/-- Whether the mnemonics or the slots tell two descriptors apart. -/
def toldApart (d e : Descriptor) : Bool :=
  (!d.shape.isRegisterList && !e.shape.isRegisterList && Slot.clash d.shape.slots e.shape.slots)
    || d.mnemonic != e.mnemonic

theorem catalogue_toldApart : catalogue.Pairwise fun d e => toldApart d e = true := by
  decide +kernel

/-- The mnemonic and the tokens of the operands determine the descriptor. -/
theorem eq_of_tokens_eq {d e : Descriptor} (hd : d ∈ catalogue) (he : e ∈ catalogue)
    {pc : UInt32} {words words' : List UInt16} (hmnemonic : d.mnemonic = e.mnemonic)
    (htokens : Operands.tokens d.shape pc words = Operands.tokens e.shape pc words') : d = e := by
  -- `toldApart` is checked for each pair in one order only; what it means holds in both
  have hpairs : catalogue.Pairwise fun d e => ∀ words words', d.mnemonic = e.mnemonic →
      Operands.tokens d.shape pc words ≠ Operands.tokens e.shape pc words' := by
    refine catalogue_toldApart.imp fun {d e} hapart words words' hsame => ?_
    rw [toldApart, hsame, bne_self_eq_false, Bool.or_false, Bool.and_eq_true, Bool.and_eq_true,
      Bool.not_eq_true', Bool.not_eq_true'] at hapart
    obtain ⟨⟨hlist, hlist'⟩, hclash⟩ := hapart
    exact Operands.tokens_ne_of_clash hlist hlist' hclash pc pc words words'
  have hsymmetric : Std.Symm fun d e : Descriptor => ∀ words words', d.mnemonic = e.mnemonic →
      Operands.tokens d.shape pc words ≠ Operands.tokens e.shape pc words' :=
    ⟨fun d e h words words' hsame => (h words' words hsame.symm).symm⟩
  by_contra hne
  exact hpairs.forall hd he hne words words' hmnemonic htokens

/-- The descriptor and the tokens of the operands determine the words. -/
theorem words_eq_of_tokens_eq {d : Descriptor} (hd : d ∈ catalogue) {pc : UInt32}
    {first first' : UInt16} {rest rest' : List UInt16}
    (hclaims : d.claims first = true) (hclaims' : d.claims first' = true)
    (hlength : rest.length = d.extensions) (hlength' : rest'.length = d.extensions)
    (htokens : Operands.tokens d.shape pc (first :: rest) =
      Operands.tokens d.shape pc (first' :: rest')) :
    first :: rest = first' :: rest' := by
  have hregular := regular hd
  have hunits : ∀ ws : List UInt16, ws.length = d.extensions → ∀ w : UInt16,
      (w :: ws).length = d.shape.wordsRead := by
    intro ws hws w
    rw [List.length_cons, hws, ← hregular.units, Descriptor.units, Nat.add_comm]
  obtain ⟨hlow, hrest⟩ := Operands.words_eq_of_tokens_eq hregular.scale_pos hregular.scale_le
    (hunits rest hlength first) (hunits rest' hlength' first') htokens
  rw [Descriptor.claims_inj hregular.mask hclaims hclaims' hlow, hrest]

end InstructionSet

/-! ## The listing -/

namespace Decoder

/-- The decoder takes its descriptors from the instruction set, each for the words it claims. -/
def Catalogued (decoder : Decoder) : Prop :=
  ∀ first, decoder.descriptor first ∈ InstructionSet.catalogue ∧
    (decoder.descriptor first).claims first = true

theorem standard_catalogued (style : Style) (symbols : Symbols) :
    (standard style symbols).Catalogued := by
  intro first
  refine ⟨List.mem_cons.mpr (standard_descriptor style symbols first), ?_⟩
  rw [standard_eq, descriptor]
  dsimp only
  cases hfind : InstructionSet.find? first with
  | none => simp [Descriptor.claims, Descriptor.unknown]
  | some d =>
      rw [InstructionSet.find?] at hfind
      exact List.find?_some (p := fun d : Descriptor => d.claims first) hfind

theorem text_instruction {decoder : Decoder} (hsymbols : decoder.symbols = ∅) (d : Descriptor)
    (pc : UInt32) (words : List UInt16) :
    (decoder.instruction d pc words).text =
      decoder.style.line words d.mnemonic (String.ofList
        ((Operands.tokens d.shape pc words).flatMap
          (Token.text decoder.style d.shape.digits))) none := by
  unfold instruction
  dsimp only
  rw [hsymbols, Operands.text_eq_tokens]

/-- An instruction is determined by its address and its words. -/
theorem code_eq_of_words_eq {decoder : Decoder} {memory memory' : Memory} {pc : UInt32}
    {record record' : Record} (h : decoder.code memory pc = .ok record)
    (h' : decoder.code memory' pc = .ok record') (hwords : record.words = record'.words) :
    record = record' := by
  obtain ⟨first, rest, _, _, rfl⟩ := code_eq_ok h
  obtain ⟨first', rest', _, _, rfl⟩ := code_eq_ok h'
  obtain ⟨rfl, rfl⟩ := List.cons.inj (show first :: rest = first' :: rest' from hwords)
  rfl

/-- Without declared names, the words of an instruction are determined by its text. -/
theorem code_words_eq_of_text_eq {decoder : Decoder} (hcatalogued : decoder.Catalogued)
    (hsymbols : decoder.symbols = ∅) {memory memory' : Memory} {pc : UInt32}
    {record record' : Record} (h : decoder.code memory pc = .ok record)
    (h' : decoder.code memory' pc = .ok record') (htext : record.text = record'.text) :
    record.words = record'.words := by
  obtain ⟨first, rest, _, hrest, rfl⟩ := code_eq_ok h
  obtain ⟨first', rest', _, hrest', rfl⟩ := code_eq_ok h'
  obtain ⟨hd, hclaims⟩ := hcatalogued first
  obtain ⟨hd', hclaims'⟩ := hcatalogued first'
  rw [text_instruction hsymbols, text_instruction hsymbols] at htext
  obtain ⟨hmnemonic, hoperands⟩ := Style.line_inj (InstructionSet.regular hd).fits
    (InstructionSet.regular hd').fits htext
  have htokens := Token.run_eq_of_text_eq (Operands.spaced_tokens _ pc _)
    (Operands.spaced_tokens _ pc _) (String.ofList_injective hoperands)
  have hsame := InstructionSet.eq_of_tokens_eq hd hd' hmnemonic htokens
  rw [← hsame] at htokens hclaims' hrest'
  exact InstructionSet.words_eq_of_tokens_eq hd hclaims hclaims' (Memory.fetchMany_length hrest)
    (Memory.fetchMany_length hrest') htokens

end Decoder

/-- **Lossless code.** Whatever the output flags, and without declared names, two instructions
decoded at one address have the same text exactly when they have the same words. -/
theorem code_text_eq_iff_words_eq (flags : OutputFlags) (pc : UInt32) {memory memory' : Memory}
    {record record' : Record}
    (h : (Decoder.standard flags.style ∅).code memory pc = .ok record)
    (h' : (Decoder.standard flags.style ∅).code memory' pc = .ok record') :
    record.text = record'.text ↔ record.words = record'.words := by
  refine ⟨?_, ?_⟩
  · exact Decoder.code_words_eq_of_text_eq (Decoder.standard_catalogued flags.style ∅) rfl h h'
  · intro hwords
    rw [Decoder.code_eq_of_words_eq h h' hwords]

/-- The record of `LDI:20 #0x000123nn, R6` at the address zero, where `nn` is the last byte. -/
def longLoad (last : UInt8) : Record where
  address := 0
  words := [0x9B16, 0x2300 + last.toUInt16]
  size := 4
  text := "LDI:20  #0x000123" ++ Text.hexPadded 2 last.toNat ++ ", R6"
  isCode := true
  flow := none

/-- Two instructions that differ in their last bit only. -/
theorem code_text_eq_iff_words_eq_last_bit :
    let flags : OutputFlags := {}
    let memory (last : UInt8) : Memory := fun a => [0x9B, 0x16, 0x23, last][a.toNat]?
    (Decoder.standard flags.style ∅).code (memory 0x44) 0 = .ok (longLoad 0x44) ∧
      (Decoder.standard flags.style ∅).code (memory 0x45) 0 = .ok (longLoad 0x45) ∧
      ((longLoad 0x44).text = (longLoad 0x45).text ↔
        (longLoad 0x44).words = (longLoad 0x45).words) := by
  intro flags memory
  have h : (Decoder.standard flags.style ∅).code (memory 0x44) 0 = .ok (longLoad 0x44) := by
    rw [Decoder.standard_eq]
    decide +kernel
  have h' : (Decoder.standard flags.style ∅).code (memory 0x45) 0 = .ok (longLoad 0x45) := by
    rw [Decoder.standard_eq]
    decide +kernel
  exact ⟨h, h', code_text_eq_iff_words_eq flags 0 h h'⟩

end Disassembly
