import Disassembly.Proofs.LosslessListing
import Disassembly.Proofs.TerminatedStrings

/-!
# The data listing loses only padding

The texts of data tell what was read. A run of data is taken apart item by item, because where an
item lies depends on the lengths of the strings before it:

* **quoted bytes** — the spelling of a byte is read back from the front of any text
  (`Text.readByte?_escapeByte`), so a quoted string determines its characters
  (`Text.escapeBytes_inj`);
* **one item** — the operands of a line are read off it, also before a comment that both lines share
  (`Style.operands_eq_of_line_eq`). They determine the words of the item, or the characters of the
  string (`Decoder.datum_agrees`);
* **a run** — items that agree end at the same address, and there the next ones start
  (`Decoder.data_agree`).
-/

namespace Disassembly

/-! ## Quoted bytes -/

namespace Text

open Expression

/-- Reads the first byte of a quoted text back, and gives the rest of the text. -/
def readByte? : List Char → Option (UInt8 × List Char)
  | '\\' :: 't' :: rest => some (0x09, rest)
  | '\\' :: 'n' :: rest => some (0x0A, rest)
  | '\\' :: 'r' :: rest => some (0x0D, rest)
  | '\\' :: 'x' :: hi :: lo :: rest =>
    (digitsValue? 16 0 [hi, lo]).map fun value => (UInt8.ofNat value, rest)
  | '\\' :: c :: rest => some (UInt8.ofNat c.toNat, rest)
  | c :: rest => some (UInt8.ofNat c.toNat, rest)
  | [] => none

theorem readByte?_cons {c : Char} (h : c ≠ '\\') (rest : List Char) :
    readByte? (c :: rest) = some (UInt8.ofNat c.toNat, rest) := by
  unfold readByte?
  split <;> simp_all

theorem toNat_character : ∀ n < 256, (Char.ofNat n).toNat = n := by
  decide +kernel

theorem digitsValue?_byte :
    ∀ n < 256, digitsValue? 16 0 [Nat.digitChar (n / 16), Nat.digitChar (n % 16)] = some n := by
  decide +kernel

/-- A byte is read back from its spelling, whatever follows it. -/
theorem readByte?_escapeByte (b : UInt8) (rest : List Char) :
    readByte? (escapeByte b ++ rest) = some (b, rest) := by
  have hcharacter := toNat_character b.toNat b.toNat_lt
  unfold escapeByte
  split
  · next h => rw [h]; rfl
  split
  · next h => rw [h]; rfl
  split
  · next h => rw [h]; rfl
  split
  · next h =>
    simp only [Bool.or_eq_true, decide_eq_true_eq] at h
    rcases h with (rfl | rfl) | rfl <;> rfl
  split
  · next hquote _ =>
    have hne : Char.ofNat b.toNat ≠ '\\' := by
      intro heq
      rw [heq] at hcharacter
      obtain rfl : b = 0x5C := UInt8.toNat_inj.mp hcharacter.symm
      exact hquote rfl
    rw [List.singleton_append, readByte?_cons hne, hcharacter, UInt8.ofNat_toNat]
  · show (digitsValue? 16 0 [_, _]).map _ = _
    rw [digitsValue?_byte b.toNat b.toNat_lt, Option.map_some, UInt8.ofNat_toNat]
    rfl

/-- Quoted bytes that are written alike are equal. -/
theorem escapeBytes_inj {bs cs : List UInt8} (h : escapeBytes bs = escapeBytes cs) : bs = cs := by
  have hread : ∀ (b : UInt8) (bytes : List UInt8),
      readByte? (escapeBytes (b :: bytes)) = some (b, escapeBytes bytes) := fun b bytes =>
    readByte?_escapeByte b (escapeBytes bytes)
  have hnil : readByte? (escapeBytes []) = none := rfl
  induction bs generalizing cs with
  | nil =>
      cases cs with
      | nil => rfl
      | cons c cs =>
          rw [h, hread] at hnil
          cases hnil
  | cons b bs ih =>
      have hfirst := hread b bs
      cases cs with
      | nil =>
          rw [h, hnil] at hfirst
          cases hfirst
      | cons c cs =>
          rw [h, hread] at hfirst
          obtain ⟨rfl, hrest⟩ := Prod.mk.inj (Option.some.inj hfirst)
          rw [ih hrest.symm]

end Text

/-! ## The operands of a line -/

namespace Style

theorem line_eq_append (style : Style) (words : List UInt16) (mnemonic operands : String)
    (comment : Option String) :
    style.line words mnemonic operands comment =
      style.line words mnemonic operands none ++ (comment.map ("  ; " ++ ·)).getD "" := by
  unfold line
  cases comment with
  | none => simp
  | some c => simp

/-- Two lines with one mnemonic and one comment show the same operands when they are equal. -/
theorem operands_eq_of_line_eq {style : Style} {words words' : List UInt16}
    {mnemonic operands operands' : String} {comment : Option String}
    (hfits : FitsColumn mnemonic)
    (h : style.line words mnemonic operands comment =
      style.line words' mnemonic operands' comment) : operands = operands' := by
  rw [line_eq_append, line_eq_append style words', String.append_left_inj] at h
  exact (line_inj hfits hfits h).2

/-- The mnemonics of data fit into their column. -/
theorem fitsColumn_datum : ∀ mnemonic ∈ ["dl", "dw", "db", "ds"], FitsColumn mnemonic := by
  have hblank : ∀ mnemonic ∈ ["dl", "dw", "db", "ds"], ' ' ∉ mnemonic.toList := by decide
  have hshort : ∀ mnemonic ∈ ["dl", "dw", "db", "ds"], mnemonic.toList.length < 8 := by decide
  exact fun mnemonic hmem => ⟨hblank mnemonic hmem, hshort mnemonic hmem⟩

theorem numberWide_inj {style : Style} {width n n' : Nat}
    (h : style.numberWide width n = style.numberWide width n') : n = n' :=
  Token.numberWide_inj (congrArg String.toList h)

/-- Two numbers with a comma between them are read back as a run of tokens. -/
theorem numberWide_pair_inj {style : Style} {width m n m' n' : Nat}
    (h : style.numberWide width m ++ ", " ++ style.numberWide width n =
      style.numberWide width m' ++ ", " ++ style.numberWide width n') : m = m' ∧ n = n' := by
  let pair (m n : Nat) : List Token := [.number m, .mark .comma, .mark .space, .number n]
  have htext : ∀ m n : Nat, (pair m n).flatMap (Token.text style width) =
      (style.numberWide width m ++ ", " ++ style.numberWide width n).toList := by
    intro m n
    simp [pair, Mark.character, Operands.text_natural]
  have hspaced : ∀ m n : Nat, Token.Spaced (pair m n) := by
    intro m n
    simp [pair, Token.Spaced, Token.isMark]
  have hsame : (pair m n).flatMap (Token.text style width) =
      (pair m' n').flatMap (Token.text style width) := by
    rw [htext, htext, h]
  have htokens := Token.run_eq_of_text_eq (hspaced m n) (hspaced m' n') hsame
  simpa only [pair, List.cons.injEq, Token.number.injEq, Int.natCast_inj, and_true, true_and]
    using htokens

end Style

theorem Word.ofHalves_inj {hi lo hi' lo' : UInt16} (h : ofHalves hi lo = ofHalves hi' lo') :
    hi = hi' ∧ lo = lo' := by
  have hlo := lo.toNat_lt
  have hlo' := lo'.toNat_lt
  have hvalue := congrArg UInt32.toNat h
  rw [toNat_ofHalves, toNat_ofHalves] at hvalue
  exact ⟨UInt16.toNat_inj.mp (by omega), UInt16.toNat_inj.mp (by omega)⟩

theorem Word.eq_of_bytes_eq {w w' : UInt16} (hhi : (w >>> 8).toNat = (w' >>> 8).toNat)
    (hlo : (w &&& 0xFF).toNat = (w' &&& 0xFF).toNat) : w = w' := by
  have hdiv : ∀ v : UInt16, (v >>> 8).toNat = v.toNat / 256 := by
    intro v
    rw [UInt16.toNat_shiftRight]
    exact Nat.shiftRight_eq_div_pow _ 8
  have hmod : ∀ v : UInt16, (v &&& 0xFF).toNat = v.toNat % 256 := by
    intro v
    rw [UInt16.toNat_and]
    exact Nat.and_two_pow_sub_one_eq_mod _ 8
  rw [hdiv, hdiv] at hhi
  rw [hmod, hmod] at hlo
  exact UInt16.toNat_inj.mp (by omega)

/-! ## One item -/

/-- Two items of one kind agree: they lie at the same address, have the same length and the same
words, except for what fills a string up after its terminator. -/
structure Record.AgreesAs (kind : DataKind) (record record' : Record) : Prop where
  address : record.address = record'.address
  size : record.size = record'.size
  words : kind ≠ .string → record.words = record'.words
  characters : kind = .string → ∃ characters padding padding' : List UInt8,
    record.words.flatMap Word.toBytes = characters ++ 0 :: padding ∧
    record'.words.flatMap Word.toBytes = characters ++ 0 :: padding' ∧
    0 ∉ characters ∧ padding.length = padding'.length ∧ padding.length ≤ 1

theorem Record.AgreesAs.of_words_eq {kind : DataKind} {record record' : Record} {pc : UInt32}
    (hkind : kind ≠ .string) (h : record.LiesAt pc) (h' : record'.LiesAt pc)
    (hwords : record.words = record'.words) : record.AgreesAs kind record' := by
  refine ⟨?_, ?_, fun _ => hwords, fun hstring => absurd hstring hkind⟩
  · rw [h.address, h'.address]
  · rw [h.size, h'.size, hwords]

namespace Decoder

variable {decoder : Decoder} {memory memory' : Memory} {origin pc : UInt32}
  {record record' : Record}

/-- Data with one mnemonic and one comment show the same operands when they are written alike. -/
theorem datumRecord_operands_eq {words words' : List UInt16} {mnemonic operands operands' : String}
    {comment : Option String} {flow flow' : Option Flow}
    (hmnemonic : mnemonic ∈ ["dl", "dw", "db", "ds"])
    (h : (decoder.datumRecord pc words mnemonic operands comment flow).text =
      (decoder.datumRecord pc words' mnemonic operands' comment flow').text) :
    operands = operands' :=
  Style.operands_eq_of_line_eq (Style.fitsColumn_datum mnemonic hmnemonic) h

/-- A datum of 32 bits with the given comment. -/
def longRecord (decoder : Decoder) (pc : UInt32) (hi lo : UInt16) (comment : Option String)
    (flow : Option Flow) : Record :=
  decoder.datumRecord pc [hi, lo] "dl" (decoder.style.numberWide 8 (Word.ofHalves hi lo).toNat)
    comment flow

theorem long_eq_ok (hsymbols : decoder.symbols = ∅) (h : decoder.long memory pc = .ok record) :
    ∃ hi lo, record = decoder.longRecord pc hi lo none none := by
  obtain ⟨hi, _, h⟩ := bind_eq_ok_iff.mp h
  obtain ⟨lo, _, h⟩ := bind_eq_ok_iff.mp h
  rw [hsymbols, Operands.address_empty] at h
  exact ⟨hi, lo, (Except.ok.inj h).symm⟩

/-- The comment of a vector depends on its place in the table only. -/
theorem vector_eq_longRecord (hsymbols : decoder.symbols = ∅)
    (h : decoder.vector memory origin pc = .ok record) :
    ∃ hi lo flow,
      record = decoder.longRecord pc hi lo (decoder.vectorComment origin pc none) flow := by
  obtain ⟨hi, _, h⟩ := bind_eq_ok_iff.mp h
  obtain ⟨lo, _, h⟩ := bind_eq_ok_iff.mp h
  dsimp only at h
  rw [hsymbols, Operands.address_empty] at h
  exact ⟨hi, lo, _, (Except.ok.inj h).symm⟩

theorem longRecord_words_eq {hi lo hi' lo' : UInt16} {comment : Option String}
    {flow flow' : Option Flow}
    (h : (decoder.longRecord pc hi lo comment flow).text =
      (decoder.longRecord pc hi' lo' comment flow').text) : [hi, lo] = [hi', lo'] := by
  have hoperands := datumRecord_operands_eq (by decide) h
  have hvalue := UInt32.toNat_inj.mp (Style.numberWide_inj hoperands)
  obtain ⟨rfl, rfl⟩ := Word.ofHalves_inj hvalue
  rfl

theorem word_words_eq (h : decoder.word memory pc = .ok record)
    (h' : decoder.word memory' pc = .ok record') (htext : record.text = record'.text) :
    record.words = record'.words := by
  obtain ⟨w, _, h⟩ := bind_eq_ok_iff.mp h
  obtain ⟨w', _, h'⟩ := bind_eq_ok_iff.mp h'
  cases h
  cases h'
  have hoperands := datumRecord_operands_eq (by decide) htext
  obtain rfl := UInt16.toNat_inj.mp (Style.numberWide_inj hoperands)
  rfl

theorem bytes_words_eq (h : decoder.bytes memory pc = .ok record)
    (h' : decoder.bytes memory' pc = .ok record') (htext : record.text = record'.text) :
    record.words = record'.words := by
  obtain ⟨w, _, h⟩ := bind_eq_ok_iff.mp h
  obtain ⟨w', _, h'⟩ := bind_eq_ok_iff.mp h'
  cases h
  cases h'
  have hoperands := datumRecord_operands_eq (by decide) htext
  obtain ⟨hhi, hlo⟩ := Style.numberWide_pair_inj hoperands
  obtain rfl := Word.eq_of_bytes_eq hhi hlo
  rfl

theorem length_padding (memory : Memory) (pc : UInt32) (n : Nat) :
    (padding memory pc n).length = if n % 2 = 0 then 1 else 0 := by
  unfold padding
  split <;> rfl

/-- Strings that are written alike have the same characters, and so the same length. -/
theorem string_agrees (h : decoder.string memory pc = .ok record)
    (h' : decoder.string memory' pc = .ok record') (htext : record.text = record'.text) :
    record.AgreesAs .string record' := by
  obtain ⟨characters, hscan, haddress, hsize, hbytes, hline⟩ := string_eq_ok h
  obtain ⟨characters', _, haddress', hsize', hbytes', hline'⟩ := string_eq_ok h'
  rw [hline, hline'] at htext
  have hquoted := Style.operands_eq_of_line_eq (Style.fitsColumn_datum "ds" (by decide)) htext
  rw [String.append_left_inj, String.append_right_inj] at hquoted
  have hcharacters := Text.escapeBytes_inj (String.ofList_injective hquoted)
  obtain rfl : characters = characters' := Array.toList_inj.mp hcharacters
  have hpadding : (padding memory pc characters.size).length =
      (padding memory' pc characters.size).length := by
    rw [length_padding, length_padding]
  refine ⟨by rw [haddress, haddress'], by rw [hsize, hsize', hpadding], fun hne => absurd rfl hne,
    fun _ => ⟨characters.toList, _, _, hbytes, hbytes', ?_, hpadding, ?_⟩⟩
  · exact (Memory.stringAt_of_beforeZero? hscan).2.2
  · rw [length_padding]
    split <;> omega

theorem datum_agrees (hsymbols : decoder.symbols = ∅) {kind : DataKind}
    (h : decoder.datum memory origin kind pc = .ok record)
    (h' : decoder.datum memory' origin kind pc = .ok record') (htext : record.text = record'.text) :
    record.AgreesAs kind record' := by
  have hlies := datum_shape h
  have hlies' := datum_shape h'
  cases kind with
  | long =>
      obtain ⟨hi, lo, rfl⟩ := long_eq_ok hsymbols h
      obtain ⟨hi', lo', rfl⟩ := long_eq_ok hsymbols h'
      exact .of_words_eq (by decide) hlies hlies' (longRecord_words_eq htext)
  | word => exact .of_words_eq (by decide) hlies hlies' (word_words_eq h h' htext)
  | bytes => exact .of_words_eq (by decide) hlies hlies' (bytes_words_eq h h' htext)
  | string => exact string_agrees h h' htext
  | vector =>
      obtain ⟨hi, lo, flow, rfl⟩ := vector_eq_longRecord hsymbols h
      obtain ⟨hi', lo', flow', rfl⟩ := vector_eq_longRecord hsymbols h'
      exact .of_words_eq (by decide) hlies hlies' (longRecord_words_eq htext)

/-! ## A run of data -/

/-- Two runs of data that are written alike agree item by item: as long as they do, the next items
start at the same address. -/
theorem data_agree (hsymbols : decoder.symbols = ∅) {kinds : List DataKind}
    {records records' : List Record} (h : decoder.data memory origin kinds pc = .ok records)
    (h' : decoder.data memory' origin kinds pc = .ok records')
    (htext : records.map Record.text = records'.map Record.text) {i : Nat} {kind : DataKind}
    (hkind : kinds[i]? = some kind) (hrecord : records[i]? = some record)
    (hrecord' : records'[i]? = some record') : record.AgreesAs kind record' := by
  induction kinds generalizing pc records records' i with
  | nil => cases hkind
  | cons first kinds ih =>
      rw [data, bind_eq_ok_iff] at h h'
      obtain ⟨r, hr, h⟩ := h
      obtain ⟨rs, hrs, h⟩ := bind_eq_ok_iff.mp h
      obtain ⟨r', hr', h'⟩ := h'
      obtain ⟨rs', hrs', h'⟩ := bind_eq_ok_iff.mp h'
      cases h
      cases h'
      obtain ⟨hfirst, hrest⟩ := List.cons.inj htext
      have hagrees := datum_agrees hsymbols hr hr' hfirst
      cases i with
      | zero =>
          cases hkind
          cases hrecord
          cases hrecord'
          exact hagrees
      | succ i =>
          have hstop : r.stop = r'.stop := by
            rw [Record.stop, Record.stop, hagrees.address, hagrees.size]
          rw [← hstop] at hrs'
          exact ih hrs hrs' hrest hkind hrecord hrecord'

end Decoder

/-- **Lossless data.** Whatever the output flags, and without declared names: two images whose data
of the same kinds at the same address are written alike hold the same data there. There is one item
for each kind, and the items agree one by one in their addresses, their lengths and their words,
except for the byte that fills up a string after its terminator. -/
theorem data_text_determines_data (flags : OutputFlags) (origin pc : UInt32)
    (kinds : List DataKind) {image image' : Image} {records records' : List Record}
    (h : (Decoder.standard flags.style ∅).data image.memory origin kinds pc = .ok records)
    (h' : (Decoder.standard flags.style ∅).data image'.memory origin kinds pc = .ok records')
    (htext : records.map Record.text = records'.map Record.text) :
    records.length = kinds.length ∧ records'.length = kinds.length ∧
      ∀ (i : Nat) kind record record', kinds[i]? = some kind → records[i]? = some record →
        records'[i]? = some record' → record.AgreesAs kind record' := by
  refine ⟨(Decoder.data_shape h).1, (Decoder.data_shape h').1, ?_⟩
  intro i kind record record' hkind hrecord hrecord'
  exact Decoder.data_agree rfl h h' htext hkind hrecord hrecord'

/-- The records of a string of a quote and a backslash, padded with `pad`, and of the vector of
interrupt 254 after it. -/
def quotedItems (pad : UInt16) : List Record :=
  [{ address := 0x10
     words := [0x225C, pad]
     size := 4
     text := "ds      \"\\\"\\\\\""
     isCode := false
     flow := none },
   { address := 0x14
     words := [0x0000, 0x1234]
     size := 4
     text := "dl      0x00001234  ; interrupt 0xFE"
     isCode := false
     flow := some
      { kind := .call, target := some 0x1234, unconditional := false, delayed := false } }]

/-- Two images that differ only in the byte that fills up a string before a vector. -/
theorem data_text_determines_data_padding :
    let image (pad : UInt8) : Image := .ofBytes 0x10 #[0x22, 0x5C, 0, pad, 0x00, 0x00, 0x12, 0x34]
    let data (pad : UInt8) :=
      (Decoder.standard {} ∅).data (image pad).memory 0x10 [.string, .vector] 0x10
    data 0x11 = .ok (quotedItems 0x11) ∧ data 0x22 = .ok (quotedItems 0x22) ∧
      (quotedItems 0x11).map Record.text = (quotedItems 0x22).map Record.text ∧
      ∀ (i : Nat) kind record record', [DataKind.string, .vector][i]? = some kind →
        (quotedItems 0x11)[i]? = some record → (quotedItems 0x22)[i]? = some record' →
        record.AgreesAs kind record' := by
  intro image data
  have h : data 0x11 = .ok (quotedItems 0x11) := by decide +kernel
  have h' : data 0x22 = .ok (quotedItems 0x22) := by decide +kernel
  have htext : (quotedItems 0x11).map Record.text = (quotedItems 0x22).map Record.text := rfl
  exact ⟨h, h', htext, (data_text_determines_data {} 0x10 0x10 _ h h' htext).2.2⟩

end Disassembly
