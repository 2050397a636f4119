import Disassembly.Proofs.RangeExpressions

/-!
# Vector tables given by their address

A vector table is declared by completing the text of its address to a range with a content, and the
whole is read as any other such range. Nothing that stands in the address can change what it is
completed to:

* **contents** — a text with a comma in it is no content, so an `=` in the address, which would make
  the rest of the completion part of a content, is rejected (`content_eq_ok_plain`);
* **numbers** — a text with a separator in it is no number, so a `-` or `,` in the address, which
  would make the rest of the completion part of a number, is rejected (`number_eq_ok_plain`);
* **tables** — what is left is the address itself, followed by the length of the table
  (`region_of_length_eq_ok_iff`).
-/

namespace Disassembly.Expression

variable {option : Char} {token : List Char}

/-! ## What numbers and contents do not hold -/

theorem ScaleLetter.not_mem {letter : List Char} {scale : Nat} (h : ScaleLetter letter scale)
    {c : Char} (hc : c ∉ ['K', 'k', 'M', 'm']) : c ∉ letter := by
  cases h with
  | none => exact List.not_mem_nil
  | kilo hletter =>
      rintro hmem
      rw [List.mem_singleton.mp hmem] at hc
      rcases hletter with rfl | rfl <;> simp at hc
  | mega hletter =>
      rintro hmem
      rw [List.mem_singleton.mp hmem] at hc
      rcases hletter with rfl | rfl <;> simp at hc

/-- The characters that separate the parts of a range with a content. -/
def separators : List Char :=
  ['-', ',', '=']

theorem Form.not_mem {v scale : Nat} {cs : List Char} (h : Form v scale cs) {c : Char}
    (hc : c ∈ separators) : c ∉ cs := by
  have hplain : ∀ c ∈ separators, c ∉ ['0', 'x', 'X'] ∧ c ≠ '+' ∧ c ∉ ['K', 'k', 'M', 'm'] ∧
      c ∉ digitCharacters := forall_mem_of_all (by decide)
  obtain ⟨hnoMark, hnoSign, hnoLetter, hnoDigit⟩ := hplain c hc
  obtain ⟨hmark, hsign, hdigits, hletter⟩ := h
  simp only [List.mem_append, not_or]
  exact ⟨⟨⟨hmark.not_mem hnoMark, hsign.not_mem hnoSign⟩, hdigits.not_mem hmark.le hnoDigit⟩,
    hletter.not_mem hnoLetter⟩

theorem isBlank_separator {c : Char} (hc : c ∈ separators) : Text.isBlank c = false := by
  have hall : ∀ c ∈ separators, Text.isBlank c = false := forall_mem_of_all (by decide)
  exact hall c hc

/-- No separator stands in a number. -/
theorem number_eq_ok_plain {n : UInt32} (h : number option token = .ok n) {c : Char}
    (hc : c ∈ separators) : c ∉ token := by
  obtain ⟨v, scale, hform, _⟩ := numeral_eq_ok_iff.mp (number_eq_ok_iff.mp h)
  rw [← Text.mem_trim_iff (isBlank_separator hc)]
  exact hform.not_mem hc

theorem mapM_eq_some_isSome {α β : Type} {f : α → Option β} {as : List α} {bs : List β}
    (h : as.mapM f = some bs) : ∀ a ∈ as, ∃ b, f a = some b := by
  induction as generalizing bs with
  | nil => simp
  | cons a as ih =>
      rw [List.mapM_cons] at h
      obtain ⟨b, hb, h⟩ := Option.bind_eq_some_iff.mp h
      obtain ⟨bs, hbs, _⟩ := Option.bind_eq_some_iff.mp h
      exact List.forall_mem_cons.mpr ⟨⟨b, hb⟩, ih hbs⟩

theorem kinds_eq_ok_plain {letters : List Char} {ks : List DataKind} (h : kinds letters = .ok ks) :
    ',' ∉ letters := by
  unfold kinds at h
  split at h
  · cases h
  · simp
  · simp
  · simp
  · split at h
    · next read hread =>
        -- every letter gives a kind, and the comma gives none
        intro hmem
        obtain ⟨k, hk⟩ := mapM_eq_some_isSome hread _ hmem
        cases hk
    · cases h

theorem splitVector_cut (cs : List Char) :
    cs = (splitVector cs).1 ++ if (splitVector cs).2 then [':', 'V'] else [] := by
  unfold splitVector
  split
  · next r hreverse =>
      rw [← List.reverse_reverse cs, hreverse]
      simp
  · simp

theorem dataContent_eq_ok_plain {cs : List Char} {c : Content} (h : dataContent cs = .ok c) :
    ',' ∉ cs := by
  have hwidth : ',' ∉ (splitVector cs).1 := by
    obtain ⟨ks, hread, _⟩ := map_eq_ok h
    split at hread
    · next hnil =>
        have hnil : (splitVector cs).1 = [] := hnil
        simp [hnil]
    · next letters hletters =>
        have hletters : (splitVector cs).1 = '/' :: letters := hletters
        simpa [hletters] using kinds_eq_ok_plain hread
    · cases hread
  rw [splitVector_cut cs, List.mem_append, not_or]
  refine ⟨hwidth, ?_⟩
  split <;> simp

/-- No comma stands in a content. -/
theorem content_eq_ok_plain {c : Content} (h : content option token = .ok c) : ',' ∉ token := by
  unfold content at h
  split at h
  · next c' hname =>
      intro hmem
      have hupper : ',' ∈ (Text.trim token).map Char.toUpper :=
        List.mem_map.mpr ⟨',', (Text.mem_trim_iff (by decide)).mpr hmem, by decide⟩
      unfold contentName at hname
      split at hname
      · next hcode => simp [hcode] at hupper
      · next rest hdata =>
          refine dataContent_eq_ok_plain hname ?_
          simpa [hdata] using hupper
      · cases hname
  · cases h

/-! ## The completed text -/

/-- What stands before the length of a range holds no separator: cut at the first one, the second
number of the range would hold the comma. -/
theorem plain_of_region_of_length {cs text : List Char} {r : Region}
    (h : region option (cs ++ ',' :: text) = .ok r) : ∀ c ∈ cs, c ≠ '-' ∧ c ≠ ',' := by
  cases hfind : cs.find? fun c => decide (c = '-' ∨ c = ',') with
  | none =>
      intro c hc
      have hmiss := List.find?_eq_none.mp hfind c hc
      simpa using hmiss
  | some separator =>
      obtain ⟨hseparator, left, right, rfl, hleft⟩ := List.find?_eq_some_iff_append.mp hfind
      have hleft : ∀ c ∈ left, c ≠ '-' ∧ c ≠ ',' := fun c hc => by simpa using hleft c hc
      rw [List.append_assoc, List.cons_append,
        region_of_sides_eq_ok_iff hleft (of_decide_eq_true hseparator)] at h
      obtain ⟨_, _, _, _, hsecond, _⟩ := h
      exact absurd (by simp) (number_eq_ok_plain hsecond (c := ',') (by decide))

/-- A range given by its length is read when its start is a number and its end is an address. -/
theorem region_of_length_eq_ok_iff {count : UInt32} {text cs : List Char} {r : Region}
    (htext : Spells count text) :
    region option (cs ++ ',' :: text) = .ok r ↔
      ∃ n, number option cs = .ok n ∧ n.toNat + count.toNat < 0x100000000 ∧
        r = { start := n, stop := n + count } := by
  constructor
  · intro h
    rw [region_of_sides_eq_ok_iff (plain_of_region_of_length h) (.inr rfl)] at h
    obtain ⟨start, second, stop, hstart, hsecond, hstop, _, rfl⟩ := h
    rw [htext.number] at hsecond
    cases hsecond
    have hstop : start.toNat + count.toNat = stop.toNat := hstop
    have hlt : start.toNat + count.toNat < 0x100000000 := hstop ▸ stop.toNat_lt
    have heq : stop = start + count := by
      rw [← UInt32.toNat_inj, UInt32.toNat_add, Nat.mod_eq_of_lt hlt, hstop]
    exact ⟨start, hstart, hlt, by rw [heq]⟩
  · rintro ⟨n, hn, hlt, rfl⟩
    have hplain : ∀ c ∈ cs, c ≠ '-' ∧ c ≠ ',' := by
      intro c hc
      constructor
      · rintro rfl
        exact number_eq_ok_plain hn (by decide) hc
      · rintro rfl
        exact number_eq_ok_plain hn (by decide) hc
    have hstop : (n + count).toNat = n.toNat + count.toNat := by
      rw [UInt32.toNat_add, Nat.mod_eq_of_lt hlt]
    rw [region_of_sides_eq_ok_iff hplain (.inr rfl)]
    refine ⟨n, count, n + count, hn, htext.number option, hstop.symm, ?_, rfl⟩
    rw [UInt32.le_iff_toNat_le, hstop]
    omega

/-- What the address of a vector table is completed with, up to the content. -/
def vectorTableLength : List Char :=
  ['0', 'x', '4', '0', '0']

theorem spells_vectorTableLength : Spells 0x400 vectorTableLength :=
  .upper 0

theorem numeral_trim (token : List Char) : numeral (Text.trim token) = numeral token := by
  unfold numeral
  rw [(Text.trimmed_trim token).trim_eq]

theorem number_trim_eq_ok_iff {n : UInt32} :
    number option (Text.trim token) = .ok n ↔ number option token = .ok n := by
  rw [number_eq_ok_iff, number_eq_ok_iff, numeral_trim]

/-- An address without an `=` is the start of a range whose length and content are fixed. -/
theorem vectorTable_of_not_mem (h : '=' ∉ token) :
    vectorTable option token = (do
      let r ← region option (Text.trim token ++ ',' :: vectorTableLength)
      return { r with content := .data [.vector] }) := by
  have hassignment : assignment option (Text.trim token ++ vectorTableSuffix) =
      .ok (Text.trim token ++ ',' :: vectorTableLength, ['D', 'A', 'T', 'A', ':', 'V']) := by
    have hleft : '=' ∉ Text.trim token ++ ',' :: vectorTableLength := by
      rw [List.mem_append, not_or, Text.mem_trim_iff (by decide)]
      exact ⟨h, by decide⟩
    have htrim : Text.trim (Text.trim token ++ ',' :: vectorTableLength) =
        Text.trim token ++ ',' :: vectorTableLength :=
      ((Text.trimmed_trim token).append (by decide)).trim_eq
    have hcut : Text.trim token ++ vectorTableSuffix =
        (Text.trim token ++ ',' :: vectorTableLength) ++ '=' :: ['D', 'A', 'T', 'A', ':', 'V'] := by
      simp [vectorTableSuffix, vectorTableLength]
    have hcontent : Text.trim ['D', 'A', 'T', 'A', ':', 'V'] = ['D', 'A', 'T', 'A', ':', 'V'] := by
      decide
    rw [hcut, assignment_append option hleft, htrim, hcontent, if_neg (by simp)]
  unfold vectorTable typedRegion
  rw [hassignment]
  rfl

/-- With an `=` in the address, the content would hold the comma before the length. -/
theorem vectorTable_of_mem (h : '=' ∈ token) (r : Region) : vectorTable option token ≠ .ok r := by
  intro hread
  obtain ⟨left, right, _, c, hassignment, _, hcontent, _⟩ := typedRegion_eq_ok hread
  obtain ⟨front, back, hcut, hfront⟩ :=
    List.eq_append_cons_of_mem ((Text.mem_trim_iff (by decide)).mpr h)
  rw [hcut, List.append_assoc, List.cons_append, assignment_append option hfront] at hassignment
  split at hassignment
  · cases hassignment
  · cases hassignment
    refine content_eq_ok_plain hcontent ?_
    rw [Text.mem_trim_iff (by decide), List.mem_append]
    exact .inr (by decide)

theorem vectorTable_eq_ok_iff {r : Region} :
    vectorTable option token = .ok r ↔
      ∃ n : UInt32, number option token = .ok n ∧ n.toNat + 0x400 < 0x100000000 ∧
        r = { start := n, stop := n + 0x400, content := .data [.vector] } := by
  by_cases hmem : '=' ∈ token
  · constructor
    · intro h
      exact absurd h (vectorTable_of_mem hmem r)
    · rintro ⟨n, hn, _⟩
      exact absurd hmem (number_eq_ok_plain hn (by decide))
  · rw [vectorTable_of_not_mem hmem]
    constructor
    · intro h
      obtain ⟨span, hspan, h⟩ := bind_eq_ok_iff.mp h
      obtain ⟨n, hn, hlt, rfl⟩ := (region_of_length_eq_ok_iff spells_vectorTableLength).mp hspan
      cases h
      exact ⟨n, number_trim_eq_ok_iff.mp hn, hlt, rfl⟩
    · rintro ⟨n, hn, hlt, rfl⟩
      have hspan := (region_of_length_eq_ok_iff spells_vectorTableLength).mpr
        ⟨n, number_trim_eq_ok_iff.mpr hn, hlt, rfl⟩
      rw [hspan]
      rfl

/-- **Vector tables start at a number.** The text of an address declares a vector table exactly when
it is a number and the address behind the table does not exceed 32 bits. The table then takes up
`0x400` bytes from that number on, all of them interrupt vectors, and has no file offset. No other
text is completed to a range, in particular none that holds a separator. -/
theorem vector_tables_start_at_number (option : Char) (token : List Char) :
    (∀ r : Region, vectorTable option token = .ok r ↔
      ∃ n : UInt32, number option token = .ok n ∧ n.toNat + 0x400 < 0x100000000 ∧
        r = { start := n, stop := n + 0x400, fileOffset := 0, content := .data [.vector] }) ∧
    ∀ c ∈ separators, c ∈ token → ∀ r, vectorTable option token ≠ .ok r := by
  refine ⟨fun r => vectorTable_eq_ok_iff, ?_⟩
  intro c hc hmem r h
  obtain ⟨n, hn, _⟩ := vectorTable_eq_ok_iff.mp h
  exact number_eq_ok_plain hn hc hmem

/-- The last table that fits, its address with blanks, a sign and a scale; and an address that ends
in a range with a content, to which the completion would only add letters. -/
theorem vector_tables_start_at_number_smuggled :
    vectorTable 't' " 0x+3FFFFEk ".toList =
      .ok { start := 0xFFFFF800, stop := 0xFFFFFC00, fileOffset := 0, content := .data [.vector] } ∧
      vectorTable 't' "4194303K".toList = reject 't' "4194303K,0x400".toList .pastAddressSpace ∧
      ('=' ∈ separators ∧ '=' ∈ "0-4=DATA/".toList) ∧
      ∀ r, vectorTable 't' "0-4=DATA/".toList ≠ .ok r := by
  have hnumber : number 't' " 0x+3FFFFEk ".toList = .ok 0xFFFFF800 := by decide
  have hmem : '=' ∈ separators ∧ '=' ∈ "0-4=DATA/".toList := by decide
  refine ⟨?_, by decide, hmem, ?_⟩
  · exact ((vector_tables_start_at_number 't' _).1 _).mpr ⟨0xFFFFF800, hnumber, by decide, rfl⟩
  · exact (vector_tables_start_at_number 't' _).2 '=' hmem.1 hmem.2

end Disassembly.Expression
