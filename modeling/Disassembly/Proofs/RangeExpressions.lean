import Disassembly.Proofs.NumberForms
import Disassembly.Proofs.OptionValues
import Disassembly.Proofs.Trimming

/-!
# Reading written ranges back

A range with its content or file offset can be written down and read back, and whatever text was
read as a range can be written down again:

* **numbers** — `Spells` are the written forms of a number: decimal, or hexadecimal after `0x`. All
  of them are read as the number (`Spells.number`), and none holds a character that ends a part of
  an expression (`Spells.mem`);
* **spans** — `SpellsSpan` are the written forms of a span of addresses, with its end or with its
  length (`SpellsSpan.region`);
* **contents** — the name of every content that can be declared is read as that content
  (`contentName_name`).
-/

namespace Disassembly.Expression

/-! ## Numbers -/

/-- The written forms of a number: in decimal, and in hexadecimal after `0x`, with digits of either
case and any number of leading zeros. -/
inductive Spells (n : UInt32) : List Char → Prop
  | decimal : Spells n (Text.decimal n.toNat).toList
  | upper (width : Nat) : Spells n ('0' :: 'x' :: (Text.hexPadded width n.toNat).toList)
  | lower (width : Nat) : Spells n ('0' :: 'x' :: (Nat.toDigits 16 n.toNat).leftpad width '0')

/-- The characters of written numbers. -/
def numberCharacters : List Char :=
  "0123456789abcdefABCDEFx".toList

theorem denotes_toDigits {base : Nat} (hbase : 1 < base) (n : Nat) :
    Denotes base (Nat.toDigits base n) n := by
  induction n using Nat.base_induction base hbase with
  | single d hd =>
      rw [Nat.toDigits_of_lt_base hd]
      exact .digit hd (.inl rfl)
  | digit m d hd hm ih =>
      rw [← Nat.toDigits_append_toDigits hbase hm hd, Nat.toDigits_of_lt_base hd, Nat.mul_comm]
      exact .snoc ih hd (.inl rfl)

/-- Zeros before hexadecimal digits do not change the number. -/
theorem Denotes.leftpad {digits : List Char} {v : Nat} (h : Denotes 16 digits v) (width : Nat) :
    Denotes 16 (digits.leftpad width '0') v := by
  have hne : digits.leftpad width '0' ≠ [] := List.append_ne_nil_of_right_ne_nil _ h.ne_nil
  rw [← digitsValue?_eq_some_iff (by decide) hne, List.leftpad, Text.digitsValue?_zeros]
  exact (digitsValue?_eq_some_iff (by decide) h.ne_nil).mpr h

theorem denotes_hexDigits (n : Nat) : Denotes 16 (Text.hexDigits n) n := by
  have hne : Text.hexDigits n ≠ [] := by simp [Text.hexDigits]
  exact (digitsValue?_eq_some_iff (by decide) hne).mp (Text.digitsValue?_hexDigits n)

namespace Spells

variable {n : UInt32} {cs : List Char}

theorem mem_hex {digits : List Char} (h : ∀ c ∈ digits, c ∈ numberCharacters) :
    ∀ c ∈ '0' :: 'x' :: digits, c ∈ numberCharacters :=
  List.forall_mem_cons.mpr ⟨by decide, List.forall_mem_cons.mpr ⟨by decide, h⟩⟩

theorem mem (h : Spells n cs) : ∀ c ∈ cs, c ∈ numberCharacters := by
  have hdigit : ∀ d < 16, Nat.digitChar d ∈ numberCharacters := by decide
  have hhex : ∀ c ∈ Text.hexCharacters, c ∈ numberCharacters :=
    forall_mem_of_all (by decide)
  intro c hc
  cases h with
  | decimal =>
      rw [Text.decimal, String.toList_ofList] at hc
      obtain ⟨d, hd, rfl⟩ := Text.exists_of_mem_toDigits (by decide) hc
      exact hdigit d (by omega)
  | upper width => exact mem_hex (fun c hc => hhex c (Text.mem_hexPadded hc)) c hc
  | lower width =>
      refine mem_hex (fun c hc => ?_) c hc
      rcases List.mem_append.mp hc with hc | hc
      · rw [List.eq_of_mem_replicate hc]
        decide
      · obtain ⟨d, hd, rfl⟩ := Text.exists_of_mem_toDigits (by decide) hc
        exact hdigit d hd

/-- None of the characters that end a part of an expression stands in a number, nor does a blank. -/
theorem plain (h : Spells n cs) :
    ∀ c ∈ cs, c ≠ '-' ∧ c ≠ ',' ∧ c ≠ '=' ∧ Text.isBlank c = false := by
  have hall : ∀ c ∈ numberCharacters,
      c ≠ '-' ∧ c ≠ ',' ∧ c ≠ '=' ∧ Text.isBlank c = false :=
    forall_mem_of_all (by decide)
  intro c hc
  exact hall c (h.mem c hc)

theorem form (h : Spells n cs) : Form n.toNat 1 cs := by
  cases h with
  | decimal =>
      rw [Text.decimal, String.toList_ofList]
      simpa using Form.parts .decimal .none (denotes_toDigits (by decide) n.toNat) .none
  | upper width =>
      rw [Text.hexPadded, String.toList_ofList]
      simpa using Form.parts .lower .none ((denotes_hexDigits n.toNat).leftpad width) .none
  | lower width =>
      simpa using Form.parts .lower .none
        ((denotes_toDigits (by decide) n.toNat).leftpad width) .none

theorem ne_nil (h : Spells n cs) : cs ≠ [] :=
  h.form.ne_nil

/-- A written number is read as the number. -/
theorem number (h : Spells n cs) (option : Char) : Expression.number option cs = .ok n := by
  have htrim : Text.trim cs = cs := Text.trim_of_forall fun c hc => (h.plain c hc).2.2.2
  have hlt := n.toNat_lt
  rw [number_eq_ok_iff, numeral_eq_ok_iff, htrim]
  exact ⟨n.toNat, 1, h.form, hlt, by omega, by omega⟩

end Spells

/-! ## Spans of addresses -/

/-- The written forms of a span of addresses: its start with its end, or with its length. -/
inductive SpellsSpan (start stop : UInt32) : List Char → Prop
  | ends {first last : List Char} : Spells start first → Spells stop last →
      SpellsSpan start stop (first ++ '-' :: last)
  | length {first count : List Char} : Spells start first → Spells (stop - start) count →
      SpellsSpan start stop (first ++ ',' :: count)

/-- A range is read from the two sides of its first separator. -/
theorem region_of_sides {left right : List Char} {separator : Char} (option : Char)
    (hleft : ∀ c ∈ left, c ≠ '-' ∧ c ≠ ',') (hseparator : separator = '-' ∨ separator = ',') :
    region option (left ++ separator :: right) = (do
      let start ← number option left
      let second ← number option right
      let stop := if separator = ',' then start.toNat + second.toNat else second.toNat
      if 0x100000000 ≤ stop then reject option (left ++ separator :: right) .pastAddressSpace
      else if stop < start.toNat then
        reject option (left ++ separator :: right) .endsBeforeStart
      else return { start, stop := UInt32.ofNat stop }) := by
  have hinside : ∀ c ∈ left, decide (c ≠ '-' ∧ c ≠ ',') = true := by
    intro c hc
    exact decide_eq_true (hleft c hc)
  have hends : decide (separator ≠ '-' ∧ separator ≠ ',') = false := by
    rcases hseparator with rfl | rfl <;> decide
  have htake : (left ++ separator :: right).takeWhile (fun c => c ≠ '-' ∧ c ≠ ',') = left := by
    rw [List.takeWhile_append_of_pos hinside, List.takeWhile_cons_of_neg (by rw [hends]; decide),
      List.append_nil]
  have hdrop : (left ++ separator :: right).dropWhile (fun c => c ≠ '-' ∧ c ≠ ',') =
      separator :: right := by
    rw [List.dropWhile_append_of_pos hinside, List.dropWhile_cons_of_neg (by rw [hends]; decide)]
  unfold region
  simp only [htake, hdrop]

theorem region_of_sides_eq_ok_iff {left right : List Char} {separator : Char} {option : Char}
    {r : Region} (hleft : ∀ c ∈ left, c ≠ '-' ∧ c ≠ ',')
    (hseparator : separator = '-' ∨ separator = ',') :
    region option (left ++ separator :: right) = .ok r ↔
      ∃ start second stop, number option left = .ok start ∧ number option right = .ok second ∧
        (if separator = ',' then start.toNat + second.toNat else second.toNat) = stop.toNat ∧
        start ≤ stop ∧ r = { start, stop } := by
  rw [region_of_sides option hleft hseparator]
  constructor
  · intro h
    obtain ⟨start, hstart, h⟩ := bind_eq_ok_iff.mp h
    obtain ⟨second, hsecond, h⟩ := bind_eq_ok_iff.mp h
    refine ⟨start, second, ?_⟩
    generalize (if separator = ',' then start.toNat + second.toNat else second.toNat) = stop at h ⊢
    by_cases hpast : 0x100000000 ≤ stop
    · rw [if_pos hpast] at h
      cases h
    · rw [if_neg hpast] at h
      by_cases hbefore : stop < start.toNat
      · rw [if_pos hbefore] at h
        cases h
      · rw [if_neg hbefore] at h
        cases h
        have hstop := UInt32.toNat_ofNat_of_lt' (Nat.not_le.mp hpast)
        refine ⟨_, hstart, hsecond, hstop.symm, ?_, rfl⟩
        rw [UInt32.le_iff_toNat_le, hstop]
        exact Nat.not_lt.mp hbefore
  · rintro ⟨start, second, stop, hstart, hsecond, hstop, hordered, rfl⟩
    have hle := UInt32.le_iff_toNat_le.mp hordered
    have hlt := stop.toNat_lt
    rw [hstart, hsecond]
    simp only [bind, Except.bind, hstop]
    rw [if_neg (by omega), if_neg (by omega), UInt32.ofNat_toNat]
    rfl

/-- Two written numbers with a separator between them are read as a range, when what they say does
not end before it starts. -/
theorem region_of_numbers {start second stop : UInt32} {left right : List Char} {separator : Char}
    (option : Char) (hleft : Spells start left) (hright : Spells second right)
    (hseparator : separator = '-' ∨ separator = ',')
    (hstop : (if separator = ',' then start.toNat + second.toNat else second.toNat) = stop.toNat)
    (hordered : start ≤ stop) :
    region option (left ++ separator :: right) = .ok { start, stop } :=
  (region_of_sides_eq_ok_iff (fun c hc => ⟨(hleft.plain c hc).1, (hleft.plain c hc).2.1⟩)
    hseparator).mpr ⟨start, second, stop, hleft.number option, hright.number option, hstop,
      hordered, rfl⟩

namespace SpellsSpan

variable {start stop : UInt32} {cs : List Char}

/-- A written span is read as the span. -/
theorem region (h : SpellsSpan start stop cs) (hordered : start ≤ stop) (option : Char) :
    Expression.region option cs = .ok { start, stop } := by
  cases h with
  | ends hfirst hlast =>
      exact region_of_numbers option hfirst hlast (.inl rfl) (if_neg (by decide)) hordered
  | length hfirst hcount =>
      have hle := UInt32.le_iff_toNat_le.mp hordered
      have hsum : start.toNat + (stop - start).toNat = stop.toNat := by
        rw [UInt32.toNat_sub_of_le _ _ hordered]
        omega
      exact region_of_numbers option hfirst hcount (.inr rfl) ((if_pos rfl).trans hsum) hordered

theorem plain (h : SpellsSpan start stop cs) : ∀ c ∈ cs, c ≠ '=' ∧ Text.isBlank c = false := by
  have hplain : ∀ {n : UInt32} {number : List Char}, Spells n number →
      ∀ c ∈ number, c ≠ '=' ∧ Text.isBlank c = false :=
    fun hnumber c hc => (hnumber.plain c hc).2.2
  cases h with
  | ends hfirst hlast =>
      exact List.forall_mem_append.mpr
        ⟨hplain hfirst, List.forall_mem_cons.mpr ⟨by decide, hplain hlast⟩⟩
  | length hfirst hcount =>
      exact List.forall_mem_append.mpr
        ⟨hplain hfirst, List.forall_mem_cons.mpr ⟨by decide, hplain hcount⟩⟩

theorem ne_nil (h : SpellsSpan start stop cs) : cs ≠ [] := by
  cases h <;> simp

end SpellsSpan

/-- An assignment is cut at its first `=`, and blanks around its sides do not count. -/
theorem assignment_append {left right : List Char} (option : Char) (hleft : '=' ∉ left) :
    assignment option (left ++ '=' :: right) =
      if Text.trim left = [] ∨ Text.trim right = [] then
        reject option (left ++ '=' :: right) .notAnAssignment
      else .ok (Text.trim left, Text.trim right) := by
  have hinside : ∀ c ∈ left, decide (c ≠ '=') = true := by
    intro c hc
    exact decide_eq_true fun heq => hleft (heq ▸ hc)
  have htake : (left ++ '=' :: right).takeWhile (· ≠ '=') = left := by
    rw [List.takeWhile_append_of_pos hinside, List.takeWhile_cons_of_neg (by decide),
      List.append_nil]
  have hdrop : (left ++ '=' :: right).dropWhile (· ≠ '=') = '=' :: right := by
    rw [List.dropWhile_append_of_pos hinside, List.dropWhile_cons_of_neg (by decide)]
  unfold assignment
  simp only [htake, hdrop]

/-- An assignment is read from the two sides of its first `=`. -/
theorem assignment_of_sides {left right : List Char} (option : Char)
    (hleft : ∀ c ∈ left, c ≠ '=' ∧ Text.isBlank c = false) (hne : left ≠ [])
    (hright : ∀ c ∈ right, Text.isBlank c = false) (hne' : right ≠ []) :
    assignment option (left ++ '=' :: right) = .ok (left, right) := by
  rw [assignment_append option fun hmem => (hleft _ hmem).1 rfl,
    Text.trim_of_forall fun c hc => (hleft c hc).2, Text.trim_of_forall hright,
    if_neg (not_or.mpr ⟨hne, hne'⟩)]

/-! ## Contents -/

theorem mapM_ofLetter?_letter (ks : List DataKind) :
    (ks.map DataKind.letter).mapM DataKind.ofLetter? = some ks := by
  induction ks with
  | nil => rfl
  | cons k ks ih => rw [List.map_cons, List.mapM_cons, DataKind.ofLetter?_letter, ih]; rfl

/-- The letters of kinds are read as these kinds, none of them as a width. -/
theorem kinds_letters {ks : List DataKind} (hne : ks ≠ []) :
    kinds (ks.map DataKind.letter) = .ok ks := by
  -- a single letter could only be taken for a width if it were a digit
  have hdigit : ∀ c ∈ ['4', '2', '1'], ks.map DataKind.letter ≠ [c] := by
    intro c hc hletters
    obtain ⟨k, _, hk⟩ := List.map_eq_singleton_iff.mp hletters
    cases k <;> · subst hk; revert hc; decide
  unfold kinds
  split
  · next hnil => exact absurd (List.map_eq_nil_iff.mp hnil) hne
  · next hletters => exact absurd hletters (hdigit _ (by decide))
  · next hletters => exact absurd hletters (hdigit _ (by decide))
  · next hletters => exact absurd hletters (hdigit _ (by decide))
  · rw [mapM_ofLetter?_letter]

theorem splitVector_of_not_mem {cs : List Char} (h : ':' ∉ cs) : splitVector cs = (cs, false) := by
  unfold splitVector
  split
  · next r hreverse =>
      have hmem : ':' ∈ cs.reverse := by
        rw [hreverse]
        simp
      exact absurd (List.mem_reverse.mp hmem) h
  · rfl

/-- The characters of the names of contents. -/
def contentCharacters : List Char :=
  "CODETA/:LWBSV".toList

theorem toList_name_data {ks : List DataKind} (hvector : ks ≠ [.vector]) (hlong : ks ≠ [.long]) :
    (Content.data ks).name.toList =
      ['D', 'A', 'T', 'A'] ++ '/' :: ks.map DataKind.letter := by
  have hname : (Content.data ks).name = "DATA/" ++ String.ofList (ks.map DataKind.letter) := by
    unfold Content.name
    split
    · next h => cases h
    · next h => cases h; exact absurd rfl hvector
    · next h => cases h; exact absurd rfl hlong
    · next h => cases h; rfl
  rw [hname, String.toList_append]
  exact congrArg ("DATA/".toList ++ ·) String.toList_ofList

theorem mem_name (c : Content) : ∀ x ∈ c.name.toList, x ∈ contentCharacters := by
  have hdata : ∀ x ∈ ['D', 'A', 'T', 'A'], x ∈ contentCharacters :=
    forall_mem_of_all (by decide)
  cases c with
  | code => exact forall_mem_of_all (by decide)
  | data ks =>
      by_cases hvector : ks = [.vector]
      · subst hvector
        exact forall_mem_of_all (by decide)
      · by_cases hlong : ks = [.long]
        · subst hlong
          exact forall_mem_of_all (by decide)
        · intro x hx
          rw [toList_name_data hvector hlong] at hx
          rcases List.mem_append.mp hx with hx | hx
          · exact hdata x hx
          · rcases List.mem_cons.mp hx with rfl | hx
            · decide
            · obtain ⟨k, _, rfl⟩ := List.mem_map.mp hx
              cases k <;> decide

/-- The name of a content that can be declared is read as that content. -/
theorem contentName_name {c : Content} (h : c.Declarable) : contentName c.name.toList = .ok c := by
  have hplain : ∀ x ∈ contentCharacters, Text.isBlank x = false ∧ x.toUpper = x :=
    forall_mem_of_all (by decide)
  have htrim : Text.trim c.name.toList = c.name.toList :=
    Text.trim_of_forall fun x hx => (hplain x (mem_name c x hx)).1
  have hupper : c.name.toList.map Char.toUpper = c.name.toList := by
    rw [List.map_congr_left fun x hx => (hplain x (mem_name c x hx)).2, List.map_id']
  rw [contentName, htrim, hupper]
  cases c with
  | code => decide
  | data ks =>
      by_cases hvector : ks = [.vector]
      · subst hvector
        decide
      · by_cases hlong : ks = [.long]
        · subst hlong
          decide
        · have hcolon : ':' ∉ '/' :: ks.map DataKind.letter := by
            intro hmem
            rcases List.mem_cons.mp hmem with hmem | hmem
            · revert hmem
              decide
            · obtain ⟨k, _, hk⟩ := List.mem_map.mp hmem
              cases k <;> · revert hk; decide
          rw [toList_name_data hvector hlong]
          show dataContent ('/' :: ks.map DataKind.letter) = _
          rw [dataContent, splitVector_of_not_mem hcolon]
          show (kinds (ks.map DataKind.letter)).map _ = _
          rw [kinds_letters h]
          rfl

/-! ## Whole expressions -/

theorem typedRegion_of_span {start stop : UInt32} {span : List Char} {c : Content}
    (hspan : SpellsSpan start stop span) (hordered : start ≤ stop) (hc : c.Declarable)
    (option : Char) :
    typedRegion option (span ++ '=' :: c.name.toList) = .ok { start, stop, content := c } := by
  have hblank : ∀ x ∈ contentCharacters, Text.isBlank x = false :=
    forall_mem_of_all (by decide)
  have hname := contentName_name hc
  have hne : c.name.toList ≠ [] := by
    intro hnil
    rw [hnil] at hname
    cases hname
  rw [typedRegion, assignment_of_sides option hspan.plain hspan.ne_nil
    (fun x hx => hblank x (mem_name c x hx)) hne]
  show (region option span >>= fun r => content option c.name.toList >>= fun c =>
    Except.ok { r with content := c }) = _
  rw [hspan.region hordered, content, hname]
  rfl

theorem placedRegion_of_span {start stop offset : UInt32} {span text : List Char}
    (hspan : SpellsSpan start stop span) (hordered : start ≤ stop) (htext : Spells offset text)
    (option : Char) :
    placedRegion option (span ++ '=' :: text) = .ok { start, stop, fileOffset := offset } := by
  rw [placedRegion, assignment_of_sides option hspan.plain hspan.ne_nil
    (fun x hx => (htext.plain x hx).2.2.2) htext.ne_nil]
  show (region option span >>= fun r => number option text >>= fun n =>
    Except.ok { r with fileOffset := n }) = _
  rw [hspan.region hordered, htext.number]
  rfl

/-- **Ranges read back.** A span of addresses that does not end before it starts, written with its
end or with its length and with numbers in decimal or hexadecimal, is read back with whatever
content or file offset is assigned to it. Conversely, every text that is read as a range with a
content gives such a span and a content that can be declared, so the range can be written in any of
these ways and is read back unchanged. -/
theorem written_ranges_read_back (option : Char) :
    (∀ start stop : UInt32, start ≤ stop → ∀ span, SpellsSpan start stop span →
      (∀ c : Content, c.Declarable →
        typedRegion option (span ++ '=' :: c.name.toList) = .ok { start, stop, content := c }) ∧
      ∀ (offset : UInt32) (text : List Char), Spells offset text →
        placedRegion option (span ++ '=' :: text) =
          .ok { start, stop, fileOffset := offset }) ∧
    ∀ (token : List Char) (r : Region), typedRegion option token = .ok r →
      r.start ≤ r.stop ∧ r.content.Declarable ∧ ∀ span, SpellsSpan r.start r.stop span →
        typedRegion option (span ++ '=' :: r.content.name.toList) = .ok r := by
  refine ⟨?_, ?_⟩
  · intro start stop hordered span hspan
    refine ⟨?_, ?_⟩
    · intro c hc
      exact typedRegion_of_span hspan hordered hc option
    · intro offset text htext
      exact placedRegion_of_span hspan hordered htext option
  · intro token r hread
    obtain ⟨hordered, hcontent, hoffset⟩ := typedRegion_declarable hread
    refine ⟨hordered, hcontent, ?_⟩
    intro span hspan
    rw [typedRegion_of_span hspan hordered hcontent, ← hoffset]

/-- A span with one number in each base, a list of kinds that ends in a vector, and a text with
blanks, a sign and a width in it. -/
theorem written_ranges_read_back_mixed :
    SpellsSpan 0x100 0x800 "0x00000100-2048".toList ∧
      typedRegion 'm' "0x00000100-2048=DATA/LSV".toList =
        .ok { start := 0x100, stop := 0x800, content := .data [.long, .string, .vector] } ∧
      placedRegion 'i' "0x00000100-2048=0xBEEF".toList =
        .ok { start := 0x100, stop := 0x800, fileOffset := 0xBEEF } ∧
      typedRegion 'm' " 0x+100 , 1792 = data/4:v ".toList =
        .ok { start := 0x100, stop := 0x800, content := .data [.vector] } ∧
      typedRegion 'm' "0x00000100-2048=DATA:V".toList =
        .ok { start := 0x100, stop := 0x800, content := .data [.vector] } := by
  have hfirst : Spells 0x100 "0x00000100".toList := .lower 8
  have hlast : Spells 0x800 "2048".toList := .decimal
  have hoffset : Spells 0xBEEF "0xBEEF".toList := .upper 0
  have hspan : SpellsSpan 0x100 0x800 "0x00000100-2048".toList := .ends hfirst hlast
  have hread : typedRegion 'm' " 0x+100 , 1792 = data/4:v ".toList =
      .ok { start := 0x100, stop := 0x800, content := .data [.vector] } := by decide
  refine ⟨hspan, ?_, ?_, hread, ?_⟩
  · have hkinds : (Content.data [.long, .string, .vector]).Declarable := List.cons_ne_nil _ _
    have htext : "0x00000100-2048=DATA/LSV".toList = "0x00000100-2048".toList ++
        '=' :: (Content.data [.long, .string, .vector]).name.toList := by decide +kernel
    rw [htext]
    exact ((written_ranges_read_back 'm').1 _ _ (by decide) _ hspan).1 _ hkinds
  · exact ((written_ranges_read_back 'i').1 _ _ (by decide) _ hspan).2 _ _ hoffset
  · exact ((written_ranges_read_back 'm').2 _ _ hread).2.2 _ hspan

end Disassembly.Expression
