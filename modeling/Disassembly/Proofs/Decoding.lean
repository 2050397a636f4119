import Disassembly.Trace
import Mathlib.Data.List.Basic

/-!
# What decoding gives

The shape of everything a decoder returns, whatever the memory, the style and the declared names:

* **records** — an instruction or datum decoded at `pc` has the address `pc`, at least one word, and
  two bytes for every word (`Decoder.code_shape`, `Decoder.datum_shape`);
* **runs of data** — a list of kinds gives one such record for each kind (`Decoder.data_shape`);
* **passes** — a pass starts where it was asked for and has a positive even length
  (`Decoder.pass_start`, `Decoder.pass_size`).
-/

namespace Disassembly

/-- A computation that binds succeeds exactly when both of its parts do. -/
theorem bind_eq_ok_iff {ε α β : Type} {x : Except ε α} {f : α → Except ε β} {b : β} :
    x >>= f = .ok b ↔ ∃ a, x = .ok a ∧ f a = .ok b := by
  cases x with
  | error e => exact ⟨fun h => (nomatch h), fun ⟨_, h, _⟩ => (nomatch h)⟩
  | ok a => exact ⟨fun h => ⟨a, rfl, h⟩, fun ⟨_, h, hb⟩ => by cases h; exact hb⟩

/-- A record that was decoded at `pc`: it has words, and two bytes for each of them. -/
structure Record.LiesAt (record : Record) (pc : UInt32) : Prop where
  address : record.address = pc
  size : record.size = 2 * record.words.length
  nonempty : record.words ≠ []

theorem Record.LiesAt.size_pos {record : Record} {pc : UInt32} (h : record.LiesAt pc) :
    0 < record.size := by
  have hlength := List.length_pos_iff.mpr h.nonempty
  rw [h.size]
  omega

namespace Memory

theorem fetchMany_length {memory : Memory} {n : Nat} {a : UInt32} {words : List UInt16}
    (h : memory.fetchMany n a = .ok words) : words.length = n := by
  induction n generalizing a words with
  | zero =>
      cases h
      rfl
  | succ n ih =>
      rw [fetchMany, bind_eq_ok_iff] at h
      obtain ⟨w, _, h⟩ := h
      obtain ⟨ws, hws, h⟩ := bind_eq_ok_iff.mp h
      cases h
      rw [List.length_cons, ih hws]

end Memory

/-! ## Instructions -/

namespace Decoder

/-- What a decoded instruction is made of: a first word, and the words that its descriptor asks
for. -/
theorem code_eq_ok {decoder : Decoder} {memory : Memory} {pc : UInt32} {record : Record}
    (h : decoder.code memory pc = .ok record) :
    ∃ first rest, memory.fetch pc = .ok first ∧
      memory.fetchMany (decoder.descriptor first).extensions (pc + 2) = .ok rest ∧
      record = decoder.instruction (decoder.descriptor first) pc (first :: rest) := by
  rw [code, bind_eq_ok_iff] at h
  obtain ⟨first, hfirst, h⟩ := h
  obtain ⟨rest, hrest, h⟩ := bind_eq_ok_iff.mp h
  cases h
  exact ⟨first, rest, hfirst, hrest, rfl⟩

theorem code_size {decoder : Decoder} {memory : Memory} {pc : UInt32} {record : Record}
    (h : decoder.code memory pc = .ok record) :
    ∃ first, record.size = 2 * (decoder.descriptor first).units := by
  obtain ⟨first, rest, _, _, rfl⟩ := code_eq_ok h
  exact ⟨first, rfl⟩

theorem code_shape {decoder : Decoder} {memory : Memory} {pc : UInt32} {record : Record}
    (h : decoder.code memory pc = .ok record) : record.LiesAt pc := by
  obtain ⟨first, rest, _, hrest, rfl⟩ := code_eq_ok h
  refine ⟨rfl, ?_, List.cons_ne_nil first rest⟩
  show 2 * (decoder.descriptor first).units = 2 * (first :: rest).length
  rw [List.length_cons, Memory.fetchMany_length hrest, Descriptor.units, Nat.add_comm]

/-- The standard decoder takes its descriptors from the instruction set. -/
theorem standard_descriptor (style : Style) (symbols : Symbols) (first : UInt16) :
    (standard style symbols).descriptor first = .unknown ∨
      (standard style symbols).descriptor first ∈ InstructionSet.descriptors := by
  rw [standard_eq, descriptor]
  dsimp only
  cases hfind : InstructionSet.find? first with
  | none => exact .inl rfl
  | some d =>
      rw [InstructionSet.find?] at hfind
      exact .inr (List.mem_of_find?_eq_some hfind)

/-- No instruction has more than three words. -/
theorem standard_code_size_le {style : Style} {symbols : Symbols} {memory : Memory} {pc : UInt32}
    {record : Record} (h : (standard style symbols).code memory pc = .ok record) :
    record.size ≤ 6 := by
  obtain ⟨first, hsize⟩ := code_size h
  have hall : ∀ d ∈ InstructionSet.descriptors, d.units ≤ 3 := by decide +kernel
  rw [hsize]
  rcases standard_descriptor style symbols first with hd | hd
  · rw [hd]
    decide
  · have hunits := hall _ hd
    omega

/-! ## Data -/

theorem datumRecord_shape (decoder : Decoder) (pc : UInt32) {words : List UInt16}
    (mnemonic operands : String) (comment : Option String) (flow : Option Flow)
    (h : words ≠ []) :
    (decoder.datumRecord pc words mnemonic operands comment flow).LiesAt pc :=
  ⟨rfl, rfl, h⟩

/-- A string takes at least its terminator and is filled up to whole words. -/
theorem stringBytes_size (memory : Memory) (pc : UInt32) (characters : Array UInt8) :
    0 < (stringBytes memory pc characters).size ∧
      (stringBytes memory pc characters).size % 2 = 0 := by
  unfold stringBytes
  dsimp only
  split
  · next hodd =>
      rw [Array.size_push] at hodd ⊢
      rw [Array.size_push]
      omega
  · next heven =>
      rw [Array.size_push] at heven ⊢
      omega

theorem pairBytes_stringBytes_ne_nil (memory : Memory) (pc : UInt32)
    (characters : Array UInt8) :
    Word.pairBytes (stringBytes memory pc characters) ≠ [] := by
  have hsize := stringBytes_size memory pc characters
  intro h
  have hlength := congrArg List.length h
  rw [Word.pairBytes, List.length_map, List.length_range, List.length_nil] at hlength
  omega

theorem datum_shape {decoder : Decoder} {memory : Memory} {origin : UInt32} {kind : DataKind}
    {pc : UInt32} {record : Record} (h : decoder.datum memory origin kind pc = .ok record) :
    record.LiesAt pc := by
  cases kind with
  | long =>
      obtain ⟨hi, _, h⟩ := bind_eq_ok_iff.mp h
      obtain ⟨lo, _, h⟩ := bind_eq_ok_iff.mp h
      cases h
      exact datumRecord_shape _ _ _ _ _ _ (List.cons_ne_nil hi [lo])
  | word =>
      obtain ⟨w, _, h⟩ := bind_eq_ok_iff.mp h
      cases h
      exact datumRecord_shape _ _ _ _ _ _ (List.cons_ne_nil w [])
  | bytes =>
      obtain ⟨w, _, h⟩ := bind_eq_ok_iff.mp h
      cases h
      exact datumRecord_shape _ _ _ _ _ _ (List.cons_ne_nil w [])
  | string =>
      replace h : decoder.string memory pc = .ok record := h
      unfold string at h
      split at h
      · cases h
      · cases h
        exact datumRecord_shape _ _ _ _ _ _ (pairBytes_stringBytes_ne_nil memory pc _)
  | vector =>
      obtain ⟨hi, _, h⟩ := bind_eq_ok_iff.mp h
      obtain ⟨lo, _, h⟩ := bind_eq_ok_iff.mp h
      cases h
      exact datumRecord_shape _ _ _ _ _ _ (List.cons_ne_nil hi [lo])

/-- The data of a list of kinds: one record for each kind. -/
theorem data_shape {decoder : Decoder} {memory : Memory} {origin : UInt32}
    {kinds : List DataKind} {pc : UInt32} {records : List Record}
    (h : decoder.data memory origin kinds pc = .ok records) :
    records.length = kinds.length ∧ ∀ record ∈ records, record.LiesAt record.address := by
  induction kinds generalizing pc records with
  | nil =>
      cases h
      exact ⟨rfl, by simp⟩
  | cons kind kinds ih =>
      rw [data, bind_eq_ok_iff] at h
      obtain ⟨record, hrecord, h⟩ := h
      obtain ⟨rest, hrest, h⟩ := bind_eq_ok_iff.mp h
      cases h
      obtain ⟨hlength, hshape⟩ := ih hrest
      refine ⟨by rw [List.length_cons, List.length_cons, hlength], ?_⟩
      intro other hother
      rcases List.mem_cons.mp hother with rfl | hother
      · have hlies := datum_shape hrecord
        exact ⟨rfl, hlies.size, hlies.nonempty⟩
      · exact hshape other hother

/-! ## Passes -/

theorem pass_start {decoder : Decoder} {memory : Memory} {content : Content} {origin pc : UInt32}
    {pass : Pass} (h : decoder.pass memory content origin pc = .ok pass) : pass.start = pc := by
  cases content with
  | code =>
      obtain ⟨record, _, h⟩ := bind_eq_ok_iff.mp h
      cases h
      rfl
  | data kinds =>
      obtain ⟨records, _, h⟩ := bind_eq_ok_iff.mp h
      cases h
      rfl

/-- A pass over code is one instruction. -/
theorem pass_code {decoder : Decoder} {memory : Memory} {origin pc : UInt32} {pass : Pass}
    (h : decoder.pass memory .code origin pc = .ok pass) :
    ∃ record, decoder.code memory pc = .ok record ∧ pass.records = [record] := by
  obtain ⟨record, hrecord, h⟩ := bind_eq_ok_iff.mp h
  cases h
  exact ⟨record, hrecord, rfl⟩

theorem standard_code_pass_size_le {style : Style} {symbols : Symbols} {memory : Memory}
    {origin pc : UInt32} {pass : Pass}
    (h : (standard style symbols).pass memory .code origin pc = .ok pass) : pass.size ≤ 6 := by
  obtain ⟨record, hrecord, hrecords⟩ := pass_code h
  rw [Pass.size, hrecords]
  exact standard_code_size_le hrecord

/-- A pass holds at least one record, and only records that have words. -/
theorem pass_records {decoder : Decoder} {memory : Memory} {content : Content}
    {origin pc : UInt32} {pass : Pass} (h : decoder.pass memory content origin pc = .ok pass) :
    pass.records ≠ [] ∧ ∀ record ∈ pass.records, record.LiesAt record.address := by
  cases content with
  | code =>
      obtain ⟨record, hrecord, hrecords⟩ := pass_code h
      have hlies := code_shape hrecord
      rw [hrecords]
      refine ⟨List.cons_ne_nil record [], ?_⟩
      intro other hother
      rw [List.mem_singleton.mp hother]
      exact ⟨rfl, hlies.size, hlies.nonempty⟩
  | data kinds =>
      obtain ⟨records, hrecords, h⟩ := bind_eq_ok_iff.mp h
      cases h
      obtain ⟨hlength, hshape⟩ := data_shape hrecords
      refine ⟨?_, hshape⟩
      -- the list of kinds to read is never empty, so neither is the list of data
      have hkinds : (Content.data kinds).kinds.length ≠ 0 := by
        cases kinds <;> simp [Content.kinds]
      exact fun hnil => hkinds (hlength ▸ congrArg List.length hnil)

end Decoder

/-- Records that have words add up to a positive even length. -/
theorem Pass.size_of_records {pass : Pass} (hne : pass.records ≠ [])
    (hlies : ∀ record ∈ pass.records, record.LiesAt record.address) :
    0 < pass.size ∧ pass.size % 2 = 0 := by
  have heven : ∀ records : List Record, (∀ record ∈ records, record.LiesAt record.address) →
      records.foldr (fun record n => record.size + n) 0 % 2 = 0 := by
    intro records hrecords
    induction records with
    | nil => rfl
    | cons record records ih =>
        have hsize := (hrecords record List.mem_cons_self).size
        have hrest := ih fun r hr => hrecords r (List.mem_cons_of_mem record hr)
        rw [List.foldr_cons]
        omega
  refine ⟨?_, heven pass.records hlies⟩
  cases hrecords : pass.records with
  | nil => exact absurd hrecords hne
  | cons record records =>
      have hpos := (hlies record (hrecords ▸ List.mem_cons_self)).size_pos
      rw [size, hrecords, List.foldr_cons]
      omega

theorem Decoder.pass_size {decoder : Decoder} {memory : Memory} {content : Content}
    {origin pc : UInt32} {pass : Pass} (h : decoder.pass memory content origin pc = .ok pass) :
    0 < pass.size ∧ pass.size % 2 = 0 := by
  obtain ⟨hne, hlies⟩ := pass_records h
  exact Pass.size_of_records hne hlies

end Disassembly
