import Disassembly.Proofs.Decoding
import Disassembly.Proofs.ImageReads

/-!
# What decoding an instruction reads

An instruction is decoded from its own words and nothing else. How many words these are is known
only after the first one has been read: it is one word, and those that the first descriptor of the
instruction set to claim it asks for (`Memory.unitsAt`).

* **half-words** — a run of half-words is read exactly when all of its bytes are known, and holds
  these bytes (`Memory.toOption_fetchMany`); otherwise the error names the first half-word with an
  unknown byte (`Memory.fetchMany_eq_error`);
* **instructions** — decoding is reading the words of the instruction and writing them out
  (`Decoder.standard_code_eq`), so it fails and succeeds as the reading does, and a memory with the
  same bytes there gives the same result (`Memory.unitsAt_congr`, `Memory.fetchMany_congr`).
-/

namespace Disassembly

/-! ## Runs of half-words -/

namespace Memory

section

variable (memory : Memory)

theorem toOption_fetch (a : UInt32) : (memory.fetch a).toOption = memory.half? a := by
  unfold fetch
  cases memory.half? a <;> rfl

theorem half?_eq_none_iff (a : UInt32) : memory.half? a = none ↔ memory.bytes? 2 a = none := by
  rw [← Option.map_eq_none_iff (f := UInt16.toNat), toNat_half?, Option.map_eq_none_iff]

/-- A run of half-words is read when all of its bytes are known, and is made of them. -/
theorem toOption_fetchMany (n : Nat) (a : UInt32) :
    (memory.fetchMany n a).toOption.map (·.flatMap Word.toBytes) = memory.bytes? (2 * n) a := by
  induction n generalizing a with
  | zero => rfl
  | succ n ih =>
      have hthird : a + 1 + 1 = a + 2 := by rw [UInt32.add_assoc]; rfl
      rw [Nat.mul_succ, bytes?, bytes?, hthird, ← ih, fetchMany, fetch, half?_eq]
      cases memory a with
      | none => rfl
      | some hi =>
          cases memory (a + 1) with
          | none => rfl
          | some lo =>
              cases memory.fetchMany n (a + 2) with
              | error e => rfl
              | ok ws =>
                  show some ((Word.ofBytes hi lo :: ws).flatMap Word.toBytes) = _
                  rw [List.flatMap_cons, Word.toBytes_ofBytes]
                  rfl

/-- Of `n` half-words from `a` on, the first one that has an unknown byte lies at `missing`. -/
def FirstMissing (n : Nat) (a missing : UInt32) : Prop :=
  ∃ k < n, missing = a + UInt32.ofNat (2 * k) ∧ memory.bytes? 2 missing = none ∧
    ∀ j < k, memory.bytes? 2 (a + UInt32.ofNat (2 * j)) ≠ none

end

variable {memory memory' : Memory} {n : Nat} {a : UInt32} {error : DecodeError}

theorem bytes?_eq_of_fetchMany {words : List UInt16} (h : memory.fetchMany n a = .ok words) :
    memory.bytes? (2 * n) a = some (words.flatMap Word.toBytes) := by
  rw [← toOption_fetchMany, h]
  rfl

theorem bytes?_eq_none_of_fetchMany (h : memory.fetchMany n a = .error error) :
    memory.bytes? (2 * n) a = none := by
  rw [← toOption_fetchMany, h]
  rfl

theorem fetch_eq_error (h : memory.fetch a = .error error) :
    error = .outOfImage a ∧ memory.bytes? 2 a = none := by
  rw [← half?_eq_none_iff]
  unfold fetch at h
  split at h
  · cases h
  · next hnone =>
      cases h
      exact ⟨rfl, hnone⟩

theorem bytes?_two_of_fetch {w : UInt16} (h : memory.fetch a = .ok w) :
    memory.bytes? 2 a ≠ none := by
  intro hnone
  rw [← half?_eq_none_iff, ← toOption_fetch, h] at hnone
  cases hnone

/-- The error of reading half-words names the first one that is missing. -/
theorem fetchMany_eq_error (h : memory.fetchMany n a = .error error) :
    ∃ missing, error = .outOfImage missing ∧ memory.FirstMissing n a missing := by
  induction n generalizing a with
  | zero => cases h
  | succ n ih =>
      have hstart : a + UInt32.ofNat (2 * 0) = a := UInt32.add_zero a
      -- the half-words after the first one are counted from one on
      have hshift : ∀ j, a + 2 + UInt32.ofNat (2 * j) = a + UInt32.ofNat (2 * (j + 1)) := by
        intro j
        rw [Nat.mul_succ, Nat.add_comm]
        exact add_ofNat_ofNat a 2 (2 * j)
      rw [fetchMany] at h
      cases hfirst : memory.fetch a with
      | error e =>
          rw [hfirst] at h
          cases h
          obtain ⟨herror, hnone⟩ := fetch_eq_error hfirst
          exact ⟨a, herror, 0, Nat.succ_pos n, hstart.symm, hnone, fun j hj => absurd hj (by omega)⟩
      | ok w =>
          rw [hfirst] at h
          cases hrest : memory.fetchMany n (a + 2) with
          | ok ws =>
              rw [hrest] at h
              cases h
          | error e =>
              rw [hrest] at h
              cases h
              obtain ⟨missing, herror, k, hk, hmissing, hnone, hbefore⟩ := ih hrest
              refine ⟨missing, herror, k + 1, Nat.succ_lt_succ hk, ?_, hnone, ?_⟩
              · rw [hmissing, hshift]
              · intro j hj
                cases j with
                | zero =>
                    rw [hstart]
                    exact bytes?_two_of_fetch hfirst
                | succ j =>
                    rw [← hshift]
                    exact hbefore j (Nat.lt_of_succ_lt_succ hj)

theorem FirstMissing.unique {m m' : UInt32} (h : memory.FirstMissing n a m)
    (h' : memory.FirstMissing n a m') : m = m' := by
  obtain ⟨k, _, rfl, hnone, hbefore⟩ := h
  obtain ⟨k', _, rfl, hnone', hbefore'⟩ := h'
  rcases Nat.lt_trichotomy k k' with hlt | rfl | hlt
  · exact absurd hnone (hbefore' k hlt)
  · rfl
  · exact absurd hnone' (hbefore k' hlt)

theorem FirstMissing.bytes? {missing : UInt32} (h : memory.FirstMissing n a missing) :
    memory.bytes? (2 * n) a = none := by
  obtain ⟨k, hk, rfl, hnone, _⟩ := h
  obtain ⟨i, hi, hbyte⟩ := (bytes?_eq_none_iff memory _ 2).mp hnone
  rw [add_ofNat_ofNat] at hbyte
  exact (bytes?_eq_none_iff memory a (2 * n)).mpr ⟨2 * k + i, by omega, hbyte⟩

theorem fetchMany_eq_error_iff : memory.fetchMany n a = .error error ↔
    ∃ missing, error = .outOfImage missing ∧ memory.FirstMissing n a missing := by
  refine ⟨fetchMany_eq_error, ?_⟩
  rintro ⟨missing, rfl, hmissing⟩
  cases hread : memory.fetchMany n a with
  | ok words =>
      have hnone := hmissing.bytes?
      rw [bytes?_eq_of_fetchMany hread] at hnone
      cases hnone
  | error e =>
      obtain ⟨missing', rfl, hmissing'⟩ := fetchMany_eq_error hread
      rw [hmissing.unique hmissing']

/-! ## Memories with the same bytes -/

theorem half?_congr (hn : 2 ≤ n)
    (h : ∀ k < n, memory' (a + UInt32.ofNat k) = memory (a + UInt32.ofNat k)) :
    memory'.half? a = memory.half? a := by
  have hfirst : memory' a = memory a := by simpa using h 0 (by omega)
  have hsecond : memory' (a + 1) = memory (a + 1) := h 1 (by omega)
  rw [half?_eq, half?_eq, hfirst, hsecond]

theorem fetchMany_congr
    (h : ∀ k < 2 * n, memory' (a + UInt32.ofNat k) = memory (a + UInt32.ofNat k)) :
    memory'.fetchMany n a = memory.fetchMany n a := by
  induction n generalizing a with
  | zero => rfl
  | succ n ih =>
      have hrest : memory'.fetchMany n (a + 2) = memory.fetchMany n (a + 2) := by
        apply ih
        intro k hk
        have hshift : a + 2 + UInt32.ofNat k = a + UInt32.ofNat (2 + k) := add_ofNat_ofNat a 2 k
        rw [hshift]
        exact h (2 + k) (by omega)
      rw [fetchMany, fetchMany, fetch, fetch, half?_congr (by omega) h, hrest]

/-! ## The words of an instruction -/

/-- The descriptor of the instruction at an address: the first one of the instruction set that
claims the half-word there. -/
def descriptor? (memory : Memory) (pc : UInt32) : Option Descriptor :=
  (memory.half? pc).bind fun first => InstructionSet.descriptors.find? (·.claims first)

/-- How many words the instruction at an address has. A word without a descriptor stands alone. -/
def unitsAt (memory : Memory) (pc : UInt32) : Nat :=
  1 + ((memory.descriptor? pc).map Descriptor.extensions).getD 0

theorem unitsAt_eq (memory : Memory) (pc : UInt32) :
    memory.unitsAt pc = ((memory.descriptor? pc).getD .unknown).units := by
  unfold unitsAt
  cases memory.descriptor? pc <;> rfl

theorem descriptor?_congr
    (h : ∀ k < 2 * memory.unitsAt a, memory' (a + UInt32.ofNat k) = memory (a + UInt32.ofNat k)) :
    memory'.descriptor? a = memory.descriptor? a := by
  have hunits : 2 ≤ 2 * memory.unitsAt a := by
    unfold unitsAt
    omega
  rw [descriptor?, descriptor?, half?_congr hunits h]

end Memory

namespace Decoder

/-- Once the first word is known, decoding an instruction is reading all its words. -/
theorem code_eq_fetchMany (decoder : Decoder) {memory : Memory} {pc : UInt32} {first : UInt16}
    (hfirst : memory.half? pc = some first) :
    decoder.code memory pc =
      (memory.fetchMany (decoder.descriptor first).units pc).map
        (decoder.instruction (decoder.descriptor first) pc) := by
  rw [code, Descriptor.units, Nat.add_comm, Memory.fetchMany, Memory.fetch, hfirst]
  show (memory.fetchMany _ (pc + 2) >>= _) = Except.map _ (memory.fetchMany _ (pc + 2) >>= _)
  cases memory.fetchMany (decoder.descriptor first).extensions (pc + 2) <;> rfl

/-- Decoding an instruction is reading its words and writing them out. -/
theorem standard_code_eq (style : Style) (symbols : Symbols) (memory : Memory) (pc : UInt32) :
    (standard style symbols).code memory pc =
      (memory.fetchMany (memory.unitsAt pc) pc).map
        ((standard style symbols).instruction ((memory.descriptor? pc).getD .unknown) pc) := by
  cases hfirst : memory.half? pc with
  | none =>
      have hunits : memory.unitsAt pc = 0 + 1 := by
        rw [Memory.unitsAt, Memory.descriptor?, hfirst]
        rfl
      rw [code, hunits, Memory.fetchMany, Memory.fetch, hfirst]
      rfl
  | some first =>
      have hdescriptor : (standard style symbols).descriptor first =
          (memory.descriptor? pc).getD .unknown := by
        rw [standard_eq, Memory.descriptor?, hfirst]
        rfl
      rw [code_eq_fetchMany _ hfirst, hdescriptor, Memory.unitsAt_eq]

section

variable {style : Style} {symbols : Symbols} {memory memory' : Memory} {pc : UInt32}

theorem standard_code_eq_ok {record : Record}
    (h : (standard style symbols).code memory pc = .ok record) :
    ∃ words, memory.fetchMany (memory.unitsAt pc) pc = .ok words ∧
      record = (standard style symbols).instruction ((memory.descriptor? pc).getD .unknown) pc
        words := by
  rw [standard_code_eq] at h
  cases hread : memory.fetchMany (memory.unitsAt pc) pc with
  | error e =>
      rw [hread] at h
      cases h
  | ok words =>
      rw [hread] at h
      exact ⟨words, rfl, (Except.ok.inj h).symm⟩

theorem standard_code_eq_error_iff {error : DecodeError} :
    (standard style symbols).code memory pc = .error error ↔
      ∃ missing, error = .outOfImage missing ∧
        memory.FirstMissing (memory.unitsAt pc) pc missing := by
  rw [standard_code_eq, ← Memory.fetchMany_eq_error_iff]
  cases memory.fetchMany (memory.unitsAt pc) pc with
  | ok words => simp [Except.map]
  | error e => simp [Except.map]

/-- An instruction can be decoded exactly when all of its bytes are known. -/
theorem standard_code_isOk_iff :
    (∃ record, (standard style symbols).code memory pc = .ok record) ↔
      ∀ k < 2 * memory.unitsAt pc, memory (pc + UInt32.ofNat k) ≠ none := by
  have hknown := not_congr (Memory.bytes?_eq_none_iff memory pc (2 * memory.unitsAt pc))
  push Not at hknown
  rw [← hknown, standard_code_eq]
  cases hread : memory.fetchMany (memory.unitsAt pc) pc with
  | ok words => simp [Except.map, Memory.bytes?_eq_of_fetchMany hread]
  | error e => simp [Except.map, Memory.bytes?_eq_none_of_fetchMany hread]

/-- What lies outside an instruction does not matter for it. -/
theorem standard_code_congr
    (h : ∀ k < 2 * memory.unitsAt pc,
      memory' (pc + UInt32.ofNat k) = memory (pc + UInt32.ofNat k)) :
    (standard style symbols).code memory' pc = (standard style symbols).code memory pc := by
  have hdescriptor := Memory.descriptor?_congr h
  have hunits : memory'.unitsAt pc = memory.unitsAt pc := by
    rw [Memory.unitsAt, Memory.unitsAt, hdescriptor]
  rw [standard_code_eq, standard_code_eq, hunits, hdescriptor, Memory.fetchMany_congr h]

end

end Decoder

/-- The record of a word that is no instruction. -/
def Record.ofUnknown (style : Style) (pc : UInt32) (w : UInt16) : Record where
  address := pc
  words := [w]
  size := 2
  text := style.line [w] "dw" (style.numberWide 4 w.toNat) none
  isCode := true
  flow := none

/-- **Reading an instruction.** Whatever the memory, the address, the declared names and the output
flags: an instruction is decoded exactly when every byte of its words is known, and its record then
holds these words. A word that no descriptor claims is an instruction of one word without effect on
the flow of control. Otherwise the error names the first word of the instruction that has an unknown
byte. Every memory with the same bytes there gives the same result. -/
theorem code_reads_exactly_its_words (flags : OutputFlags) (symbols : Symbols) (memory : Memory)
    (pc : UInt32) :
    let decoder := Decoder.standard flags.style symbols
    let units := memory.unitsAt pc
    ((∃ record, decoder.code memory pc = .ok record) ↔
      ∀ k < 2 * units, memory (pc + UInt32.ofNat k) ≠ none) ∧
    (∀ record, decoder.code memory pc = .ok record →
      record.address = pc ∧ record.size = 2 * units ∧ record.words.length = units ∧
      memory.bytes? (2 * units) pc = some (record.words.flatMap Word.toBytes) ∧
      (memory.descriptor? pc = none → ∃ w, record = .ofUnknown flags.style pc w)) ∧
    (∀ error, decoder.code memory pc = .error error ↔
      ∃ missing, error = .outOfImage missing ∧ memory.FirstMissing units pc missing) ∧
    ∀ memory' : Memory,
      (∀ k < 2 * units, memory' (pc + UInt32.ofNat k) = memory (pc + UInt32.ofNat k)) →
      decoder.code memory' pc = decoder.code memory pc := by
  intro decoder units
  refine ⟨Decoder.standard_code_isOk_iff, ?_, fun error => Decoder.standard_code_eq_error_iff,
    fun memory' hsame => Decoder.standard_code_congr hsame⟩
  intro record hrecord
  obtain ⟨words, hread, rfl⟩ := Decoder.standard_code_eq_ok hrecord
  have hlength := Memory.fetchMany_length hread
  refine ⟨rfl, ?_, hlength, Memory.bytes?_eq_of_fetchMany hread, ?_⟩
  · show 2 * ((memory.descriptor? pc).getD .unknown).units = 2 * memory.unitsAt pc
    rw [Memory.unitsAt_eq]
  · intro hnone
    rw [Memory.unitsAt, hnone] at hlength
    obtain ⟨w, rfl⟩ := List.length_eq_one_iff.mp hlength
    refine ⟨w, ?_⟩
    rw [hnone]
    rfl

/-- An instruction of three words across the end of the address space, in a memory that holds
nothing else, in one that holds a byte everywhere, and in one without its last byte; and a word that
is no instruction. -/
theorem code_reads_exactly_its_words_across_end :
    let decoder := Decoder.standard {} ∅
    let load (n : Nat) : Memory := fun a =>
      ([0x9F, 0x84, 0x12, 0x34, 0x56, 0x78].take n)[(a + 2).toNat]?
    let everywhere : Memory := fun a => some ((load 6 a).getD 0xFF)
    let unknown : Memory := fun a => [0xBC, 0x00][a.toNat]?
    (load 6).unitsAt 0xFFFFFFFE = 3 ∧ (load 5).FirstMissing 3 0xFFFFFFFE 2 ∧
      (∃ record, decoder.code (load 6) 0xFFFFFFFE = .ok record ∧
        decoder.code everywhere 0xFFFFFFFE = .ok record ∧ record.size = 6 ∧
        record.words.flatMap Word.toBytes = [0x9F, 0x84, 0x12, 0x34, 0x56, 0x78]) ∧
      decoder.code (load 5) 0xFFFFFFFE = .error (.outOfImage 2) ∧
      unknown.descriptor? 0 = none ∧
      ∃ w, decoder.code unknown 0 = .ok (.ofUnknown {} 0 w) := by
  intro decoder load everywhere unknown
  have hunits : (load 6).unitsAt 0xFFFFFFFE = 3 := by decide +kernel
  have hunits' : (load 5).unitsAt 0xFFFFFFFE = 3 := by decide +kernel
  have hmissing : (load 5).FirstMissing 3 0xFFFFFFFE 2 :=
    ⟨2, by decide, by decide, by decide, by decide⟩
  have hnone : unknown.descriptor? 0 = none := by decide +kernel
  have hone : unknown.unitsAt 0 = 1 := by rw [Memory.unitsAt, hnone]; rfl
  obtain ⟨hok, hrecords, _, hsame⟩ := code_reads_exactly_its_words {} ∅ (load 6) 0xFFFFFFFE
  obtain ⟨_, _, herrors, _⟩ := code_reads_exactly_its_words {} ∅ (load 5) 0xFFFFFFFE
  obtain ⟨hok', hrecords', _, _⟩ := code_reads_exactly_its_words {} ∅ unknown 0
  rw [hunits] at hok hrecords hsame
  rw [hunits'] at herrors
  rw [hone] at hok'
  obtain ⟨record, hrecord⟩ := hok.mpr (by decide)
  obtain ⟨_, hsize, _, hbytes, _⟩ := hrecords record hrecord
  obtain ⟨record', hrecord'⟩ := hok'.mpr (by decide)
  obtain ⟨w, hw⟩ := (hrecords' record' hrecord').2.2.2.2 hnone
  have hbytes' : (load 6).bytes? 6 0xFFFFFFFE = some [0x9F, 0x84, 0x12, 0x34, 0x56, 0x78] := by
    decide
  refine ⟨hunits, hmissing, ⟨record, hrecord, ?_, hsize, ?_⟩, (herrors _).mpr ⟨2, rfl, hmissing⟩,
    hnone, w, hw ▸ hrecord'⟩
  · rw [← hrecord]
    exact hsame everywhere (by decide)
  · exact Option.some.inj (hbytes.symm.trans hbytes')

end Disassembly
