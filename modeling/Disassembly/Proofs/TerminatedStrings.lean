import Disassembly.Proofs.Decoding
import Disassembly.Proofs.ImageReads
import Mathlib.Order.Bounds.Basic

/-!
# Strings up to their terminator

A string is read byte by byte up to the first zero. Nothing in the scan bounds its length, and the
addresses it visits would wrap around at the end of the address space. In an image it always ends,
because the last address of the space holds no byte:

* **the scan** — `Memory.Scan` is the scan without any bound. In an image it ends, with the result
  of the function that runs (`Memory.scan_beforeZero?`), and never leaves the address space
  (`Memory.CharactersAt.lt`);
* **its result** — it finds the terminator exactly when the known bytes before it are not zero
  (`Memory.beforeZero?_eq_some`, `Memory.Scan.not_stringAt`);
* **the record** — the words of a string hold its bytes, the terminator, and one more byte where
  that makes their number even (`Decoder.string_eq_ok`).
-/

namespace Disassembly

/-! ## Bytes of half-words -/

namespace Word

theorem flatMap_range_pairs (bytes : Array UInt8) {n : Nat} (h : 2 * n ≤ bytes.size) :
    (List.range n).flatMap (fun k => [bytes.getD (2 * k) 0, bytes.getD (2 * k + 1) 0]) =
      bytes.toList.take (2 * n) := by
  induction n with
  | zero => rfl
  | succ n ih =>
      have hhi : 2 * n < bytes.size := by omega
      have hlo : 2 * n + 1 < bytes.size := by omega
      rw [List.range_succ, List.flatMap_append, ih (by omega), List.flatMap_singleton, Nat.mul_succ,
        List.take_add_one, List.take_add_one, List.append_assoc]
      simp [Array.getD, hhi, hlo]

/-- An even number of bytes is kept when they are put together in pairs. -/
theorem flatMap_toBytes_pairBytes {bytes : Array UInt8} (heven : bytes.size % 2 = 0) :
    (pairBytes bytes).flatMap toBytes = bytes.toList := by
  have hsize : 2 * (bytes.size / 2) = bytes.size := by omega
  rw [pairBytes, List.flatMap_map]
  simp only [toBytes_ofBytes]
  rw [flatMap_range_pairs bytes (by omega), hsize, List.take_of_length_le (by simp)]

theorem length_flatMap_toBytes (words : List UInt16) :
    (words.flatMap toBytes).length = 2 * words.length := by
  induction words with
  | nil => rfl
  | cons w words ih =>
      rw [List.flatMap_cons, List.length_append, ih, List.length_cons]
      show 2 + 2 * words.length = _
      omega

end Word

/-! ## The scan for the terminator -/

namespace Memory

/-- From `pc` on there are `n` known bytes, none of them zero. -/
def CharactersAt (memory : Memory) (pc : UInt32) (n : Nat) : Prop :=
  ∀ k < n, ∃ b, memory (pc + UInt32.ofNat k) = some b ∧ b ≠ 0

/-- At `pc` there is a string of `n` characters: so many known bytes other than zero, and a zero
after them. -/
structure StringAt (memory : Memory) (pc : UInt32) (n : Nat) : Prop where
  characters : memory.CharactersAt pc n
  terminator : memory (pc + UInt32.ofNat n) = some 0

/-- The course of the scan from the `n`-th byte after `pc` on, and the length it finds. The scan
ends only at a zero or an unknown byte. -/
inductive Scan (memory : Memory) (pc : UInt32) : Nat → Option Nat → Prop
  | missing {n : Nat} : memory (pc + UInt32.ofNat n) = none → Scan memory pc n none
  | ended {n : Nat} : memory (pc + UInt32.ofNat n) = some 0 → Scan memory pc n (some n)
  | next {n : Nat} {b : UInt8} {length? : Option Nat} : memory (pc + UInt32.ofNat n) = some b →
      b ≠ 0 → Scan memory pc (n + 1) length? → Scan memory pc n length?

variable {memory : Memory} {pc : UInt32} {n : Nat}

/-- Where the last address holds no byte, the scan ends before it would wrap around. -/
theorem scan_beforeZero? (hlast : memory 0xFFFFFFFF = none) (seen : Array UInt8) (a : UInt32)
    (ha : a = pc + UInt32.ofNat seen.size) :
    memory.Scan pc seen.size ((memory.beforeZero? seen a).map Array.size) := by
  fun_induction beforeZero? memory seen a with
  | case1 seen a hnone => exact .missing (ha ▸ hnone)
  | case2 seen a hzero => exact .ended (ha ▸ hzero)
  | case3 seen a b hbyte hne hlt ih =>
      have hnext : a + 1 = pc + UInt32.ofNat (seen.push b).size := by
        rw [ha, Array.size_push]
        exact add_ofNat_ofNat pc seen.size 1
      have hrest := ih hnext
      rw [Array.size_push] at hrest
      exact .next (ha ▸ hbyte) hne hrest
  | case4 seen a b hbyte hne hlt =>
      have hmax : a = 0xFFFFFFFF := by
        apply UInt32.toNat_inj.mp
        have hbound := a.toNat_lt
        show a.toNat = 0xFFFFFFFF
        omega
      rw [hmax, hlast] at hbyte
      cases hbyte

/-- A scan that comes upon an unknown byte has passed no terminator before it, and does not see what
lies behind it. -/
theorem Scan.not_stringAt {k : Nat} {length? : Option Nat} (h : memory.Scan pc k length?)
    (hnone : length? = none) (hk : k ≤ n) : ¬ memory.StringAt pc n := by
  intro hstring
  induction h with
  | @missing k hmissing =>
      rcases Nat.lt_or_eq_of_le hk with hlt | rfl
      · obtain ⟨b, hb, _⟩ := hstring.characters k hlt
        rw [hmissing] at hb
        cases hb
      · have hzero := hstring.terminator
        rw [hmissing] at hzero
        cases hzero
  | ended _ => cases hnone
  | @next k b _ hbyte hne _ ih =>
      have hdiffer : k ≠ n := by
        rintro rfl
        have hzero := hstring.terminator
        rw [hbyte] at hzero
        exact hne (Option.some.inj hzero)
      exact ih hnone (by omega)

theorem StringAt.unique {m : Nat} (h : memory.StringAt pc n) (h' : memory.StringAt pc m) :
    n = m := by
  have hle : ∀ {i j : Nat}, memory.StringAt pc i → memory.StringAt pc j → i ≤ j := by
    intro i j hi hj
    by_contra hlt
    obtain ⟨b, hb, hne⟩ := hi.characters j (by omega)
    rw [hj.terminator] at hb
    exact hne (Option.some.inj hb).symm
  exact Nat.le_antisymm (hle h h') (hle h' h)

/-- The scan stays within the address space. -/
theorem CharactersAt.lt (hlast : memory 0xFFFFFFFF = none) (h : memory.CharactersAt pc n) :
    pc.toNat + n < 0x100000000 := by
  by_contra hle
  have hpc := pc.toNat_lt
  obtain ⟨b, hb, _⟩ := h (0xFFFFFFFF - pc.toNat) (by omega)
  rw [add_ofNat_last, hlast] at hb
  cases hb

/-! ## What the scan finds -/

/-- The bytes of a run, one by one. -/
theorem getElem?_of_bytes? {a : UInt32} {bytes : List UInt8} (h : memory.bytes? n a = some bytes)
    {k : Nat} (hk : k < n) : memory (a + UInt32.ofNat k) = bytes[k]? := by
  induction n generalizing a bytes k with
  | zero => omega
  | succ n ih =>
      rw [bytes?] at h
      obtain ⟨b, hb, h⟩ := Option.bind_eq_some_iff.mp h
      obtain ⟨bs, hbs, h⟩ := Option.bind_eq_some_iff.mp h
      cases h
      cases k with
      | zero =>
          rw [List.getElem?_cons_zero, ← hb]
          exact congrArg memory (UInt32.add_zero a)
      | succ k =>
          rw [List.getElem?_cons_succ, ← ih hbs (Nat.lt_of_succ_lt_succ hk), Nat.add_comm]
          exact congrArg memory (add_ofNat_ofNat a 1 k).symm

/-- The byte after a run makes it longer by one. -/
theorem bytes?_concat {a : UInt32} {bytes : List UInt8} {b : UInt8}
    (h : memory.bytes? n a = some bytes) (hb : memory (a + UInt32.ofNat n) = some b) :
    memory.bytes? (n + 1) a = some (bytes ++ [b]) := by
  induction n generalizing a bytes with
  | zero =>
      cases h
      have hstart : memory a = some b := by
        rw [← hb]
        exact congrArg memory (UInt32.add_zero a).symm
      rw [bytes?, hstart]
      rfl
  | succ n ih =>
      rw [bytes?] at h
      obtain ⟨c, hc, h⟩ := Option.bind_eq_some_iff.mp h
      obtain ⟨bs, hbs, h⟩ := Option.bind_eq_some_iff.mp h
      cases h
      have hrest := ih hbs (by
        rw [← hb, Nat.add_comm n 1]
        exact congrArg memory (add_ofNat_ofNat a 1 n))
      rw [bytes?, hc, hrest]
      rfl

/-- The scan gives the bytes up to the first zero. -/
theorem beforeZero?_eq_some {seen characters : Array UInt8} {a : UInt32}
    (h : memory.beforeZero? seen a = some characters) :
    ∃ bytes, characters.toList = seen.toList ++ bytes ∧
      memory.bytes? bytes.length a = some bytes ∧ 0 ∉ bytes ∧
      memory (a + UInt32.ofNat bytes.length) = some 0 := by
  fun_induction beforeZero? memory seen a with
  | case1 seen a hnone => cases h
  | case2 seen a hzero =>
      cases h
      refine ⟨[], (List.append_nil _).symm, rfl, List.not_mem_nil, ?_⟩
      rw [← hzero]
      exact congrArg memory (UInt32.add_zero a)
  | case3 seen a b hbyte hne hlt ih =>
      obtain ⟨bytes, hcharacters, hbytes, hzero, hterminator⟩ := ih h
      refine ⟨b :: bytes, ?_, ?_, ?_, ?_⟩
      · rw [hcharacters, Array.toList_push, List.append_assoc, List.singleton_append]
      · rw [List.length_cons, bytes?, hbyte, hbytes]
        rfl
      · rw [List.mem_cons, not_or]
        exact ⟨Ne.symm hne, hzero⟩
      · rw [← hterminator, List.length_cons, Nat.add_comm]
        exact congrArg memory (add_ofNat_ofNat a 1 bytes.length).symm
  | case4 seen a b hbyte hne hlt => cases h

/-- The characters that the scan from an address finds. -/
theorem stringAt_of_beforeZero? {characters : Array UInt8}
    (h : memory.beforeZero? #[] pc = some characters) :
    memory.StringAt pc characters.size ∧
      memory.bytes? characters.size pc = some characters.toList ∧ 0 ∉ characters.toList := by
  obtain ⟨bytes, hcharacters, hbytes, hzero, hterminator⟩ := beforeZero?_eq_some h
  rw [List.nil_append] at hcharacters
  have hsize : bytes.length = characters.size := by rw [← hcharacters, Array.length_toList]
  rw [hsize] at hbytes hterminator
  refine ⟨⟨?_, hterminator⟩, hcharacters ▸ hbytes, hcharacters ▸ hzero⟩
  intro k hk
  have hk' : k < bytes.length := by omega
  refine ⟨bytes[k], ?_, ?_⟩
  · rw [getElem?_of_bytes? hbytes hk, List.getElem?_eq_getElem hk']
  · intro hnull
    exact hzero (hnull ▸ List.getElem_mem hk')

end Memory

/-! ## Strings -/

namespace Decoder

/-- What fills a string of `n` characters up to whole words: the byte after the terminator, or zero
where it is unknown. -/
def padding (memory : Memory) (pc : UInt32) (n : Nat) : List UInt8 :=
  if n % 2 = 0 then [(memory (pc + UInt32.ofNat (n + 1))).getD 0] else []

theorem toList_stringBytes (memory : Memory) (pc : UInt32) (characters : Array UInt8) :
    (stringBytes memory pc characters).toList =
      characters.toList ++ 0 :: padding memory pc characters.size := by
  unfold stringBytes padding
  dsimp only
  rw [Array.size_push]
  by_cases heven : characters.size % 2 = 0
  · rw [if_pos (by omega), if_pos heven, Array.toList_push, Array.toList_push, List.append_assoc]
    rfl
  · rw [if_neg (by omega), if_neg heven, Array.toList_push]

theorem exists_string (decoder : Decoder) {memory : Memory} {pc : UInt32}
    {characters : Array UInt8} (h : memory.beforeZero? #[] pc = some characters) :
    ∃ record, decoder.string memory pc = .ok record := by
  rw [string, h]
  exact ⟨_, rfl⟩

/-- What a decoded string is made of. -/
theorem string_eq_ok {decoder : Decoder} {memory : Memory} {pc : UInt32} {record : Record}
    (h : decoder.string memory pc = .ok record) :
    ∃ characters, memory.beforeZero? #[] pc = some characters ∧ record.address = pc ∧
      record.size = characters.size + 1 + (padding memory pc characters.size).length ∧
      record.words.flatMap Word.toBytes =
        characters.toList ++ 0 :: padding memory pc characters.size ∧
      record.text = decoder.style.line record.words "ds"
        ("\"" ++ String.ofList (Text.escapeBytes characters.toList) ++ "\"") none := by
  unfold string at h
  split at h
  · cases h
  · next characters hscan =>
      cases h
      have hbytes : (Word.pairBytes (stringBytes memory pc characters)).flatMap Word.toBytes =
          characters.toList ++ 0 :: padding memory pc characters.size := by
        rw [← toList_stringBytes]
        exact Word.flatMap_toBytes_pairBytes (stringBytes_size memory pc characters).2
      have hlength :=
        Word.length_flatMap_toBytes (Word.pairBytes (stringBytes memory pc characters))
      rw [hbytes, List.length_append, List.length_cons, Array.length_toList] at hlength
      refine ⟨characters, hscan, rfl, ?_, hbytes, rfl⟩
      show 2 * (Word.pairBytes (stringBytes memory pc characters)).length = _
      omega

/-- A string takes the smallest even number of bytes that holds it with its terminator. -/
theorem isLeast_stringSize (memory : Memory) (pc : UInt32) (n : Nat) :
    IsLeast {m | m % 2 = 0 ∧ n + 1 ≤ m} (n + 1 + (padding memory pc n).length) := by
  unfold padding
  split
  · next heven =>
      rw [List.length_singleton]
      refine ⟨⟨by omega, by omega⟩, ?_⟩
      rintro m ⟨hm, hle⟩
      omega
  · next hodd =>
      rw [List.length_nil]
      refine ⟨⟨by omega, by omega⟩, ?_⟩
      rintro m ⟨_, hle⟩
      exact hle

end Decoder

/-- **Strings.** Whatever the image, the address, the declared names and the output flags: the scan
for the terminator ends, and never leaves the address space. If there is a string at the address, it
is decoded, to as many bytes as the smallest even number that holds its characters and its
terminator: these, and the byte after them or zero where they are an odd number of bytes. Otherwise
decoding fails with the address of the string. -/
theorem string_ends_at_terminator (flags : OutputFlags) (symbols : Symbols) (image : Image)
    (origin pc : UInt32) :
    let decoder := Decoder.standard flags.style symbols
    let memory := image.memory
    memory.Scan pc 0 ((memory.beforeZero? #[] pc).map Array.size) ∧
    (∀ n, memory.CharactersAt pc n → pc.toNat + n < 0x100000000) ∧
    (∀ n, memory.StringAt pc n →
      ∃ record bytes, decoder.datum memory origin .string pc = .ok record ∧
        record.address = pc ∧ IsLeast {m | m % 2 = 0 ∧ n + 1 ≤ m} record.size ∧
        memory.bytes? (n + 1) pc = some bytes ∧
        record.words.flatMap Word.toBytes = bytes ++
          if (n + 1) % 2 = 1 then [(memory (pc + UInt32.ofNat (n + 1))).getD 0] else []) ∧
    ((¬ ∃ n, memory.StringAt pc n) →
      decoder.datum memory origin .string pc = .error (.unterminated pc)) := by
  intro decoder memory
  have hscan : memory.Scan pc 0 ((memory.beforeZero? #[] pc).map Array.size) :=
    Memory.scan_beforeZero? image.memory_last #[] pc (UInt32.add_zero pc).symm
  refine ⟨hscan, fun n h => h.lt image.memory_last, ?_, ?_⟩
  · intro n hstring
    cases hresult : memory.beforeZero? #[] pc with
    | none =>
        rw [hresult] at hscan
        exact absurd hstring (hscan.not_stringAt rfl (Nat.zero_le n))
    | some characters =>
        obtain ⟨hfound, hbytes, _⟩ := Memory.stringAt_of_beforeZero? hresult
        obtain rfl := hstring.unique hfound
        obtain ⟨record, hrecord⟩ := Decoder.exists_string decoder hresult
        obtain ⟨characters', hresult', haddress, hsize, hwords, _⟩ := Decoder.string_eq_ok hrecord
        obtain rfl : characters = characters' := Option.some.inj (hresult.symm.trans hresult')
        refine ⟨record, _, hrecord, haddress, ?_, Memory.bytes?_concat hbytes hfound.terminator, ?_⟩
        · rw [hsize]
          exact Decoder.isLeast_stringSize memory pc characters.size
        · have hodd : characters.size % 2 = 0 ↔ (characters.size + 1) % 2 = 1 := by omega
          rw [hwords, Decoder.padding, List.append_assoc, List.singleton_append]
          simp only [hodd]
  · intro hnone
    cases hresult : memory.beforeZero? #[] pc with
    | none => rw [Decoder.datum, Decoder.string, hresult]
    | some characters =>
        exact absurd ⟨_, (Memory.stringAt_of_beforeZero? hresult).1⟩ hnone

/-- The last string that an image can hold ends just before the end of the address space and is
filled up with a zero; without its terminator it would run into the end. -/
theorem string_ends_at_terminator_last :
    let image (last : UInt8) : Image :=
      { segments := [{ base := 0xFFFFFFFC, fileOffset := 0, bytes := #[0x41, 0x42, last] }] }
    let decoder := Decoder.standard {} ∅
    ((image 0).memory.StringAt 0xFFFFFFFC 2 ∧
      ∃ record, decoder.datum (image 0).memory 0 .string 0xFFFFFFFC = .ok record ∧
        record.size = 4 ∧ record.words.flatMap Word.toBytes = [0x41, 0x42, 0, 0]) ∧
    (image 0x43).memory.CharactersAt 0xFFFFFFFC 3 ∧
    (¬ ∃ n, (image 0x43).memory.StringAt 0xFFFFFFFC n) ∧
    decoder.datum (image 0x43).memory 0 .string 0xFFFFFFFC = .error (.unterminated 0xFFFFFFFC) := by
  intro image decoder
  obtain ⟨_, _, hstrings, _⟩ := string_ends_at_terminator {} ∅ (image 0) 0 0xFFFFFFFC
  obtain ⟨_, hwithin, _, hothers⟩ := string_ends_at_terminator {} ∅ (image 0x43) 0 0xFFFFFFFC
  have hstring : (image 0).memory.StringAt 0xFFFFFFFC 2 := by
    refine ⟨?_, by decide⟩
    intro k hk
    match k, hk with
    | 0, _ => exact ⟨0x41, by decide, by decide⟩
    | 1, _ => exact ⟨0x42, by decide, by decide⟩
  have hcharacters : (image 0x43).memory.CharactersAt 0xFFFFFFFC 3 := by
    intro k hk
    match k, hk with
    | 0, _ => exact ⟨0x41, by decide, by decide⟩
    | 1, _ => exact ⟨0x42, by decide, by decide⟩
    | 2, _ => exact ⟨0x43, by decide, by decide⟩
  have hnone : ¬ ∃ n, (image 0x43).memory.StringAt 0xFFFFFFFC n := by
    rintro ⟨n, hn⟩
    have hlt : 0xFFFFFFFC + n < 0x100000000 := hwithin n hn.characters
    have hcases : n = 0 ∨ n = 1 ∨ n = 2 ∨ n = 3 := by omega
    rcases hcases with rfl | rfl | rfl | rfl <;> exact absurd hn.terminator (by decide)
  obtain ⟨record, bytes, hrecord, _, ⟨⟨heven, hle⟩, hleast⟩, hbytes, hwords⟩ := hstrings 2 hstring
  have hthree : (image 0).memory.bytes? 3 0xFFFFFFFC = some [0x41, 0x42, 0] := by decide
  obtain rfl : bytes = [0x41, 0x42, 0] := Option.some.inj (hbytes.symm.trans hthree)
  have hfour : record.size ≤ 4 := hleast ⟨by decide, by decide⟩
  refine ⟨⟨hstring, record, hrecord, by omega, ?_⟩, hcharacters, hnone, hothers hnone⟩
  rw [hwords]
  decide

end Disassembly
