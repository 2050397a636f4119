import Disassembly.Proofs.Fields
import Disassembly.Proofs.FileOffsets

/-!
# Reading an image

What an image made from a file gives back, byte by byte and in larger units:

* **bytes** — the byte at an address comes from the first window that places one there, which need
  not be the first window around the address: one that the end of the file cuts off before it is
  passed over (`Image.memory_ofFile`). Without windows the file lies at address zero
  (`Image.memory_ofBytes_zero`);
* **larger units** — half-words and words are made of the bytes at consecutive addresses, the first
  one high, whatever segments these come from (`Memory.toNat_half?`, `Memory.toNat_word?`), and are
  missing just where one of the bytes is (`Memory.bytes?_eq_none_iff`);
* **the last address** — no segment reaches it (`Image.memory_last`).
-/

namespace Disassembly

/-! ## Runs of bytes -/

/-- The number that a run of bytes denotes, the first one being the highest. -/
def bigEndian (bytes : List UInt8) : Nat :=
  bytes.foldl (fun n b => n * 0x100 + b.toNat) 0

/-- Two steps from an address are one. -/
theorem add_ofNat_ofNat (a : UInt32) (m n : Nat) :
    a + UInt32.ofNat m + UInt32.ofNat n = a + UInt32.ofNat (m + n) := by
  rw [UInt32.add_assoc, UInt32.ofNat_add]

/-- The way from an address to the last one of the space. -/
theorem add_ofNat_last (a : UInt32) : a + UInt32.ofNat (0xFFFFFFFF - a.toNat) = 0xFFFFFFFF := by
  have ha := a.toNat_lt
  have hstep : 0xFFFFFFFF - a.toNat < 0x100000000 := by omega
  apply UInt32.toNat_inj.mp
  rw [UInt32.toNat_add, UInt32.toNat_ofNat_of_lt' hstep]
  show _ = 0xFFFFFFFF
  omega

namespace Memory

/-- The `n` bytes from an address on, when all of them are known. The addresses wrap around. -/
def bytes? (memory : Memory) : Nat → UInt32 → Option (List UInt8)
  | 0, _ => some []
  | n + 1, a => do
    let b ← memory a
    let bs ← bytes? memory n (a + 1)
    return b :: bs

variable (memory : Memory) (a : UInt32)

theorem bytes?_eq_none_iff (n : Nat) :
    memory.bytes? n a = none ↔ ∃ k < n, memory (a + UInt32.ofNat k) = none := by
  induction n generalizing a with
  | zero => simp [bytes?]
  | succ n ih =>
      have hsplit : (∃ k < n + 1, memory (a + UInt32.ofNat k) = none) ↔
          memory a = none ∨ ∃ k < n, memory (a + 1 + UInt32.ofNat k) = none := by
        rw [Nat.exists_lt_succ_left]
        simp only [UInt32.ofNat_add, UInt32.add_assoc, UInt32.add_comm 1]
        simp
      rw [hsplit, ← ih (a + 1), bytes?]
      cases memory a with
      | none => simp
      | some b => cases memory.bytes? n (a + 1) <;> simp

theorem half?_eq : memory.half? a = (memory a).bind fun hi =>
    (memory (a + 1)).bind fun lo => some (Word.ofBytes hi lo) := rfl

/-- A half-word is made of two bytes. -/
theorem toNat_half? : (memory.half? a).map UInt16.toNat = (memory.bytes? 2 a).map bigEndian := by
  rw [half?_eq, bytes?, bytes?, bytes?]
  cases memory a with
  | none => rfl
  | some hi =>
      cases memory (a + 1) with
      | none => rfl
      | some lo => simp [Word.toNat_ofBytes, bigEndian]

/-- A word is made of four bytes. -/
theorem toNat_word? : (memory.word? a).map UInt32.toNat = (memory.bytes? 4 a).map bigEndian := by
  have hthird : a + 1 + 1 = a + 2 := by rw [UInt32.add_assoc]; rfl
  have hfourth : a + 1 + 1 + 1 = a + 2 + 1 := by rw [hthird]
  have hword : memory.word? a = (memory.half? a).bind fun hi =>
      (memory.half? (a + 2)).bind fun lo => some (Word.ofHalves hi lo) := rfl
  rw [hword, half?_eq, half?_eq, bytes?, bytes?, bytes?, bytes?, bytes?, hfourth, hthird]
  cases memory a with
  | none => rfl
  | some b =>
      cases memory (a + 1) with
      | none => rfl
      | some c =>
          cases memory (a + 2) with
          | none => rfl
          | some d =>
              cases memory (a + 2 + 1) with
              | none => rfl
              | some e => simp [Word.toNat_ofHalves, Word.toNat_ofBytes, bigEndian]; omega

end Memory

/-! ## Images -/

namespace Image

/-- A file at address zero. -/
theorem memory_ofBytes_zero {file : Array UInt8} (hsize : file.size < 0x100000000) (a : UInt32) :
    (ofBytes 0 file).memory a = file[a.toNat]? := by
  have hstop : (Segment.stop { base := 0, fileOffset := 0, bytes := file }).toNat = file.size := by
    rw [Segment.stop, UInt32.zero_add]
    exact UInt32.toNat_ofNat_of_lt' hsize
  have hcontains : Segment.contains { base := 0, fileOffset := 0, bytes := file } a = true ↔
      a.toNat < file.size := by
    rw [Segment.contains, Bool.and_eq_true, decide_eq_true_iff, decide_eq_true_iff,
      UInt32.lt_iff_toNat_lt, hstop]
    exact and_iff_right (UInt32.zero_le)
  rw [ofBytes, memory, List.find?_singleton]
  by_cases h : a.toNat < file.size
  · rw [if_pos (hcontains.mpr h), Option.bind_some, Segment.byte?, UInt32.sub_zero]
  · rw [if_neg (fun hc => h (hcontains.mp hc)), Option.bind_none,
      Array.getElem?_eq_none (Nat.le_of_not_lt h)]

/-- The end of a segment is an address, so the last address lies in none. -/
theorem memory_last (image : Image) : image.memory 0xFFFFFFFF = none := by
  have hnone : image.segments.find? (·.contains 0xFFFFFFFF) = none := by
    rw [List.find?_eq_none]
    intro segment _ hcontains
    rw [Segment.contains, Bool.and_eq_true, decide_eq_true_iff, decide_eq_true_iff,
      UInt32.lt_iff_toNat_lt] at hcontains
    have hlt := segment.stop.toNat_lt
    have hlast : (0xFFFFFFFF : UInt32).toNat = 0xFFFFFFFF := rfl
    omega
  rw [memory, hnone, Option.bind_none]

end Image

/-- **Reading an image.** The byte at an address of a file placed in memory is that of the first
window that places a byte of the file there, and there is none without such a window; without any
windows the file lies at address zero. In every image, half-words and words are the big-endian
numbers of the two or four bytes from an address on, and are missing exactly where one of these
bytes is. The last address of the space is in no image. -/
theorem image_reads_placed_bytes :
    (∀ (file : Array UInt8) (windows : List Window) (a : UInt32), file.size < 0x100000000 →
      (windows = [] → (Image.ofFile file windows).memory a = file[a.toNat]?) ∧
      (∀ window, windows.find? (·.places file a) = some window →
        ∃ h : window.offsetOf a < file.size,
          (Image.ofFile file windows).memory a = some file[window.offsetOf a]) ∧
      (windows ≠ [] → windows.find? (·.places file a) = none →
        (Image.ofFile file windows).memory a = none)) ∧
    ∀ image : Image, image.memory 0xFFFFFFFF = none ∧ ∀ a : UInt32,
      (image.memory.half? a).map UInt16.toNat = (image.memory.bytes? 2 a).map bigEndian ∧
      (image.memory.half? a = none ↔ ∃ k < 2, image.memory (a + UInt32.ofNat k) = none) ∧
      (image.memory.word? a).map UInt32.toNat = (image.memory.bytes? 4 a).map bigEndian ∧
      (image.memory.word? a = none ↔ ∃ k < 4, image.memory (a + UInt32.ofNat k) = none) := by
  refine ⟨?_, ?_⟩
  · intro file windows a hsize
    refine ⟨?_, ?_, ?_⟩
    · rintro rfl
      exact Image.memory_ofBytes_zero hsize a
    · intro window hfind
      have hne : windows ≠ [] := List.ne_nil_of_mem (List.mem_of_find?_eq_some hfind)
      have hplaces := List.find?_some (p := (Window.places · file a)) hfind
      obtain ⟨_, _, hbound⟩ := (window.places_iff file a).mp hplaces
      refine ⟨hbound, ?_⟩
      rw [Image.memory_ofFile hne, hfind, Option.bind_some, Array.getElem?_eq_getElem hbound]
    · intro hne hnone
      rw [Image.memory_ofFile hne, hnone, Option.bind_none]
  · intro image
    refine ⟨image.memory_last, ?_⟩
    intro a
    have hhalf := image.memory.toNat_half? a
    have hword := image.memory.toNat_word? a
    refine ⟨hhalf, ?_, hword, ?_⟩
    · rw [← Memory.bytes?_eq_none_iff, ← Option.map_eq_none_iff (f := UInt16.toNat), hhalf,
        Option.map_eq_none_iff]
    · rw [← Memory.bytes?_eq_none_iff, ← Option.map_eq_none_iff (f := UInt32.toNat), hword,
        Option.map_eq_none_iff]

/-- The end of the file cuts the first of two windows off after two bytes, and the second one goes
on there: a word across both. -/
theorem image_reads_placed_bytes_across_windows :
    let file : Array UInt8 := #[0x10, 0x11, 0x12, 0x13]
    let cut : Window := { start := 0x100, stop := 0x110, fileOffset := 2 }
    let whole : Window := { start := 0x100, stop := 0x104, fileOffset := 0 }
    let memory := (Image.ofFile file [cut, whole]).memory
    (file.size < 0x100000000 ∧ [cut, whole].find? (·.places file 0x102) = some whole) ∧
      memory 0x102 = some 0x12 ∧ memory.word? 0x100 = some 0x12131213 ∧
      memory.half? 0x103 = none := by
  intro file cut whole memory
  have hsize : file.size < 0x100000000 := by decide
  have hfind : [cut, whole].find? (·.places file 0x102) = some whole := by decide
  obtain ⟨hbytes, himages⟩ := image_reads_placed_bytes
  obtain ⟨_, hunits⟩ := himages (Image.ofFile file [cut, whole])
  obtain ⟨_, hbyte⟩ := (hbytes file [cut, whole] 0x102 hsize).2.1 whole hfind
  refine ⟨⟨hsize, hfind⟩, hbyte, ?_, ?_⟩
  · have hrun : memory.bytes? 4 0x100 = some [0x12, 0x13, 0x12, 0x13] := by decide
    have hvalue : (memory.word? 0x100).map UInt32.toNat = some 0x12131213 := by
      rw [(hunits 0x100).2.2.1, hrun]
      rfl
    obtain ⟨w, hw, htoNat⟩ := Option.map_eq_some_iff.mp hvalue
    obtain rfl : w = 0x12131213 := UInt32.toNat_inj.mp htoNat
    exact hw
  · exact (hunits 0x103).2.1.mpr ⟨1, by decide, by decide⟩

end Disassembly
