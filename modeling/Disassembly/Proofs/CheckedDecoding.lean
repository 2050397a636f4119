import Disassembly.Proofs.Addresses
import Disassembly.Proofs.LosslessListing

/-!
# Decoding with every partial operation checked

Some operations of a disassembler have no result on part of their inputs: a subtraction below zero,
an index past the end, a product that is too large, a byte without a partner. Here each of them is
checked, and a `Fault` ends the computation where one fails. The definitions of `Checked` follow
those that run, step by step, and are shown to give the same results without ever a fault:

* **everywhere** — reading a byte of an image, numbering an interrupt, realigning an address and
  looking a first word up are defined on all inputs (`Checked.read_eq`,
  `Checked.interruptNumber_eq`, `Checked.evenDown_eq`, `Checked.descriptor_eq`). Decoding may
  therefore take the memory and the numbers as functions;
* **operands** — an instruction of the standard decoder has the words that its layout reads, and
  scales small enough for its displacements (`Checked.operands_eq`);
* **strings** — the bytes of a string come in pairs (`Checked.halves_eq`);
* **walks** — a walk whose passes have no fault has none itself (`Checked.walk_eq`).
-/

namespace Disassembly

/-- Why an operation has no result. -/
inductive Fault where
  /-- A difference below zero. -/
  | underflow
  /-- A number that does not fit into a signed word. -/
  | overflow
  /-- An index past the end of a sequence. -/
  | outOfBounds
  /-- A span of addresses whose end lies before its start. -/
  | inverted
  /-- An address that should have a name and has none. -/
  | unnamed
deriving DecidableEq, Repr

/-- Computations whose partial operations are checked. -/
abbrev Checked := Except Fault

/-- Checked computations that may also come upon a decoding error. -/
abbrev Attempt := ExceptT DecodeError Checked

/-- The attempt that makes no partial operation. -/
def Attempt.sound {α : Type} (result : Except DecodeError α) : Attempt α :=
  ExceptT.mk (.ok result)

namespace Checked

variable {α β : Type}

/-- The value of an optional result that has to be there. -/
def demand (fault : Fault) : Option α → Checked α
  | some a => .ok a
  | none => .error fault

/-- The difference of two addresses. -/
def minus (a b : UInt32) : Checked UInt32 :=
  if b ≤ a then .ok (a - b) else .error .underflow

/-- A number as a signed word. -/
def signed (i : Int) : Checked Int :=
  if -2 ^ 31 ≤ i ∧ i < 2 ^ 31 then .ok i else .error .overflow

/-! ## Composition -/

theorem demand_some (fault : Fault) (a : α) : demand fault (some a) = .ok a := rfl

theorem minus_of_le {a b : UInt32} (h : b ≤ a) : minus a b = .ok (a - b) :=
  if_pos h

theorem signed_of_bounds {i : Int} (hlow : -2 ^ 31 ≤ i) (hhigh : i < 2 ^ 31) : signed i = .ok i :=
  if_pos ⟨hlow, hhigh⟩

theorem ok_bind (a : α) (f : α → Checked β) : (Except.ok a >>= f) = f a := rfl

theorem mapM_eq {f : α → Checked β} {g : α → β} {as : List α} (h : ∀ a ∈ as, f a = .ok (g a)) :
    as.mapM f = .ok (as.map g) := by
  induction as with
  | nil => rfl
  | cons a as ih =>
      rw [List.mapM_cons, h a List.mem_cons_self, ok_bind,
        ih fun b hb => h b (List.mem_cons_of_mem a hb)]
      rfl

end Checked

namespace Attempt

variable {α β : Type}

theorem sound_bind (x : Except DecodeError α) (f : α → Except DecodeError β) :
    (sound x >>= fun a => sound (f a)) = sound (x >>= f) := by
  cases x <;> rfl

theorem lift_ok_bind (a : α) (f : α → Attempt β) :
    ((liftM (Except.ok a : Checked α) : Attempt α) >>= f) = f a := rfl

end Attempt

namespace Checked

/-! ## Operations that are defined everywhere -/

/-- The byte at an address of a segment. -/
def byte (segment : Segment) (a : UInt32) : Checked UInt8 := do
  let offset ← minus a segment.base
  demand .outOfBounds segment.bytes[offset.toNat]?

/-- The byte at an address of an image: that of the first segment that contains it. -/
def read (image : Image) (a : UInt32) : Checked (Option UInt8) :=
  match image.segments.find? (·.contains a) with
  | none => .ok none
  | some segment => some <$> byte segment a

/-- A segment has a byte at every address it contains, also when it is longer than the address
space: its end then wraps around, and what it contains lies below that end. -/
theorem byte_eq {segment : Segment} {a : UInt32} (h : segment.contains a = true) :
    ∃ b, byte segment a = .ok b ∧ segment.byte? a = some b := by
  rw [Segment.contains, Bool.and_eq_true, decide_eq_true_iff, decide_eq_true_iff] at h
  obtain ⟨hbase, hstop⟩ := h
  have hoffset : (a - segment.base).toNat < segment.bytes.size := by
    rw [UInt32.toNat_sub_of_le _ _ hbase]
    rw [UInt32.le_iff_toNat_le] at hbase
    rw [UInt32.lt_iff_toNat_lt, Segment.stop, UInt32.toNat_add, UInt32.toNat_ofNat'] at hstop
    -- twice reduced modulo `2 ^ 32`, the end is still no further from the base than the size
    omega
  refine ⟨segment.bytes[(a - segment.base).toNat], ?_, Array.getElem?_eq_getElem hoffset⟩
  rw [byte, minus_of_le hbase, ok_bind, Array.getElem?_eq_getElem hoffset, demand_some]

theorem read_eq (image : Image) (a : UInt32) : read image a = .ok (image.memory a) := by
  unfold read Image.memory
  cases hfind : image.segments.find? (·.contains a) with
  | none => rfl
  | some segment =>
      have hcontains : segment.contains a = true := by simpa using List.find?_some hfind
      obtain ⟨b, hbyte, hbyte?⟩ := byte_eq hcontains
      rw [Option.bind_some, hbyte?]
      dsimp only
      rw [hbyte]
      rfl

/-- The even address at or before an address. -/
def evenDown (a : UInt32) : Checked UInt32 :=
  if a &&& 1 = 0 then .ok a else minus a 1

theorem evenDown_eq (a : UInt32) : evenDown a = .ok (Disassembly.evenDown a) := by
  have hbit := toNat_and_one a
  unfold evenDown
  by_cases h : a &&& 1 = 0
  · rw [if_pos h, Disassembly.evenDown, h, UInt32.sub_zero]
  · have hne : (a &&& 1).toNat ≠ 0 := fun hzero => h (UInt32.toNat_inj.mp hzero)
    have hone : a &&& 1 = 1 := UInt32.toNat_inj.mp (by rw [UInt32.toNat_one]; omega)
    have hle : 1 ≤ a := by
      rw [UInt32.le_iff_toNat_le, UInt32.toNat_one]
      omega
    rw [if_neg h, minus_of_le hle, Disassembly.evenDown, hone]

/-- The number of the interrupt whose vector lies at `a`, in a table that starts at `origin`. -/
def interruptNumber (origin a : UInt32) : Checked (Option Nat) :=
  let offset := a - origin
  if offset ≤ interruptZero then do
    let number ← minus interruptZero offset
    return some (number.toNat / 4)
  else return none

theorem interruptNumber_eq (origin a : UInt32) :
    interruptNumber origin a = .ok (interruptNumber? origin a) := by
  unfold interruptNumber interruptNumber?
  dsimp only
  split
  · next h => rw [minus_of_le h]; rfl
  · rfl

/-- The descriptor of a first word, that of an unknown word when none claims it. -/
def descriptor (index : Index) (first : UInt16) : Checked Descriptor := do
  let slot ← demand .outOfBounds index.slots[first.toNat]?
  match slot with
  | some n => demand .outOfBounds index.descriptors[n.toNat]?
  | none => return .unknown

/-- There is a slot for every word, and every filled slot names a descriptor. -/
theorem descriptor_build (ds : List Descriptor) (first : UInt16) :
    descriptor (.build ds) first = .ok (((Index.build ds).lookup first).getD .unknown) := by
  rw [descriptor, Index.lookup, Index.getElem?_slots_build, demand_some, ok_bind]
  cases hslot : ds.findIdx? (·.claims first) with
  | none => rfl
  | some n =>
      have hn := (List.findIdx?_eq_some_iff_findIdx_eq.mp hslot).1
      have hposition : (UInt16.ofNat n).toNat < ds.length :=
        Nat.lt_of_le_of_lt (Nat.mod_le n _) hn
      obtain ⟨d, hd⟩ : ∃ d, (Index.build ds).descriptors[(UInt16.ofNat n).toNat]? = some d := by
        rw [Index.build, List.getElem?_toArray, List.getElem?_eq_getElem hposition]
        exact ⟨_, rfl⟩
      simp only [Option.map_some, Option.join_some, Option.bind_some, hd, demand_some,
        Option.getD_some]

theorem descriptor_eq (style : Style) (symbols : Symbols) (first : UInt16) :
    descriptor .standard first = .ok ((Decoder.standard style symbols).descriptor first) := by
  rw [Decoder.descriptor, Decoder.standard, Index.standard, descriptor_build]

/-! ## Instructions -/

/-- The immediate value that a layout reads from the words of an instruction. -/
def immediate (shape : Shape) (words : List UInt16) : Checked Int := do
  let first ← demand .outOfBounds words[0]?
  match shape with
  | .immediate20 =>
    let second ← demand .outOfBounds words[1]?
    return Operands.immediateOf shape first second 0
  | .immediate32 =>
    let second ← demand .outOfBounds words[1]?
    let third ← demand .outOfBounds words[2]?
    return Operands.immediateOf shape first second third
  | _ => signed (Operands.immediateOf shape first 0 0)

/-- The direct target that a layout reads from the first word of an instruction at `pc`. -/
def target (shape : Shape) (pc : UInt32) (words : List UInt16) : Checked (Option UInt32) := do
  let first ← demand .outOfBounds words[0]?
  let relative (n : Nat) : Checked (Option UInt32) := do
    let distance ← signed (Word.signedField n first.toUInt32 * 2)
    return some (pc + 2 + Word.ofSigned distance)
  match shape with
  | .nearTarget => relative 8
  | .farTarget => relative 11
  | _ => return none

/-- The operand fields of an instruction at `pc`. -/
def operands (shape : Shape) (pc : UInt32) (words : List UInt16) : Checked Operands := do
  let immediate ← immediate shape words
  let target ← target shape pc words
  return { Operands.ofWords shape pc words with immediate, target }

theorem scaled_bounds {v : Int} {scale : Nat} (hlow : -128 ≤ v) (hhigh : v < 256)
    (hscale : scale ≤ 4) : -2 ^ 31 ≤ v * scale ∧ v * scale < 2 ^ 31 := by
  have hcases : scale = 0 ∨ scale = 1 ∨ scale = 2 ∨ scale = 3 ∨ scale = 4 := by omega
  rcases hcases with rfl | rfl | rfl | rfl | rfl <;> omega

/-- Small scales keep an immediate value without extension words small. -/
theorem immediateOf_bounds {shape : Shape} (hread : shape.wordsRead = 1)
    (hscale : shape.scale ≤ 4) (first second third : UInt16) :
    -2 ^ 31 ≤ Operands.immediateOf shape first second third ∧
      Operands.immediateOf shape first second third < 2 ^ 31 := by
  have hnibble := Word.toNat_nibble first
  have hmiddle := Word.toNat_middle first
  have hlow := Word.toNat_low first
  have hsigned (x : UInt32) := Word.signedField_bounds (n := 8) (by decide) (by decide) x
  have hsignedMiddle := hsigned ((first.toUInt32 >>> 4) &&& 0xFF)
  have hsignedLow := hsigned (first.toUInt32 &&& 0xFF)
  cases shape with
  | immediate20 => cases hread
  | immediate32 => cases hread
  | loadFrame scale => exact scaled_bounds hsignedMiddle.1 (by omega) hscale
  | storeFrame scale => exact scaled_bounds hsignedMiddle.1 (by omega) hscale
  | loadDirect scale => exact scaled_bounds (by omega) (by omega) hscale
  | storeDirect scale => exact scaled_bounds (by omega) (by omega) hscale
  | _ =>
      simp only [Operands.immediateOf, Word.onesField_four]
      omega

theorem immediate_eq {shape : Shape} {words : List UInt16}
    (hread : shape.wordsRead ≤ words.length) (hscale : shape.scale ≤ 4) :
    immediate shape words = .ok (Operands.immediateOf shape (words.getD 0 0) (words.getD 1 0)
      (words.getD 2 0)) := by
  cases words with
  | nil => cases shape <;> simp [Shape.wordsRead] at hread
  | cons first rest =>
      rw [immediate, List.getElem?_cons_zero, demand_some, ok_bind, List.getD_cons_zero]
      cases shape with
      | immediate20 =>
          obtain ⟨second, others, rfl⟩ : ∃ second others, rest = second :: others := by
            cases rest <;> simp [Shape.wordsRead] at hread ⊢
          rfl
      | immediate32 =>
          obtain ⟨second, third, others, rfl⟩ :
              ∃ second third others, rest = second :: third :: others := by
            rcases rest with _ | ⟨_, _ | _⟩ <;> simp [Shape.wordsRead] at hread ⊢
          rfl
      | _ =>
          obtain ⟨hlow, hhigh⟩ := immediateOf_bounds rfl hscale first 0 0
          exact signed_of_bounds hlow hhigh

theorem target_eq (shape : Shape) (pc : UInt32) (first : UInt16) (rest : List UInt16) :
    target shape pc (first :: rest) = .ok (Operands.targetOf shape pc first) := by
  have hnear := Word.signedField_bounds (n := 8) (by decide) (by decide) first.toUInt32
  have hfar := Word.signedField_bounds (n := 11) (by decide) (by decide) first.toUInt32
  rw [target, List.getElem?_cons_zero, demand_some, ok_bind]
  cases shape with
  | nearTarget =>
      dsimp only
      rw [signed_of_bounds (by omega) (by omega)]
      rfl
  | farTarget =>
      dsimp only
      rw [signed_of_bounds (by omega) (by omega)]
      rfl
  | _ => rfl

/-- The operands of an instruction that has the words its layout reads. -/
theorem operands_eq {shape : Shape} (pc : UInt32) {first : UInt16} {rest : List UInt16}
    (hread : shape.wordsRead ≤ (first :: rest).length) (hscale : shape.scale ≤ 4) :
    operands shape pc (first :: rest) = .ok (Operands.ofWords shape pc (first :: rest)) := by
  rw [operands, immediate_eq hread hscale, ok_bind, target_eq, ok_bind]
  rfl

/-- The record of an instruction at `pc` with the given words. -/
def instruction (decoder : Decoder) (d : Descriptor) (pc : UInt32) (words : List UInt16) :
    Checked Record := do
  let operands ← operands d.shape pc words
  let (text, comment) := operands.text decoder.style decoder.symbols d.shape words
  return {
    address := pc
    words := words
    size := 2 * d.units
    text := decoder.style.line words d.mnemonic text comment
    isCode := true
    flow := d.flow operands.target }

/-- The instruction at `pc`. -/
def code (decoder : Decoder) (memory : Memory) (pc : UInt32) : Attempt Record := do
  let first ← Attempt.sound (memory.fetch pc)
  let d ← descriptor .standard first
  let rest ← Attempt.sound (memory.fetchMany d.extensions (pc + 2))
  instruction decoder d pc (first :: rest)

/-- A descriptor of the instruction set asks for the words that its layout reads. -/
theorem instruction_eq (decoder : Decoder) {d : Descriptor} (hd : d ∈ InstructionSet.catalogue)
    (pc : UInt32) (first : UInt16) {rest : List UInt16} (hrest : rest.length = d.extensions) :
    instruction decoder d pc (first :: rest) =
      .ok (decoder.instruction d pc (first :: rest)) := by
  obtain ⟨_, hunits, _, _, hscale⟩ := InstructionSet.regular hd
  have hread : d.shape.wordsRead ≤ (first :: rest).length := by
    rw [← hunits, Descriptor.units, List.length_cons, hrest, Nat.add_comm]
  rw [instruction, operands_eq pc hread hscale, ok_bind]
  rfl

/-- A decoder whose descriptors are those of the instruction set. -/
structure Standard (decoder : Decoder) : Prop where
  lookup : ∀ first, descriptor .standard first = .ok (decoder.descriptor first)
  catalogue : ∀ first, decoder.descriptor first ∈ InstructionSet.catalogue

theorem standard (style : Style) (symbols : Symbols) : Standard (.standard style symbols) :=
  ⟨descriptor_eq style symbols,
    fun first => List.mem_cons.mpr (Decoder.standard_descriptor style symbols first)⟩

theorem code_eq {decoder : Decoder} (hdecoder : Standard decoder) (memory : Memory)
    (pc : UInt32) : code decoder memory pc = .sound (decoder.code memory pc) := by
  rw [code, Decoder.code, ← Attempt.sound_bind]
  -- the descriptor stays a variable from here on: its value would be searched for in the index
  refine bind_congr fun first => ?_
  rw [hdecoder.lookup, Attempt.lift_ok_bind, ← Attempt.sound_bind]
  cases hrest : memory.fetchMany (decoder.descriptor first).extensions (pc + 2) with
  | error error => rfl
  | ok rest =>
      have hlength := Memory.fetchMany_length hrest
      have hinstruction := instruction_eq decoder (hdecoder.catalogue first) pc first hlength
      show (liftM (instruction decoder _ pc (first :: rest)) : Attempt Record) = _
      rw [hinstruction]
      rfl

/-! ## Strings -/

/-- The half-words of a run of bytes, each of two bytes that have to be there; an odd last byte
begins one as well. -/
def halves (bytes : Array UInt8) : Checked (List UInt16) :=
  (List.range ((bytes.size + 1) / 2)).mapM fun k => do
    let hi ← demand .outOfBounds bytes[2 * k]?
    let lo ← demand .outOfBounds bytes[2 * k + 1]?
    return Word.ofBytes hi lo

theorem halves_eq {bytes : Array UInt8} (heven : bytes.size % 2 = 0) :
    halves bytes = .ok (Word.pairBytes bytes) := by
  -- no half-word is begun that is not also completed
  have hcount : (bytes.size + 1) / 2 = bytes.size / 2 := by omega
  rw [halves, hcount, Word.pairBytes]
  apply mapM_eq
  intro k hk
  have hk := List.mem_range.mp hk
  have hhi : 2 * k < bytes.size := by omega
  have hlo : 2 * k + 1 < bytes.size := by omega
  simp only [Array.getElem?_eq_getElem hhi, Array.getElem?_eq_getElem hlo, demand_some, ok_bind,
    Array.getD, hhi, hlo]
  rfl

/-- The string at `pc`. -/
def string (decoder : Decoder) (memory : Memory) (pc : UInt32) : Attempt Record :=
  match memory.beforeZero? #[] pc with
  | none => throw (.unterminated pc)
  | some characters => do
    let quoted := "\"" ++ String.ofList (Text.escapeBytes characters.toList) ++ "\""
    let words ← halves (Decoder.stringBytes memory pc characters)
    return decoder.datumRecord pc words "ds" quoted none none

theorem string_eq (decoder : Decoder) (memory : Memory) (pc : UInt32) :
    string decoder memory pc = .sound (decoder.string memory pc) := by
  unfold string Decoder.string
  cases memory.beforeZero? #[] pc with
  | none => rfl
  | some characters =>
      have heven := (Decoder.stringBytes_size memory pc characters).2
      dsimp only
      rw [halves_eq heven]
      rfl

/-! ## Passes and walks -/

/-- The datum of a given kind at `pc`. Apart from strings, nothing but reads and the numbers of
interrupts could fail here. -/
def datum (decoder : Decoder) (memory : Memory) (origin : UInt32) (kind : DataKind)
    (pc : UInt32) : Attempt Record :=
  match kind with
  | .string => string decoder memory pc
  | _ => .sound (decoder.datum memory origin kind pc)

theorem datum_eq (decoder : Decoder) (memory : Memory) (origin : UInt32) (kind : DataKind)
    (pc : UInt32) :
    datum decoder memory origin kind pc = .sound (decoder.datum memory origin kind pc) := by
  cases kind with
  | string => exact string_eq decoder memory pc
  | _ => rfl

/-- One datum of each kind, one after the other from `pc` on. -/
def data (decoder : Decoder) (memory : Memory) (origin : UInt32) :
    List DataKind → UInt32 → Attempt (List Record)
  | [], _ => return []
  | kind :: kinds, pc => do
    let record ← datum decoder memory origin kind pc
    let records ← data decoder memory origin kinds record.stop
    return record :: records

theorem data_eq (decoder : Decoder) (memory : Memory) (origin : UInt32) (kinds : List DataKind)
    (pc : UInt32) :
    data decoder memory origin kinds pc = .sound (decoder.data memory origin kinds pc) := by
  induction kinds generalizing pc with
  | nil => rfl
  | cons kind kinds ih =>
      rw [data, Decoder.data, datum_eq, ← Attempt.sound_bind]
      refine bind_congr fun record => ?_
      rw [ih, ← Attempt.sound_bind]
      rfl

/-- The pass at `pc` over a region with the given content; vectors are numbered from `origin`. -/
def pass (decoder : Decoder) (memory : Memory) (content : Content) (origin pc : UInt32) :
    Attempt Pass :=
  match content with
  | .code => do
    let record ← code decoder memory pc
    return { start := pc, records := [record] }
  | .data _ => do
    let records ← data decoder memory origin content.kinds pc
    return { start := pc, records }

theorem pass_eq {decoder : Decoder} (hdecoder : Standard decoder) (memory : Memory)
    (content : Content) (origin pc : UInt32) :
    pass decoder memory content origin pc = .sound (decoder.pass memory content origin pc) := by
  cases content with
  | code =>
      rw [pass, Decoder.pass, code_eq hdecoder, ← Attempt.sound_bind]
      rfl
  | data kinds =>
      rw [pass, Decoder.pass, data_eq, ← Attempt.sound_bind]
      rfl

/-- Passes from `pc` on, after those already `done`, as long as they start below `stop`. -/
def walk (next : UInt32 → Attempt Pass) (stop : UInt32) (done : Array Pass) (pc : UInt32) :
    Checked Trace :=
  if pc < stop then do
    match ← (next pc).run with
    | .error error => return { passes := done.toList, failure := some { address := pc, error } }
    | .ok pass =>
      let after := pc.toNat + pass.size % 0x100000000
      if _h : pc.toNat < after ∧ after < 0x100000000 then
        walk next stop (done.push pass) (UInt32.ofNat after)
      else return { passes := (done.push pass).toList, failure := none }
  else return { passes := done.toList, failure := none }
termination_by 0x100000000 - pc.toNat
decreasing_by
  rw [UInt32.toNat_ofNat_of_lt' _h.2]
  omega

theorem walk_eq {next : UInt32 → Attempt Pass} {next' : UInt32 → Except DecodeError Pass}
    (hnext : ∀ pc, next pc = .sound (next' pc)) (stop : UInt32) (done : Array Pass)
    (pc : UInt32) : walk next stop done pc = .ok (Trace.walk next' stop done pc) := by
  fun_induction Trace.walk next' stop done pc with
  | case1 done pc hlt error herror =>
      rw [walk, if_pos hlt, hnext, herror]
      rfl
  | case2 done pc hlt pass hpass after h ih =>
      rw [walk, if_pos hlt, hnext, hpass]
      show dite _ _ _ = _
      rw [dif_pos h]
      exact ih
  | case3 done pc hlt pass hpass after h =>
      rw [walk, if_pos hlt, hnext, hpass]
      show dite _ _ _ = _
      rw [dif_neg h]
      rfl
  | case4 done pc hle =>
      rw [walk, if_neg hle]
      rfl

end Checked

end Disassembly
