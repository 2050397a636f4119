import Disassembly.Content
import Disassembly.Decoder.Basic
import Disassembly.Record
import Disassembly.Text.Escape

/-!
# Decoding data

A data range is read as a sequence of kinds, one datum after the other. Interrupt vectors are
numbered from the top of their table: the entry at offset `0x3FC` is number zero.
-/

namespace Disassembly

/-- The offset of interrupt zero from the start of a vector table. -/
def interruptZero : UInt32 := 0x3FC

/-- The number of the interrupt whose vector lies at `a`, in a table that starts at `origin`. -/
def interruptNumber? (origin a : UInt32) : Option Nat :=
  let offset := a - origin
  if offset ≤ interruptZero then some ((interruptZero - offset).toNat / 4) else none

namespace Decoder

/-- The record of a datum at `pc`. -/
def datumRecord (decoder : Decoder) (pc : UInt32) (words : List UInt16)
    (mnemonic operands : String) (comment : Option String) (flow : Option Flow) : Record :=
  { address := pc
    words := words
    size := 2 * words.length
    text := decoder.style.line words mnemonic operands comment
    isCode := false
    flow := flow }

/-- The 32-bit value at `pc`. -/
def long (decoder : Decoder) (memory : Memory) (pc : UInt32) : Except DecodeError Record := do
  let hi ← memory.fetch pc
  let lo ← memory.fetch (pc + 2)
  let (value, comment) := decoder.style.address decoder.symbols (Word.ofHalves hi lo)
  return decoder.datumRecord pc [hi, lo] "dl" value comment none

/-- The comment of an interrupt vector: its number, before the comment of its value. -/
def vectorComment (decoder : Decoder) (origin pc : UInt32) (comment : Option String) :
    Option String :=
  match interruptNumber? origin pc with
  | none => comment
  | some n =>
    let label := "interrupt " ++ decoder.style.numberWide 2 n
    match comment with
    | some c => some (label ++ " " ++ c)
    | none => some label

/-- The interrupt vector at `pc`, in a table that starts at `origin`. -/
def vector (decoder : Decoder) (memory : Memory) (origin pc : UInt32) :
    Except DecodeError Record := do
  let hi ← memory.fetch pc
  let lo ← memory.fetch (pc + 2)
  let target := Word.ofHalves hi lo
  let (value, comment) := decoder.style.address decoder.symbols target
  return decoder.datumRecord pc [hi, lo] "dl" value (decoder.vectorComment origin pc comment)
    (some { kind := .call, target := some target, unconditional := false, delayed := false })

/-- The 16-bit value at `pc`. -/
def word (decoder : Decoder) (memory : Memory) (pc : UInt32) : Except DecodeError Record := do
  let w ← memory.fetch pc
  return decoder.datumRecord pc [w] "dw" (decoder.style.numberWide 4 w.toNat) none none

/-- The pair of bytes at `pc`. -/
def bytes (decoder : Decoder) (memory : Memory) (pc : UInt32) : Except DecodeError Record := do
  let w ← memory.fetch pc
  let hi := decoder.style.numberWide 2 (w >>> 8).toNat
  let lo := decoder.style.numberWide 2 (w &&& 0xFF).toNat
  return decoder.datumRecord pc [w] "db" (hi ++ ", " ++ lo) none none

/-- The bytes of a string with its terminator, and one more where that makes the length even: the
byte that follows in memory, or zero when there is none. -/
def stringBytes (memory : Memory) (pc : UInt32) (characters : Array UInt8) : Array UInt8 :=
  let terminated := characters.push 0
  if terminated.size % 2 = 1 then
    terminated.push ((memory (pc + UInt32.ofNat terminated.size)).getD 0)
  else terminated

/-- The string at `pc`. -/
def string (decoder : Decoder) (memory : Memory) (pc : UInt32) : Except DecodeError Record :=
  match memory.beforeZero? #[] pc with
  | none => .error (.unterminated pc)
  | some characters =>
    let quoted := "\"" ++ String.ofList (Text.escapeBytes characters.toList) ++ "\""
    let words := Word.pairBytes (stringBytes memory pc characters)
    .ok (decoder.datumRecord pc words "ds" quoted none none)

/-- The datum of a given kind at `pc`; vectors are numbered from `origin`. -/
def datum (decoder : Decoder) (memory : Memory) (origin : UInt32) (kind : DataKind)
    (pc : UInt32) : Except DecodeError Record :=
  match kind with
  | .long => decoder.long memory pc
  | .word => decoder.word memory pc
  | .bytes => decoder.bytes memory pc
  | .string => decoder.string memory pc
  | .vector => decoder.vector memory origin pc

/-- One datum of each kind, one after the other from `pc` on. -/
def data (decoder : Decoder) (memory : Memory) (origin : UInt32) :
    List DataKind → UInt32 → Except DecodeError (List Record)
  | [], _ => .ok []
  | kind :: kinds, pc => do
    let record ← decoder.datum memory origin kind pc
    let records ← decoder.data memory origin kinds record.stop
    return record :: records

end Decoder

end Disassembly
