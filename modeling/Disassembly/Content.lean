/-!
# Content of a memory range

A range holds code, or data read as a sequence of kinds that is repeated over the range. `name` is
the written form of a content, as headings show it and range expressions accept it.
-/

namespace Disassembly

/-- How a datum is read. -/
inductive DataKind where
  /-- A 32-bit value. -/
  | long
  /-- A 16-bit value. -/
  | word
  /-- Sixteen bits shown as two bytes. -/
  | bytes
  /-- A string up to a zero byte, padded to an even length. -/
  | string
  /-- A 32-bit code address in a table of interrupt vectors. -/
  | vector
deriving DecidableEq, Repr

namespace DataKind

/-- The letter that stands for the kind. -/
def letter : DataKind → Char
  | long => 'L'
  | word => 'W'
  | bytes => 'B'
  | string => 'S'
  | vector => 'V'

/-- The kind that a letter stands for. -/
def ofLetter? : Char → Option DataKind
  | 'L' => some long
  | 'W' => some word
  | 'B' => some bytes
  | 'S' => some string
  | 'V' => some vector
  | _ => none

@[simp]
theorem ofLetter?_letter (k : DataKind) : ofLetter? k.letter = some k := by
  cases k <;> rfl

end DataKind

/-- What a memory range holds. -/
inductive Content where
  | code
  | data (kinds : List DataKind)
deriving DecidableEq, Repr

namespace Content

/-- Whether the content is code. -/
def isCode : Content → Bool
  | code => true
  | data _ => false

/-- The written form of a content. -/
def name : Content → String
  | code => "CODE"
  | data [.vector] => "DATA:V"
  | data [.long] => "DATA"
  | data kinds => "DATA/" ++ String.ofList (kinds.map DataKind.letter)

/-- The kinds a data range is read as: 32-bit values when none are given. -/
def kinds : Content → List DataKind
  | data (k :: ks) => k :: ks
  | _ => [.long]

end Content

end Disassembly
