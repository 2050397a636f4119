import Disassembly.Text.Digits

/-!
# Structured text

Values in the common notation of numbers, quoted strings, lists in brackets and objects in braces.
They are written on one line without blanks, or on lines of their own with two blanks of indentation
for each level.
-/

namespace Disassembly.Dump

/-- A structured value. -/
inductive Tree where
  | number (n : Nat)
  | text (s : String)
  | list (items : List Tree)
  | object (fields : List (String × Tree))

/-- The spelling of a character between quotes: quotes, backslashes and control characters are
escaped. -/
def quoteChar (c : Char) : List Char :=
  if c = '"' then ['\\', '"']
  else if c = '\\' then ['\\', '\\']
  else if c = '\n' then ['\\', 'n']
  else if c = '\r' then ['\\', 'r']
  else if c = '\t' then ['\\', 't']
  else if c = '\x08' then ['\\', 'b']
  else if c = '\x0c' then ['\\', 'f']
  else if c.toNat < 0x20 then
    ['\\', 'u', '0', '0', Nat.digitChar (c.toNat / 16), Nat.digitChar (c.toNat % 16)]
  else [c]

/-- A string between quotes. -/
def quote (s : String) : String :=
  "\"" ++ String.ofList (s.toList.flatMap quoteChar) ++ "\""

/-- Whether a value is written on one line, or on lines of its own at a level of indentation. -/
inductive Shape where
  | compact
  | indented (level : Nat)
deriving DecidableEq, Repr

namespace Shape

/-- The shape of the parts of a value. -/
def inner : Shape → Shape
  | compact => compact
  | indented level => indented (level + 1)

/-- What stands before a part of a value. -/
def lineBreak : Shape → String
  | compact => ""
  | indented level => "\n" ++ String.ofList (List.replicate (2 * level) ' ')

/-- What stands between the key and the value of a field. -/
def colon : Shape → String
  | compact => ":"
  | indented _ => ": "

/-- Parts between a pair of brackets. -/
def enclose (shape : Shape) (left right : String) (parts : List String) : String :=
  match parts with
  | [] => left ++ right
  | parts =>
    left ++ String.intercalate "," (parts.map (shape.inner.lineBreak ++ ·)) ++ shape.lineBreak
      ++ right

end Shape

mutual

/-- The text of a value. -/
def Tree.write (shape : Shape) : Tree → String
  | .number n => Text.decimal n
  | .text s => quote s
  | .list items => shape.enclose "[" "]" (Tree.writeItems shape.inner items)
  | .object fields => shape.enclose "\x7b" "\x7d" (Tree.writeFields shape.inner fields)

/-- The texts of the items of a list. -/
def Tree.writeItems (shape : Shape) : List Tree → List String
  | [] => []
  | item :: items => item.write shape :: Tree.writeItems shape items

/-- The texts of the fields of an object. -/
def Tree.writeFields (shape : Shape) : List (String × Tree) → List String
  | [] => []
  | (key, value) :: fields =>
    (quote key ++ shape.colon ++ value.write shape) :: Tree.writeFields shape fields

end

end Disassembly.Dump
