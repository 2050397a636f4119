import Disassembly.Layout
import Disassembly.Outline.Basic

/-!
# Code written with its outline

The records of a region with what the outline knows about them: a banner before a function, a line
before any other label, and a separator after a return. The separator of a delayed return comes
after its delay slot.
-/

namespace Disassembly.Outline

/-- A line of an annotated listing. -/
inductive Line where
  /-- The heading of a function, three lines in all. -/
  | banner (function : Function)
  /-- The name of a label. -/
  | label (name : String)
  | record (record : Record)
  | separator
deriving DecidableEq, Repr

namespace Line

/-- The text of a line. -/
def text (bias : UInt32) : Line → String
  | banner f =>
    "\n; " ++ String.ofList (List.replicate 80 '*') ++ "\n; " ++ f.name ++ "  ("
      ++ Text.hexPadded 8 f.entry.toNat ++ "-" ++ Text.hexPadded 8 f.stop.toNat ++ ")\n"
  | label name => name ++ ":\n"
  | record r => r.line bias
  | separator => "; " ++ String.ofList (List.replicate 80 '-') ++ "\n"

end Line

/-- What stands before the record at an address. -/
def introduction (outline : Outline) (a : UInt32) : List Line :=
  match outline.functions[a]? with
  | some f => [.banner f]
  | none =>
    match outline.labels[a]? with
    | some name => [.label name]
    | none => []

/-- The lines written so far, and the address of the record that a separator is to follow. -/
structure Progress where
  lines : Array Line := #[]
  separatorAfter : Option UInt32 := none

/-- Writes one record. -/
def step (outline : Outline) (progress : Progress) (record : Record) : Progress :=
  let lines := progress.lines ++ outline.introduction record.address |>.push (.record record)
  let separatorAfter :=
    if record.address ∈ outline.returns then
      some (if record.isDelayed then record.stop else record.address)
    else progress.separatorAfter
  if separatorAfter = some record.address then
    { lines := lines.push .separator, separatorAfter := none }
  else { lines, separatorAfter }

/-- The lines of records in ascending order. -/
def linesOf (outline : Outline) (records : List Record) : List Line :=
  (records.foldl outline.step {}).lines.toList

/-- The records whose addresses lie in a region, in ascending order. -/
def recordsIn (outline : Outline) (region : Region) : List Record :=
  outline.code.records.filter fun r => region.contains r.address

/-- The annotated listing of a region. -/
def listing (outline : Outline) (region : Region) (bias : UInt32) : String :=
  String.join ((outline.linesOf (outline.recordsIn region)).map (Line.text bias))

end Disassembly.Outline
