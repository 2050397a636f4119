import Disassembly.Listing
import Mathlib.Data.List.Basic

/-!
# What the lines of a listing read

The texts of single lines, written out: `Record.printed` for a record and `Outline.Line.Reads` for
all that can stand in an annotated listing. Statements about lines are statements about printed text
through them (`Record.line_eq_printed`, `Outline.Line.reads_text`).
-/

namespace Disassembly

/-- The address column leaves the file offset out just where it equals the address. -/
theorem addressColumn_eq (bias a : UInt32) :
    addressColumn bias a = Text.hexPadded 8 a.toNat ++
      if (a - bias).toNat = a.toNat then " "
      else " (" ++ Text.hexPadded 8 (a - bias).toNat ++ ") " := by
  have hzero : (a - bias).toNat = a.toNat ↔ bias = 0 := by
    rw [UInt32.toNat_inj]
    grind
  rw [addressColumn]
  by_cases h : bias = 0
  · rw [if_pos h, if_pos (hzero.mpr h)]
  · rw [if_neg h, if_neg fun heq => h (hzero.mp heq)]
    simp only [String.append_assoc]

/-- The line of a record: its address, its file offset in parentheses where that is another number,
and its text. -/
def Record.printed (bias : UInt32) (record : Record) : String :=
  let offset := (record.address - bias).toNat
  Text.hexPadded 8 record.address.toNat ++
    (if offset = record.address.toNat then " " else " (" ++ Text.hexPadded 8 offset ++ ") ") ++
    record.text ++ "\n"

theorem Record.line_eq_printed (bias : UInt32) (record : Record) :
    record.line bias = record.printed bias := by
  rw [Record.line, addressColumn_eq]
  rfl

namespace Outline.Line

def asterisks : String :=
  "********************************************************************************"

def dashes : String :=
  "--------------------------------------------------------------------------------"

/-- What each line of an annotated listing reads. -/
inductive Reads (bias : UInt32) : Line → String → Prop
  | banner (f : Function) : Reads bias (.banner f)
      ("\n; " ++ asterisks ++ "\n; " ++ f.name ++ "  (" ++ Text.hexPadded 8 f.entry.toNat ++ "-"
        ++ Text.hexPadded 8 f.stop.toNat ++ ")\n")
  | label (name : String) : Reads bias (.label name) (name ++ ":\n")
  | record (r : Record) : Reads bias (.record r) (r.printed bias)
  | separator : Reads bias .separator ("; " ++ dashes ++ "\n")

theorem reads_text (bias : UInt32) (line : Line) : line.Reads bias (line.text bias) := by
  cases line with
  | banner f =>
      have hrule : String.ofList (List.replicate 80 '*') = asterisks := by decide
      rw [text, hrule]
      exact .banner f
  | label name => exact .label name
  | record r =>
      rw [text, Record.line_eq_printed]
      exact .record r
  | separator =>
      have hrule : String.ofList (List.replicate 80 '-') = dashes := by decide
      rw [text, hrule]
      exact .separator

end Outline.Line

/-- The text of a section that is not skipped is its body between the heading and an empty line. -/
theorem Section.textWith_eq {s : Section} (h : s.ending ≠ .unbacked) (body : String) :
    s.textWith body = s.heading ++ "\n\n" ++ body ++ "\n" := by
  cases s with
  | unbacked _ => exact absurd rfl h
  | backed _ _ _ => rfl

end Disassembly
