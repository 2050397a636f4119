import Disassembly.Dump.Tree
import Disassembly.Layout
import Disassembly.Outline.Basic

/-!
# Reports for debugging

The layout, the symbols, the segments of the image and the functions of the outline as structured
text.
-/

namespace Disassembly

/-- The name of a kind in reports. -/
def DataKind.reportName : DataKind → String
  | long => "Long"
  | word => "Word"
  | bytes => "Byte"
  | string => "Str"
  | vector => "Vector"

namespace Dump

/-- A content as a structured value. -/
def content : Content → Tree
  | .code => .text "Code"
  | .data kinds => .object [("Data", .list (kinds.map fun k => .text k.reportName))]

/-- A region as a structured value. -/
def region (r : Region) : Tree :=
  .object [("start", .number r.start.toNat), ("end", .number r.stop.toNat),
    ("file_offset", .number r.fileOffset.toNat), ("content", content r.content)]

/-- A map, under its option and its title. -/
def regionMap (option title : String) (map : RegionMap) : Tree :=
  .object [("option", .text option), ("name", .text title),
    ("ranges", .list (map.regions.map region))]

/-- A layout as a structured value. -/
def layout (l : Layout) : Tree :=
  .object [("file_map", regionMap "i" "File map" l.files),
    ("mem_map", regionMap "m" "Memory map" l.contents),
    ("range_map", regionMap "d" "Selected ranges" l.selected)]

/-- Symbols under their addresses. -/
def symbols (s : Symbols) : Tree :=
  .object (s.toList.map fun d => (Text.decimal d.1.toNat, .text d.2))

/-- The places of the segments of an image. -/
def segments (image : Image) : Tree :=
  .list (image.segments.map fun s =>
    .object [("base", .number s.base.toNat), ("file_offset", .number s.fileOffset.toNat)])

/-- The functions of an outline. -/
def functions (outline : Outline) : Tree :=
  .list (outline.functions.toList.map fun f =>
    .object [("entry", .number f.2.entry.toNat), ("end", .number f.2.stop.toNat),
      ("name", .text f.2.name)])

/-- A report for debugging. -/
def report (title : String) (shape : Shape) (tree : Tree) : Event :=
  { severity := .debug, text := title ++ ": " ++ tree.write shape }

end Dump

end Disassembly
