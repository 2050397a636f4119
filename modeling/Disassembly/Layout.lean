import Disassembly.Event
import Disassembly.Image
import Disassembly.Record
import Disassembly.RegionMap
import Disassembly.Text.Digits

/-!
# Layouts

A layout says where the input file lies in memory, what the memory holds, and which part of it is
wanted. Its `requests` are the regions to decode. A request is backed by the first file region that
contains its start; the distance between the two then gives the file offset of every address.
-/

namespace Disassembly

/-- The three maps that describe a job. -/
structure Layout where
  /-- Where the input file lies. -/
  files : RegionMap := {}
  /-- What the memory holds. -/
  contents : RegionMap := {}
  /-- The wanted part; all of it when empty. -/
  selected : RegionMap := {}
deriving DecidableEq, Repr

namespace Layout

/-- The windows of the input file that the image is made of. -/
def windows (layout : Layout) : List Window :=
  layout.files.regions.map fun r => { start := r.start, stop := r.stop, fileOffset := r.fileOffset }

/-- The regions before selection: those with declared content, or else every file region as
code. -/
def base (layout : Layout) : List Region :=
  if layout.contents.isEmpty then
    layout.files.regions.map fun r => { start := r.start, stop := r.stop }
  else layout.contents.regions

/-- The regions to decode: the base regions, each cut down to every selected region in turn. -/
def requests (layout : Layout) : List Region :=
  if layout.selected.isEmpty then layout.base
  else layout.base.flatMap fun r => layout.selected.regions.filterMap r.intersect?

/-- The file region behind a region: the first one that contains its start. -/
def backing? (layout : Layout) (region : Region) : Option Region :=
  layout.files.find? region.start

/-- A warning for each pair of overlapping regions of a map, named by its option. -/
def overlapWarnings (option : Char) (map : RegionMap) : List Event :=
  map.overlaps.map fun (r, s) =>
    { severity := .warn
      text := "-" ++ option.toString ++ ": ranges " ++ Text.lowerAddress r.start ++ "-"
        ++ Text.lowerAddress r.stop ++ " and " ++ Text.lowerAddress s.start ++ "-"
        ++ Text.lowerAddress s.stop ++ " overlap, the first one wins" }

/-- The warnings about overlapping regions, map by map. -/
def warnings (layout : Layout) : List Event :=
  overlapWarnings 'i' layout.files ++ overlapWarnings 'm' layout.contents
    ++ overlapWarnings 'd' layout.selected

/-- The warning that no content is declared. -/
def requestWarnings (layout : Layout) : List Event :=
  if layout.contents.isEmpty then
    [{ severity := .warn
       text := "no memory ranges declared, disassembling every file range as CODE" }]
  else []

end Layout

/-- The warnings about windows that place no byte of the file. -/
def Image.warnings (file : Array UInt8) (windows : List Window) : List Event :=
  (Image.unplaced file windows).map fun m =>
    { severity := .warn
      text := "mapping lies beyond end of input file start=" ++ Text.lowerAddress m.start }

/-- The address column of a listing line: the address, and the file offset beside it where the two
differ. -/
def addressColumn (bias a : UInt32) : String :=
  let address := Text.hexPadded 8 a.toNat
  if bias = 0 then address ++ " "
  else address ++ " (" ++ Text.hexPadded 8 (a - bias).toNat ++ ") "

/-- One line of a listing. -/
def Record.line (bias : UInt32) (record : Record) : String :=
  addressColumn bias record.address ++ record.text ++ "\n"

end Disassembly
