import Disassembly.Memory

/-!
# The firmware image

An image is a list of segments, each a run of bytes from the input file placed at a base address.
Where segments overlap the first one wins. A segment whose end passes the end of the address space
holds no address at all, so the last address of the space is never readable.
-/

namespace Disassembly

/-- A window of the input file placed in memory; `stop` is exclusive. -/
structure Window where
  start : UInt32
  stop : UInt32
  fileOffset : UInt32
deriving DecidableEq, Repr

namespace Window

/-- The bytes of the file that the window places, as far as the file goes. -/
def bytes (window : Window) (file : Array UInt8) : Array UInt8 :=
  file.extract window.fileOffset.toNat
    (window.fileOffset.toNat + (window.stop.toNat - window.start.toNat))

end Window

/-- A run of bytes at a base address. -/
structure Segment where
  base : UInt32
  fileOffset : UInt32
  bytes : Array UInt8
deriving DecidableEq, Repr

namespace Segment

/-- The address after the last byte, wrapping around at the end of the address space. -/
def stop (segment : Segment) : UInt32 :=
  segment.base + UInt32.ofNat segment.bytes.size

/-- Whether an address lies in the segment. -/
def contains (segment : Segment) (a : UInt32) : Bool :=
  decide (segment.base ≤ a) && decide (a < segment.stop)

/-- The byte at an address of the segment. -/
def byte? (segment : Segment) (a : UInt32) : Option UInt8 :=
  segment.bytes[(a - segment.base).toNat]?

/-- The segment of a window. -/
def ofWindow (file : Array UInt8) (window : Window) : Segment :=
  { base := window.start, fileOffset := window.fileOffset, bytes := window.bytes file }

end Segment

/-- The segments of an image, the first ones in front of the later ones. -/
structure Image where
  segments : List Segment
deriving DecidableEq, Repr

namespace Image

/-- One run of bytes at a base address. -/
def ofBytes (base : UInt32) (bytes : Array UInt8) : Image :=
  { segments := [{ base, fileOffset := 0, bytes }] }

/-- The windows that place no byte of the file, because it ends before them or they are empty. -/
def unplaced (file : Array UInt8) (windows : List Window) : List Window :=
  windows.filter fun m => (m.bytes file).isEmpty

/-- A file placed in memory: one segment for each window that places bytes, or the whole file at
address zero when there are no windows. -/
def ofFile (file : Array UInt8) (windows : List Window) : Image :=
  if windows.isEmpty then ofBytes 0 file
  else { segments := (windows.filter fun m => !(m.bytes file).isEmpty).map (.ofWindow file) }

/-- The byte at an address: that of the first segment that contains it. -/
def memory (image : Image) : Memory := fun a =>
  (image.segments.find? (·.contains a)).bind (·.byte? a)

end Image

end Disassembly
