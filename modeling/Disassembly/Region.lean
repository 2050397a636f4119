import Disassembly.Content

/-!
# Regions

A region is a span of addresses, `stop` exclusive, with what it holds and where in the input file
its first byte comes from.
-/

namespace Disassembly

/-- A span of addresses. -/
structure Region where
  start : UInt32
  stop : UInt32
  fileOffset : UInt32 := 0
  content : Content := .code
deriving DecidableEq, Repr

namespace Region

/-- Whether an address lies in the region. -/
def contains (region : Region) (a : UInt32) : Bool :=
  decide (region.start ≤ a) && decide (a < region.stop)

/-- The number of addresses in the region. -/
def length (region : Region) : UInt32 :=
  region.stop - region.start

/-- Whether the region holds no address. -/
def isEmpty (region : Region) : Bool :=
  region.start == region.stop

/-- Whether two regions reach into each other. -/
def overlaps (r s : Region) : Bool :=
  decide (r.start < s.stop) && decide (s.start < r.stop)

/-- The part of `r` that `s` also covers, with the content and file offset of `r`. -/
def intersect? (r s : Region) : Option Region :=
  let start := max r.start s.start
  let stop := min r.stop s.stop
  if start < stop then some { r with start, stop } else none

/-- What to subtract from an address to get the file offset of its byte, for a region that the file
backs. -/
def bias (region : Region) : UInt32 :=
  region.start - region.fileOffset

end Region

end Disassembly
