import Disassembly.Region

/-!
# Maps of regions

Regions in ascending order of their starts, those with equal starts in the order of insertion.
Regions may overlap; looking an address up gives the first region that contains it.
-/

namespace Disassembly

/-- Regions in ascending order of their starts. -/
structure RegionMap where
  regions : List Region := []
deriving DecidableEq, Repr

namespace RegionMap

/-- Puts a region after all those that do not start later. -/
def insert (map : RegionMap) (region : Region) : RegionMap :=
  let before (r : Region) := decide (r.start ≤ region.start)
  { regions := map.regions.takeWhile before ++ region :: map.regions.dropWhile before }

/-- The map of a list of regions, inserted in order. -/
def ofList (regions : List Region) : RegionMap :=
  regions.foldl insert {}

/-- Whether the map has no regions. -/
def isEmpty (map : RegionMap) : Bool :=
  map.regions.isEmpty

/-- The number of regions. -/
def size (map : RegionMap) : Nat :=
  map.regions.length

/-- The first region that contains an address. -/
def find? (map : RegionMap) (a : UInt32) : Option Region :=
  map.regions.find? (·.contains a)

/-- The pairs of overlapping regions in a list with ascending starts. For each region the search
ends at the first later one that starts where it has ended. -/
def overlapsIn : List Region → List (Region × Region)
  | [] => []
  | r :: rs =>
    let near := rs.takeWhile fun s => decide (s.start < r.stop)
    (near.filter r.overlaps).map (r, ·) ++ overlapsIn rs

/-- The pairs of overlapping regions, in map order. -/
def overlaps (map : RegionMap) : List (Region × Region) :=
  overlapsIn map.regions

end RegionMap

end Disassembly
