import Disassembly.Proofs.Addresses

/-!
# The order of a region map

However its regions were inserted, a region map holds all of them (`RegionMap.ofList_perm`) in
ascending order of their starts (`RegionMap.ofList_ascending`), and those with equal starts in the
order of insertion (`RegionMap.filter_start_foldl_insert`). That order decides which of several
regions an address belongs to: a region in front of the one that is found has ended before the
address (`RegionMap.find?_split`).
-/

namespace Disassembly.RegionMap

/-- The regions stand in ascending order of their starts. -/
def Ascending (map : RegionMap) : Prop :=
  map.regions.Pairwise fun r s => r.start ≤ s.start

/-- In ascending regions, where a condition that fails for one region fails for all that start
later, it fails for all from the first one on that it fails for. -/
theorem eq_false_of_mem_dropWhile {regions : List Region} {p : Region → Bool}
    (hascending : regions.Pairwise fun r s => r.start ≤ s.start)
    (hp : ∀ {r s : Region}, r.start ≤ s.start → p r = false → p s = false) {s : Region}
    (hs : s ∈ regions.dropWhile p) : p s = false := by
  induction regions with
  | nil => exact absurd hs List.not_mem_nil
  | cons r regions ih =>
      obtain ⟨hr, hregions⟩ := List.pairwise_cons.mp hascending
      cases hfirst : p r with
      | true =>
          rw [List.dropWhile_cons_of_pos hfirst] at hs
          exact ih hregions hs
      | false =>
          rw [List.dropWhile_cons_of_neg (by simp [hfirst])] at hs
          rcases List.mem_cons.mp hs with rfl | hs
          · exact hfirst
          · exact hp (hr s hs) hfirst

/-- In ascending regions, all from the first one on that starts past an address start past it. -/
theorem lt_start_of_mem_dropWhile {regions : List Region} {a : UInt32}
    (hascending : regions.Pairwise fun r s => r.start ≤ s.start) {s : Region}
    (hs : s ∈ regions.dropWhile fun r => decide (r.start ≤ a)) : a < s.start := by
  have hpast : decide (s.start ≤ a) = false := by
    refine eq_false_of_mem_dropWhile hascending ?_ hs
    intro r t hle hr
    rw [decide_eq_false_iff_not] at hr ⊢
    exact fun ht => hr (UInt32.le_trans hle ht)
  exact UInt32.not_le.mp (of_decide_eq_false hpast)

theorem insert_ascending {map : RegionMap} (hmap : map.Ascending) (region : Region) :
    (map.insert region).Ascending := by
  have hbefore : ∀ r ∈ map.regions.takeWhile (fun r => decide (r.start ≤ region.start)),
      r.start ≤ region.start := by
    intro r hr
    exact of_decide_eq_true (List.all_eq_true.mp List.all_takeWhile r hr)
  have hafter : ∀ s ∈ map.regions.dropWhile (fun r => decide (r.start ≤ region.start)),
      region.start ≤ s.start := fun s hs => UInt32.le_of_lt (lt_start_of_mem_dropWhile hmap hs)
  refine List.pairwise_append.mpr ⟨?_, ?_, ?_⟩
  · exact hmap.sublist (List.takeWhile_sublist _)
  · exact List.pairwise_cons.mpr ⟨hafter, hmap.sublist (List.dropWhile_sublist _)⟩
  · intro r hr s hs
    rcases List.mem_cons.mp hs with rfl | hs
    · exact hbefore r hr
    · exact UInt32.le_trans (hbefore r hr) (hafter s hs)

theorem foldl_insert_ascending {map : RegionMap} (hmap : map.Ascending) (regions : List Region) :
    (regions.foldl insert map).Ascending := by
  induction regions generalizing map with
  | nil => exact hmap
  | cons region regions ih => exact ih (insert_ascending hmap region)

/-- Inserting regions one after the other keeps the map in order. -/
theorem ofList_ascending (regions : List Region) : (ofList regions).Ascending :=
  foldl_insert_ascending List.Pairwise.nil regions

theorem insert_perm (map : RegionMap) (region : Region) :
    (map.insert region).regions.Perm (region :: map.regions) := by
  have hsplit := List.takeWhile_append_dropWhile (p := fun r => decide (r.start ≤ region.start))
    (l := map.regions)
  refine List.perm_middle.trans (List.Perm.cons region ?_)
  rw [hsplit]

/-- A map holds what was inserted, each region as often as it was. -/
theorem ofList_perm (regions : List Region) : (ofList regions).regions.Perm regions := by
  have hfold : ∀ map : RegionMap,
      (regions.foldl insert map).regions.Perm (regions ++ map.regions) := by
    induction regions with
    | nil => exact fun map => List.Perm.refl _
    | cons region regions ih =>
        intro map
        refine (ih (map.insert region)).trans ?_
        exact ((insert_perm map region).append_left regions).trans List.perm_middle
  have hall := hfold {}
  rwa [List.append_nil] at hall

/-- A region goes behind those of the map that start where it does. -/
theorem filter_start_insert {map : RegionMap} (hmap : map.Ascending) (region : Region)
    (a : UInt32) :
    (map.insert region).regions.filter (·.start == a) =
      map.regions.filter (·.start == a) ++ [region].filter (·.start == a) := by
  have hsplit := List.takeWhile_append_dropWhile (p := fun r => decide (r.start ≤ region.start))
    (l := map.regions)
  have hold := congrArg (List.filter (·.start == a)) hsplit
  rw [List.filter_append] at hold
  rw [insert, ← List.singleton_append, List.filter_append, List.filter_append, ← hold]
  by_cases ha : region.start = a
  · -- nothing behind the new region starts at the same address
    have hnone : (map.regions.dropWhile fun r => decide (r.start ≤ region.start)).filter
        (·.start == a) = [] := by
      rw [List.filter_eq_nil_iff]
      intro s hs hstart
      have hlt := lt_start_of_mem_dropWhile hmap hs
      rw [eq_of_beq hstart, ha] at hlt
      exact UInt32.lt_irrefl a hlt
    rw [hnone, List.append_nil, List.append_nil]
  · have hskip : [region].filter (·.start == a) = [] := by simp [ha]
    rw [hskip, List.nil_append, List.append_nil]

/-- Regions with equal starts stay in the order in which they were inserted. -/
theorem filter_start_foldl_insert {map : RegionMap} (hmap : map.Ascending)
    (regions : List Region) (a : UInt32) :
    (regions.foldl insert map).regions.filter (·.start == a) =
      map.regions.filter (·.start == a) ++ regions.filter (·.start == a) := by
  induction regions generalizing map with
  | nil => simp
  | cons region regions ih =>
      rw [List.foldl_cons, ih (insert_ascending hmap region), filter_start_insert hmap,
        List.append_assoc, ← List.filter_append, List.singleton_append]

/-- The region found for an address contains it, and the regions in front of it do not reach up to
the address. -/
theorem find?_split {map : RegionMap} (hmap : map.Ascending) {a : UInt32} {found : Region}
    (hfind : map.find? a = some found) :
    found.contains a = true ∧ ∃ front back, map.regions = front ++ found :: back ∧
      ∀ r ∈ front, r.stop ≤ a := by
  obtain ⟨hcontains, front, back, hregions, hfront⟩ := List.find?_eq_some_iff_append.mp hfind
  refine ⟨hcontains, front, back, hregions, ?_⟩
  intro r hr
  have hmiss := hfront r hr
  have hle : r.start ≤ found.start := by
    rw [Ascending, hregions] at hmap
    exact (List.pairwise_append.mp hmap).2.2 r hr found List.mem_cons_self
  rw [Region.contains_iff] at hcontains
  rw [Bool.not_eq_true', ← Bool.not_eq_true, Region.contains_iff] at hmiss
  rw [UInt32.le_iff_toNat_le] at hle ⊢
  omega

end Disassembly.RegionMap
