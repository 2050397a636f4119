import Disassembly.Expression.Region
import Disassembly.Proofs.RegionDeclarations
import Disassembly.Proofs.Requests

/-!
# Regions that share an address

Two tests say that two regions have something to do with each other. A region is cut down to its
common part with another one, and the common part exists just where they share an address
(`Region.isSome_intersect?_iff`). The test behind the warnings compares each start with the other
end. It agrees for regions that have addresses, but an empty region inside another one passes it
too (`Region.overlaps_iff`). So the overlaps of a map are its pairs that share an address, and those
of an empty region and one around it (`RegionMap.overlaps_ofList_eq`).
-/

namespace Disassembly

namespace Region

/-- The regions share an address. -/
def Meets (r s : Region) : Prop :=
  ∃ a, r.contains a = true ∧ s.contains a = true

/-- The region is empty and lies inside the other one, at neither of its ends. -/
def EmptyWithin (r s : Region) : Prop :=
  r.isEmpty = true ∧ s.start < r.start ∧ r.start < s.stop

instance (r s : Region) : Decidable (r.EmptyWithin s) :=
  inferInstanceAs (Decidable (_ ∧ _))

theorem meets_iff (r s : Region) :
    r.Meets s ↔ max r.start.toNat s.start.toNat < min r.stop.toNat s.stop.toNat := by
  constructor
  · rintro ⟨a, hr, hs⟩
    rw [contains_iff] at hr hs
    omega
  · intro hlt
    refine ⟨max r.start s.start, ?_⟩
    rw [contains_iff, contains_iff, toNat_max]
    omega

theorem emptyWithin_iff (r s : Region) :
    r.EmptyWithin s ↔ r.start.toNat = r.stop.toNat ∧ s.start.toNat < r.start.toNat ∧
      r.start.toNat < s.stop.toNat := by
  rw [EmptyWithin, isEmpty, beq_iff_eq, ← UInt32.toNat_inj, UInt32.lt_iff_toNat_lt,
    UInt32.lt_iff_toNat_lt]

/-- There is a common part just where an address is shared. -/
theorem isSome_intersect?_iff (r s : Region) : (r.intersect? s).isSome = true ↔ r.Meets s := by
  cases h : r.intersect? s with
  | none =>
      have hapart := apart_of_intersect?_eq_none h
      exact ⟨fun hsome => (nomatch hsome), fun ⟨a, hboth⟩ => absurd hboth (hapart a)⟩
  | some t =>
      obtain ⟨_, hstart, hstop, hlt⟩ := of_intersect? h
      rw [meets_iff]
      exact ⟨fun _ => by omega, fun _ => rfl⟩

instance (r s : Region) : Decidable (r.Meets s) :=
  decidable_of_iff _ (isSome_intersect?_iff r s)

/-- Regions that reach into each other share an address, unless one of them is empty. -/
theorem overlaps_iff {r s : Region} (hr : r.start ≤ r.stop) (hs : s.start ≤ s.stop) :
    r.overlaps s = true ↔ r.Meets s ∨ r.EmptyWithin s ∨ s.EmptyWithin r := by
  rw [UInt32.le_iff_toNat_le] at hr hs
  rw [overlaps, Bool.and_eq_true, decide_eq_true_iff, decide_eq_true_iff, UInt32.lt_iff_toNat_lt,
    UInt32.lt_iff_toNat_lt, meets_iff, emptyWithin_iff, emptyWithin_iff]
  omega

theorem EmptyWithin.not_meets {r s : Region} (h : r.EmptyWithin s) : ¬ r.Meets s ∧ ¬ s.Meets r := by
  rw [emptyWithin_iff] at h
  rw [meets_iff, meets_iff]
  omega

/-- The two notions agree just where no empty region lies inside the other one. -/
theorem overlaps_iff_meets_iff {r s : Region} (hr : r.start ≤ r.stop) (hs : s.start ≤ s.stop) :
    (r.overlaps s = true ↔ r.Meets s) ↔ ¬ r.EmptyWithin s ∧ ¬ s.EmptyWithin r := by
  rw [overlaps_iff hr hs]
  constructor
  · intro hagree
    exact ⟨fun h => h.not_meets.1 (hagree.mp (.inr (.inl h))),
      fun h => h.not_meets.2 (hagree.mp (.inr (.inr h)))⟩
  · rintro ⟨hr, hs⟩
    simp [hr, hs]

end Region

namespace RegionMap

theorem mem_of_mem_pairs {regions : List Region} {r s : Region} (h : (r, s) ∈ pairs regions) :
    r ∈ regions ∧ s ∈ regions := by
  induction regions with
  | nil => cases h
  | cons first regions ih =>
      rw [pairs, List.mem_append, List.mem_map] at h
      rcases h with ⟨t, ht, heq⟩ | h
      · cases heq
        exact ⟨List.mem_cons_self, List.mem_cons_of_mem _ ht⟩
      · exact ⟨List.mem_cons_of_mem _ (ih h).1, List.mem_cons_of_mem _ (ih h).2⟩

/-- Any two different regions of a list are a pair, in one order or the other. -/
theorem mem_pairs_or {regions : List Region} {r s : Region} (hr : r ∈ regions) (hs : s ∈ regions)
    (hne : r ≠ s) : (r, s) ∈ pairs regions ∨ (s, r) ∈ pairs regions := by
  induction regions with
  | nil => cases hr
  | cons first regions ih =>
      simp only [pairs, List.mem_append, List.mem_map, Prod.mk.injEq]
      rcases List.mem_cons.mp hr with rfl | hr'
      · rcases List.mem_cons.mp hs with rfl | hs'
        · exact absurd rfl hne
        · exact .inl (.inl ⟨s, hs', rfl, rfl⟩)
      · rcases List.mem_cons.mp hs with rfl | hs'
        · exact .inr (.inl ⟨r, hr', rfl, rfl⟩)
        · exact (ih hr' hs').imp .inr .inr

variable {declared : List Region}

theorem mem_of_mem_pairs_ofList {r s : Region} (h : (r, s) ∈ pairs (ofList declared).regions) :
    r ∈ declared ∧ s ∈ declared := by
  obtain ⟨hr, hs⟩ := mem_of_mem_pairs h
  exact ⟨(ofList_perm declared).mem_iff.mp hr, (ofList_perm declared).mem_iff.mp hs⟩

/-- The overlaps of a map are the pairs that share an address, and those with an empty region
inside the other one. -/
theorem overlaps_ofList_eq (hordered : ∀ r ∈ declared, r.start ≤ r.stop) :
    (ofList declared).overlaps = (pairs (ofList declared).regions).filter fun pair =>
      decide (pair.1.Meets pair.2 ∨ pair.1.EmptyWithin pair.2 ∨ pair.2.EmptyWithin pair.1) := by
  rw [overlaps_ofList]
  refine List.filter_congr ?_
  rintro ⟨r, s⟩ hpair
  obtain ⟨hr, hs⟩ := mem_of_mem_pairs_ofList hpair
  rw [Bool.eq_iff_iff, decide_eq_true_iff]
  exact Region.overlaps_iff (hordered r hr) (hordered s hs)

/-- The overlaps of a map are the pairs that share an address just if no empty region is declared
inside another one. -/
theorem overlaps_ofList_eq_meets_iff (hordered : ∀ r ∈ declared, r.start ≤ r.stop) :
    (ofList declared).overlaps = (pairs (ofList declared).regions).filter
        (fun pair => decide (pair.1.Meets pair.2)) ↔
      ∀ r ∈ declared, ∀ s ∈ declared, ¬ r.EmptyWithin s := by
  rw [overlaps_ofList_eq hordered]
  constructor
  · intro heq r hr s hs hempty
    have hmeets : ∀ pair ∈ pairs (ofList declared).regions, pair.1.EmptyWithin pair.2 ∨
        pair.2.EmptyWithin pair.1 → pair.1.Meets pair.2 := by
      intro pair hpair hwithin
      have hmem := congrArg (pair ∈ ·) heq
      simp only [List.mem_filter, decide_eq_true_iff, eq_iff_iff] at hmem
      exact (hmem.mp ⟨hpair, .inr hwithin⟩).2
    have hne : r ≠ s := by
      rintro rfl
      exact UInt32.lt_irrefl _ hempty.2.1
    have hr := (ofList_perm declared).mem_iff.mpr hr
    have hs := (ofList_perm declared).mem_iff.mpr hs
    rcases mem_pairs_or hr hs hne with hpair | hpair
    · exact hempty.not_meets.1 (hmeets _ hpair (.inl hempty))
    · exact hempty.not_meets.2 (hmeets _ hpair (.inr hempty))
  · intro hnone
    refine List.filter_congr ?_
    rintro ⟨r, s⟩ hpair
    obtain ⟨hr, hs⟩ := mem_of_mem_pairs_ofList hpair
    simp [hnone r hr s hs, hnone s hs r hr]

end RegionMap

/-- **Shared addresses.** Two regions have a common part if and only if they share an address. They
count as overlapping if and only if they share an address or one of them is empty and lies inside
the other, and so the two notions agree if and only if neither does. The overlaps of a map are the
pairs of declared regions that share an address, together with the pairs of an empty region and one
around it; there are none of the latter if and only if no empty region is declared inside another
one. -/
theorem overlaps_iff_shared_or_empty_within (r s : Region) (hr : r.start ≤ r.stop)
    (hs : s.start ≤ s.stop) (declared : List Region)
    (hordered : ∀ region ∈ declared, region.start ≤ region.stop) :
    let shared := ∃ a, r.contains a = true ∧ s.contains a = true
    let map := RegionMap.ofList declared
    let pairs := RegionMap.pairs map.regions
    ((r.intersect? s).isSome = true ↔ shared) ∧
    (r.overlaps s = true ↔ shared ∨ r.EmptyWithin s ∨ s.EmptyWithin r) ∧
    ((r.overlaps s = true ↔ shared) ↔ ¬ r.EmptyWithin s ∧ ¬ s.EmptyWithin r) ∧
    map.overlaps = pairs.filter (fun pair =>
      decide (pair.1.Meets pair.2 ∨ pair.1.EmptyWithin pair.2 ∨ pair.2.EmptyWithin pair.1)) ∧
    (map.overlaps = pairs.filter (fun pair => decide (pair.1.Meets pair.2)) ↔
      ∀ region ∈ declared, ∀ other ∈ declared, ¬ region.EmptyWithin other) :=
  ⟨Region.isSome_intersect?_iff r s, Region.overlaps_iff hr hs, Region.overlaps_iff_meets_iff hr hs,
    RegionMap.overlaps_ofList_eq hordered, RegionMap.overlaps_ofList_eq_meets_iff hordered⟩

/-- Two regions that touch, one that reaches into both, and an empty one at the end of all: the
overlaps are the two pairs that share an address. -/
theorem overlaps_iff_shared_or_empty_within_touching :
    let low : Region := { start := 0, stop := 4 }
    let high : Region := { start := 4, stop := 8 }
    let middle : Region := { start := 2, stop := 6 }
    let empty : Region := { start := 8, stop := 8 }
    let declared := [high, empty, middle, low]
    (∀ r ∈ declared, r.start ≤ r.stop) ∧ (∀ r ∈ declared, ∀ s ∈ declared, ¬ r.EmptyWithin s) ∧
      (RegionMap.ofList declared).overlaps = [(low, middle), (middle, high)] ∧
      ¬ ∃ a, low.contains a = true ∧ high.contains a = true := by
  intro low high middle empty declared
  have hordered : ∀ r ∈ declared, r.start ≤ r.stop := by decide
  have hnone : ∀ r ∈ declared, ∀ s ∈ declared, ¬ r.EmptyWithin s := by decide
  obtain ⟨hcommon, _, _, _, hmaps⟩ :=
    overlaps_iff_shared_or_empty_within low high (by decide) (by decide) declared hordered
  refine ⟨hordered, hnone, (hmaps.mpr hnone).trans (by decide), ?_⟩
  intro hmeets
  exact absurd (hcommon.mpr hmeets) (by decide)

/-- An empty region inside another one can be declared, and counts as overlapping with it, although
the two have no common part and share no address. -/
theorem empty_region_within_overlaps :
    let outer : Region := { start := 0, stop := 10 }
    let empty : Region := { start := 5, stop := 5 }
    (Expression.region 'd' "0-10".toList = .ok outer ∧
        Expression.region 'd' "5-5".toList = .ok empty) ∧
      (outer.start ≤ outer.stop ∧ empty.start ≤ empty.stop) ∧ empty.overlaps outer = true ∧
      empty.intersect? outer = none ∧
      (¬ ∃ a, empty.contains a = true ∧ outer.contains a = true) ∧
      (RegionMap.ofList [outer, empty]).overlaps = [(outer, empty)] := by
  intro outer empty
  refine ⟨by decide, by decide, by decide, by decide, ?_, by decide⟩
  rintro ⟨a, hempty, _⟩
  rw [Region.contains_iff] at hempty
  exact absurd hempty.2 (Nat.not_lt.mpr hempty.1)

end Disassembly
