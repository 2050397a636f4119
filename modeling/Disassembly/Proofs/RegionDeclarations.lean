import Disassembly.Proofs.RegionMaps
import Mathlib.Data.List.Induction

/-!
# What a region map makes of its declarations

Regions are inserted one by one, at any time and in any order. Nothing that a region map answers
depends on more than the list of its declarations:

* **order** — the regions are the declared ones, sorted stably by their starts
  (`RegionMap.regions_ofList`). There is just one place in the map that has all regions in front of
  it that do not start later than a new one, and all others behind it, so it does not matter how
  that place is searched for (`RegionMap.exists_dividesAt`, `RegionMap.regions_insert`);
* **lookup** — an address belongs to the declared region around it with the smallest start, the
  earliest one of several. One insertion changes the answer just where the new region starts before
  the one that was found (`RegionMap.find?_insert`), and from this follows the answer for all
  declarations (`RegionMap.find?_ofList_eq_some_iff`);
* **overlaps** — a region that starts where another one has ended is followed only by such regions,
  so ending the search there loses no pair (`RegionMap.overlapsIn_eq`).
-/

namespace Disassembly

/-! ## Order -/

namespace RegionMap

theorem mem_iff_of_filter_start_eq {regions regions' : List Region}
    (heq : ∀ a, regions.filter (·.start == a) = regions'.filter (·.start == a)) (r : Region) :
    r ∈ regions ↔ r ∈ regions' := by
  have hr := congrArg (r ∈ ·) (heq r.start)
  simpa [List.mem_filter] using hr

/-- Regions in ascending order of their starts are determined by those at each start. -/
theorem eq_of_filter_start_eq {regions regions' : List Region}
    (h : regions.Pairwise fun r s => r.start ≤ s.start)
    (h' : regions'.Pairwise fun r s => r.start ≤ s.start)
    (heq : ∀ a, regions.filter (·.start == a) = regions'.filter (·.start == a)) :
    regions = regions' := by
  induction regions generalizing regions' with
  | nil =>
      have hnone := fun s => mt (mem_iff_of_filter_start_eq heq s).mpr List.not_mem_nil
      exact (List.eq_nil_iff_forall_not_mem.mpr hnone).symm
  | cons r rest ih =>
      have hr := (mem_iff_of_filter_start_eq heq r).mp List.mem_cons_self
      cases regions' with
      | nil => exact absurd hr List.not_mem_nil
      | cons s rest' =>
          have hs := (mem_iff_of_filter_start_eq heq s).mpr List.mem_cons_self
          obtain ⟨hfirst, hrest⟩ := List.pairwise_cons.mp h
          obtain ⟨hfirst', hrest'⟩ := List.pairwise_cons.mp h'
          -- each of the two first regions is in the other list, so they start at the same address
          have hstart : s.start = r.start := by
            rcases List.mem_cons.mp hr with rfl | hr
            · rfl
            rcases List.mem_cons.mp hs with rfl | hs
            · rfl
            exact UInt32.le_antisymm (hfirst' r hr) (hfirst s hs)
          have hsame := heq r.start
          rw [List.filter_cons_of_pos (by simp), List.filter_cons_of_pos (by simp [hstart])]
            at hsame
          obtain ⟨rfl, _⟩ := List.cons.inj hsame
          have htail : ∀ a, rest.filter (·.start == a) = rest'.filter (·.start == a) := by
            intro a
            have ha := heq a
            rw [List.filter_cons, List.filter_cons] at ha
            split at ha
            · exact (List.cons.inj ha).2
            · exact ha
          rw [ih hrest hrest' htail]

/-- The order of the regions in a map. -/
def startsBy (r s : Region) : Bool :=
  decide (r.start ≤ s.start)

theorem startsBy_trans (r s t : Region) (hrs : startsBy r s = true) (hst : startsBy s t = true) :
    startsBy r t = true :=
  decide_eq_true (UInt32.le_trans (of_decide_eq_true hrs) (of_decide_eq_true hst))

theorem startsBy_total (r s : Region) : (startsBy r s || startsBy s r) = true := by
  rw [Bool.or_eq_true, startsBy, startsBy, decide_eq_true_iff, decide_eq_true_iff]
  exact UInt32.le_total r.start s.start

/-- Sorting keeps regions with equal starts in their order. -/
theorem filter_start_mergeSort (declared : List Region) (a : UInt32) :
    (declared.mergeSort startsBy).filter (·.start == a) = declared.filter (·.start == a) := by
  have hequal : (declared.filter (·.start == a)).Pairwise fun r s => startsBy r s = true := by
    rw [List.pairwise_filter]
    refine List.pairwise_of_forall ?_
    intro r s hr hs
    exact decide_eq_true (UInt32.le_of_eq ((eq_of_beq hr).trans (eq_of_beq hs).symm))
  have hsub := (List.sublist_mergeSort startsBy_trans startsBy_total hequal
    List.filter_sublist).filter (·.start == a)
  rw [List.filter_filter] at hsub
  simp only [Bool.and_self] at hsub
  exact (hsub.eq_of_length ((List.mergeSort_perm declared startsBy).filter _).length_eq.symm).symm

/-- A map holds its declarations, sorted stably by their starts. -/
theorem regions_ofList (declared : List Region) :
    (ofList declared).regions = declared.mergeSort startsBy := by
  refine eq_of_filter_start_eq (ofList_ascending declared) ?_ ?_
  · exact (List.pairwise_mergeSort startsBy_trans startsBy_total declared).imp of_decide_eq_true
  · intro a
    rw [filter_start_mergeSort, ofList, filter_start_foldl_insert List.Pairwise.nil,
      List.filter_nil, List.nil_append]

/-- The place divides the regions into those that do not start after an address, before it, and
those that do, behind it. -/
def DividesAt (regions : List Region) (a : UInt32) (place : Nat) : Prop :=
  place ≤ regions.length ∧ (∀ r ∈ regions.take place, r.start ≤ a) ∧
    ∀ r ∈ regions.drop place, a < r.start

theorem takeWhile_of_dividesAt {regions : List Region} {a : UInt32} {place : Nat}
    (h : DividesAt regions a place) :
    regions.takeWhile (fun r => decide (r.start ≤ a)) = regions.take place ∧
      regions.dropWhile (fun r => decide (r.start ≤ a)) = regions.drop place := by
  obtain ⟨_, hbefore, hafter⟩ := h
  have hall : ∀ r ∈ regions.take place, decide (r.start ≤ a) = true :=
    fun r hr => decide_eq_true (hbefore r hr)
  have hsplit := List.take_append_drop place regions
  generalize regions.take place = front at *
  generalize regions.drop place = back at *
  rw [← hsplit, List.takeWhile_append_of_pos hall, List.dropWhile_append_of_pos hall]
  cases back with
  | nil => simp
  | cons r back =>
      have hr : decide (r.start ≤ a) = false := by
        simpa using hafter r List.mem_cons_self
      simp [hr]

/-- Just one place divides ascending regions. -/
theorem exists_dividesAt {map : RegionMap} (hmap : map.Ascending) (a : UInt32) :
    ∃ place, ∀ other, DividesAt map.regions a other ↔ other = place := by
  obtain ⟨place, hle, htake, hdrop⟩ : ∃ place ≤ map.regions.length,
      map.regions.takeWhile (fun r => decide (r.start ≤ a)) = map.regions.take place ∧
      map.regions.dropWhile (fun r => decide (r.start ≤ a)) = map.regions.drop place :=
    ⟨_, List.findIdx_le_length, List.takeWhile_eq_take_findIdx_not,
      List.dropWhile_eq_drop_findIdx_not⟩
  refine ⟨place, fun other => ⟨?_, ?_⟩⟩
  · intro h
    have hlength := congrArg List.length ((takeWhile_of_dividesAt h).1.symm.trans htake)
    rwa [List.length_take, List.length_take, Nat.min_eq_left h.1, Nat.min_eq_left hle] at hlength
  · rintro rfl
    refine ⟨hle, ?_, ?_⟩
    · intro r hr
      rw [← htake] at hr
      exact of_decide_eq_true (List.all_eq_true.mp List.all_takeWhile r hr)
    · intro r hr
      rw [← hdrop] at hr
      exact lt_start_of_mem_dropWhile hmap hr

/-- A region is inserted where the map divides at its start. -/
theorem regions_insert {map : RegionMap} {region : Region} {place : Nat}
    (h : DividesAt map.regions region.start place) :
    (map.insert region).regions =
      map.regions.take place ++ region :: map.regions.drop place := by
  obtain ⟨htake, hdrop⟩ := takeWhile_of_dividesAt h
  rw [insert, htake, hdrop]

/-! ## Lookup -/

/-- One more region changes what is found for an address just where it is around the address and
starts before what was found. -/
theorem find?_insert {map : RegionMap} (hmap : map.Ascending) (region : Region) (a : UInt32) :
    (map.insert region).find? a =
      if region.contains a = true ∧ ∀ found, map.find? a = some found → region.start < found.start
      then some region else map.find? a := by
  have hfind : map.find? a =
      ((map.regions.takeWhile fun r => decide (r.start ≤ region.start)).find? (·.contains a)).or
        ((map.regions.dropWhile fun r => decide (r.start ≤ region.start)).find?
          (·.contains a)) := by
    rw [← List.find?_append, List.takeWhile_append_dropWhile, find?]
  have hnew : (map.insert region).find? a =
      ((map.regions.takeWhile fun r => decide (r.start ≤ region.start)).find? (·.contains a)).or
        ((region :: map.regions.dropWhile fun r => decide (r.start ≤ region.start)).find?
          (·.contains a)) := by
    rw [← List.find?_append, find?, insert]
  cases hfront : (map.regions.takeWhile fun r => decide (r.start ≤ region.start)).find?
      (·.contains a) with
  | some found =>
      -- what is found in front of the new region does not start after it
      have hle : found.start ≤ region.start :=
        of_decide_eq_true (List.all_eq_true.mp List.all_takeWhile found
          (List.mem_of_find?_eq_some hfront))
      rw [hfront, Option.some_or] at hfind hnew
      rw [hfind, hnew, if_neg]
      exact fun h => UInt32.not_lt.mpr hle (h.2 found rfl)
  | none =>
      rw [hfront, Option.none_or] at hfind hnew
      have hlater : ∀ found, map.find? a = some found → region.start < found.start := by
        intro found hfound
        exact lt_start_of_mem_dropWhile hmap (List.mem_of_find?_eq_some (hfind ▸ hfound))
      rw [hnew, List.find?_cons, hfind]
      cases hcontains : region.contains a with
      | true => rw [if_pos ⟨rfl, hfind ▸ hlater⟩]
      | false => rw [if_neg (by simp)]

/-- Of the declared regions around an address, this one has the smallest start, and is the earliest
one that does. -/
def Foremost (declared : List Region) (a : UInt32) (found : Region) : Prop :=
  found.contains a = true ∧ ∃ before after, declared = before ++ found :: after ∧
    (∀ r ∈ before, r.contains a = true → found.start < r.start) ∧
    ∀ r ∈ after, r.contains a = true → found.start ≤ r.start

theorem Foremost.start_le {declared : List Region} {a : UInt32} {found r : Region}
    (h : Foremost declared a found) (hr : r ∈ declared) (hcontains : r.contains a = true) :
    found.start ≤ r.start := by
  obtain ⟨_, before, after, rfl, hbefore, hafter⟩ := h
  rcases List.mem_append.mp hr with hr | hr
  · exact UInt32.le_of_lt (hbefore r hr hcontains)
  · rcases List.mem_cons.mp hr with rfl | hr
    · exact UInt32.le_refl _
    · exact hafter r hr hcontains

theorem Foremost.unique {declared : List Region} {a : UInt32} {found found' : Region}
    (h : Foremost declared a found) (h' : Foremost declared a found') : found = found' := by
  have hstart : found.start = found'.start := by
    refine UInt32.le_antisymm (h.start_le ?_ h'.1) (h'.start_le ?_ h.1)
    · obtain ⟨_, _, _, rfl, _⟩ := h'
      simp
    · obtain ⟨_, _, _, rfl, _⟩ := h
      simp
  obtain ⟨hcontains, before, after, rfl, hbefore, _⟩ := h
  obtain ⟨hcontains', before', after', hsplit, hbefore', _⟩ := h'
  -- one of the two would stand before the other, with the same start
  rcases List.append_eq_append_iff.mp hsplit with ⟨between, rfl, htail⟩ | ⟨between, rfl, htail⟩
  · cases between with
    | nil => exact (List.cons.inj htail).1
    | cons r between =>
        obtain ⟨rfl, _⟩ := List.cons.inj htail
        have hlt := hbefore' found (by simp) hcontains
        rw [hstart] at hlt
        exact absurd hlt (UInt32.lt_irrefl _)
  · cases between with
    | nil => exact (List.cons.inj htail).1.symm
    | cons r between =>
        obtain ⟨rfl, _⟩ := List.cons.inj htail
        have hlt := hbefore found' (by simp) hcontains'
        rw [hstart] at hlt
        exact absurd hlt (UInt32.lt_irrefl _)

theorem find?_ofList_eq_none_iff (declared : List Region) (a : UInt32) :
    (ofList declared).find? a = none ↔ ∀ r ∈ declared, r.contains a = false := by
  rw [find?, List.find?_eq_none]
  simp only [(ofList_perm declared).mem_iff, Bool.not_eq_true]

/-- What is found for an address is the foremost region around it. -/
theorem foremost_of_find? {declared : List Region} {a : UInt32} {found : Region}
    (h : (ofList declared).find? a = some found) : Foremost declared a found := by
  -- declarations are inserted in order, so the last one is the last to change the answer
  induction declared using List.reverseRecOn generalizing found with
  | nil => cases h
  | append_singleton declared region ih =>
      have hinsert : ofList (declared ++ [region]) = (ofList declared).insert region := by
        rw [ofList, ofList, List.foldl_append, List.foldl_cons, List.foldl_nil]
      rw [hinsert, find?_insert (ofList_ascending declared)] at h
      split at h
      · next hfirst =>
          cases h
          refine ⟨hfirst.1, declared, [], rfl, ?_, nofun⟩
          intro r hr hcontains
          cases hfound : (ofList declared).find? a with
          | none =>
              rw [(find?_ofList_eq_none_iff declared a).mp hfound r hr] at hcontains
              cases hcontains
          | some other =>
              exact UInt32.lt_of_lt_of_le (hfirst.2 other hfound)
                ((ih hfound).start_le hr hcontains)
      · next hother =>
          obtain ⟨hcontains, before, after, rfl, hbefore, hafter⟩ := ih h
          refine ⟨hcontains, before, after ++ [region], by simp, hbefore, ?_⟩
          intro r hr hr'
          rcases List.mem_append.mp hr with hr | hr
          · exact hafter r hr hr'
          · obtain rfl := List.mem_singleton.mp hr
            refine UInt32.not_lt.mp fun hlt => hother ⟨hr', ?_⟩
            intro other hfound
            rw [h] at hfound
            cases hfound
            exact hlt

theorem find?_ofList_eq_some_iff (declared : List Region) (a : UInt32) (found : Region) :
    (ofList declared).find? a = some found ↔ Foremost declared a found := by
  refine ⟨foremost_of_find?, ?_⟩
  intro h
  cases hfound : (ofList declared).find? a with
  | none =>
      obtain ⟨hcontains, before, after, rfl, _⟩ := h
      rw [(find?_ofList_eq_none_iff _ a).mp hfound found (by simp)] at hcontains
      cases hcontains
  | some other => rw [(foremost_of_find? hfound).unique h]

/-! ## Overlaps -/

/-- All pairs of a region and a later one, in order. -/
def pairs : List Region → List (Region × Region)
  | [] => []
  | r :: rs => rs.map (r, ·) ++ pairs rs

/-- Ending the search at the first region that starts where another one has ended loses no pair. -/
theorem overlapsIn_eq {regions : List Region}
    (hascending : regions.Pairwise fun r s => r.start ≤ s.start) :
    overlapsIn regions = (pairs regions).filter fun pair => pair.1.overlaps pair.2 := by
  induction regions with
  | nil => rfl
  | cons r regions ih =>
      obtain ⟨_, hregions⟩ := List.pairwise_cons.mp hascending
      have hbehind : (regions.dropWhile fun s => decide (s.start < r.stop)).filter r.overlaps =
          [] := by
        rw [List.filter_eq_nil_iff]
        intro s hs hoverlaps
        have hpast : decide (s.start < r.stop) = false := by
          refine eq_false_of_mem_dropWhile hregions ?_ hs
          intro s t hle hs
          rw [decide_eq_false_iff_not, UInt32.not_lt] at hs ⊢
          exact UInt32.le_trans hs hle
        rw [Region.overlaps, hpast, Bool.and_false] at hoverlaps
        cases hoverlaps
      have hnear : (regions.takeWhile fun s => decide (s.start < r.stop)).filter r.overlaps =
          regions.filter r.overlaps := by
        conv_rhs => rw [← List.takeWhile_append_dropWhile (p := fun s => decide (s.start < r.stop))
          (l := regions), List.filter_append, hbehind, List.append_nil]
      rw [overlapsIn, pairs, List.filter_append, List.filter_map, hnear, ih hregions]
      rfl

theorem overlaps_ofList (declared : List Region) :
    (ofList declared).overlaps =
      (pairs (ofList declared).regions).filter fun pair => pair.1.overlaps pair.2 :=
  overlapsIn_eq (ofList_ascending declared)

end RegionMap

/-- **Declarations.** Whatever regions are inserted into an empty map, in whatever order: the map
holds them all, sorted stably by their starts, and the next one goes to the only place that divides
the regions at its start. An address belongs to the declared region around it with the smallest
start, to the earliest one of several, and to none only if none is around it. The overlaps are all
pairs of overlapping regions, in the order of the map. -/
theorem region_map_keeps_declarations (declared : List Region) :
    let map := RegionMap.ofList declared
    map.regions = declared.mergeSort (fun r s => decide (r.start ≤ s.start)) ∧
    (∀ region : Region, ∃ place,
      (∀ other, RegionMap.DividesAt map.regions region.start other ↔ other = place) ∧
      (map.insert region).regions =
        map.regions.take place ++ region :: map.regions.drop place) ∧
    (∀ a, map.find? a = none ↔ ∀ r ∈ declared, r.contains a = false) ∧
    (∀ a found, map.find? a = some found ↔ RegionMap.Foremost declared a found) ∧
    map.overlaps =
      (RegionMap.pairs map.regions).filter fun pair => pair.1.overlaps pair.2 := by
  intro map
  refine ⟨RegionMap.regions_ofList declared, ?_, RegionMap.find?_ofList_eq_none_iff declared,
    RegionMap.find?_ofList_eq_some_iff declared, RegionMap.overlaps_ofList declared⟩
  intro region
  obtain ⟨place, hplace⟩ :=
    RegionMap.exists_dividesAt (RegionMap.ofList_ascending declared) region.start
  exact ⟨place, hplace, RegionMap.regions_insert ((hplace place).mpr rfl)⟩

/-- Two regions with the same start, the longer one declared first, and a region that lies inside
both and is declared before them. -/
theorem region_map_keeps_declarations_nested :
    let inner : Region := { start := 0x140, stop := 0x150 }
    let long : Region := { start := 0x100, stop := 0x200 }
    let short : Region := { start := 0x100, stop := 0x180, content := .data [.word] }
    let map := RegionMap.ofList [inner, long, short]
    map.regions = [long, short, inner] ∧ map.find? 0x148 = some long ∧ map.find? 0x200 = none ∧
      map.overlaps = [(long, short), (long, inner), (short, inner)] := by
  intro inner long short map
  obtain ⟨_, _, hnone, hsome, hoverlaps⟩ := region_map_keeps_declarations [inner, long, short]
  have hregions : map.regions = [long, short, inner] := by decide
  refine ⟨hregions, ?_, (hnone 0x200).mpr (by decide), ?_⟩
  · exact (hsome 0x148 long).mpr ⟨by decide, [inner], [short], rfl, by decide, by decide⟩
  · rw [hoverlaps, hregions]
    decide

end Disassembly
