import Disassembly.Layout
import Disassembly.Proofs.RegionMaps
import Mathlib.Data.List.Perm.Basic

/-!
# What a layout asks for

Every request is a base region, or the part of one that a selected region covers
(`Layout.requests_eq`). So an address is asked for as often as there are pairs of a base region and
a selected region around it:

* **cuts** — the common part of two regions has exactly the addresses that both have
  (`Region.contains_of_intersect?`), and where there is none, they have no address in common
  (`Region.apart_of_intersect?_eq_none`);
* **counting** — each base region around an address gives one request around it for each selected
  region around it (`Layout.countP_cuts`), and the base regions add up (`Layout.countP_requests`);
* **order** — the cuts of one region are made in the order of the selected regions, and those of a
  later region without a common address lie behind them (`Layout.requests_ascending`).

`requests_cover_selection` says this of the regions as they were declared, in whatever order.
-/

namespace Disassembly

/-! ## Cuts -/

/-- What is decoded of a base region: all of it, or the parts that selected regions cover. -/
def Layout.cuts (layout : Layout) (m : Region) : List Region :=
  if layout.selected.isEmpty then [m] else layout.selected.regions.filterMap m.intersect?

theorem Layout.requests_eq (layout : Layout) :
    layout.requests = layout.base.flatMap layout.cuts := by
  unfold requests
  split
  · next hempty =>
      have hcuts : layout.cuts = fun m => [m] := by
        funext m
        rw [cuts, if_pos hempty]
      rw [hcuts, List.flatMap_singleton']
  · next hsome =>
      have hcuts : layout.cuts = fun m => layout.selected.regions.filterMap m.intersect? := by
        funext m
        rw [cuts, if_neg hsome]
      rw [hcuts]

namespace Region

/-- The common part of two regions begins with the later start and ends with the earlier end, and is
never empty. -/
theorem of_intersect? {r s t : Region} (h : r.intersect? s = some t) :
    t.content = r.content ∧ t.start.toNat = max r.start.toNat s.start.toNat ∧
      t.stop.toNat = min r.stop.toNat s.stop.toNat ∧ t.start.toNat < t.stop.toNat := by
  unfold intersect? at h
  dsimp only at h
  split at h
  · next hlt =>
      cases h
      exact ⟨rfl, toNat_max .., toNat_min .., UInt32.lt_iff_toNat_lt.mp hlt⟩
  · cases h

/-- The common part of two regions has exactly the addresses that both have. -/
theorem contains_of_intersect? {r s t : Region} (h : r.intersect? s = some t) (a : UInt32) :
    t.contains a = (r.contains a && s.contains a) := by
  obtain ⟨_, hstart, hstop, _⟩ := of_intersect? h
  rw [Bool.eq_iff_iff, Bool.and_eq_true, contains_iff, contains_iff, contains_iff]
  omega

/-- Two regions have no address in common. -/
def Apart (r s : Region) : Prop :=
  ∀ a, ¬ (r.contains a = true ∧ s.contains a = true)

theorem Apart.symm {r s : Region} (h : r.Apart s) : s.Apart r :=
  fun a hboth => h a hboth.symm

/-- Regions that do not reach into each other are apart. -/
theorem apart_of_not_overlaps {r s : Region} (h : r.overlaps s = false) : r.Apart s := by
  rintro a ⟨hr, hs⟩
  rw [contains_iff] at hr hs
  rw [overlaps, ← Bool.decide_and, decide_eq_false_iff_not, UInt32.lt_iff_toNat_lt,
    UInt32.lt_iff_toNat_lt] at h
  omega

theorem apart_of_intersect?_eq_none {r s : Region} (h : r.intersect? s = none) : r.Apart s := by
  rintro a ⟨hr, hs⟩
  have hle : min r.stop s.stop ≤ max r.start s.start := by
    unfold intersect? at h
    dsimp only at h
    split at h
    · cases h
    · next hle => exact UInt32.not_lt.mp hle
  rw [contains_iff] at hr hs
  rw [UInt32.le_iff_toNat_le, toNat_max, toNat_min] at hle
  omega

/-- Whether the region has an address, with content of a given sort. -/
def holdsAt (sort : Content → Bool) (a : UInt32) (region : Region) : Bool :=
  sort region.content && region.contains a

/-- The common part, if there is one, holds at an address what the first region holds there, when
the second one has the address too. -/
theorem holdsAt_intersect? (r s : Region) (sort : Content → Bool) (a : UInt32) :
    ((r.intersect? s).map (holdsAt sort a)).getD false = (r.holdsAt sort a && s.contains a) := by
  unfold holdsAt
  cases h : r.intersect? s with
  | some t =>
      rw [Option.map_some, Option.getD_some, (of_intersect? h).1, contains_of_intersect? h,
        Bool.and_assoc]
  | none =>
      have hneither : (r.contains a && s.contains a) = false := by
        rw [Bool.eq_false_iff, ne_eq, Bool.and_eq_true]
        exact apart_of_intersect?_eq_none h a
      rw [Option.map_none, Option.getD_none, Bool.and_assoc, hneither, Bool.and_false]

end Region

namespace Layout

variable {layout : Layout} {m : Region}

theorem of_mem_cuts {request : Region} (h : request ∈ layout.cuts m) :
    request.content = m.content ∧ m.start.toNat ≤ request.start.toNat ∧
      (layout.selected.isEmpty = true → request = m) := by
  unfold cuts at h
  split at h
  · rw [List.mem_singleton.mp h]
    exact ⟨rfl, Nat.le_refl _, fun _ => rfl⟩
  · next hsome =>
      obtain ⟨part, _, hpart⟩ := List.mem_filterMap.mp h
      obtain ⟨hcontent, hstart, _⟩ := Region.of_intersect? hpart
      exact ⟨hcontent, by omega, fun hempty => absurd hempty hsome⟩

/-! ## Counting -/

/-- How often an address is selected: once when nothing is. -/
def selections (layout : Layout) (a : UInt32) : Nat :=
  if layout.selected.isEmpty then 1 else layout.selected.regions.countP (·.contains a)

theorem countP_cuts (layout : Layout) (m : Region) (sort : Content → Bool) (a : UInt32) :
    (layout.cuts m).countP (Region.holdsAt sort a) =
      if m.holdsAt sort a then layout.selections a else 0 := by
  unfold cuts selections
  split
  · rw [List.countP_singleton]
  · rw [List.countP_filterMap]
    simp only [Region.holdsAt_intersect?]
    cases m.holdsAt sort a with
    | true => simp only [Bool.true_and, if_true]
    | false => simp

/-- An address is asked for as often as it lies in a base region, times as often as it is
selected. -/
theorem countP_requests (layout : Layout) (sort : Content → Bool) (a : UInt32) :
    layout.requests.countP (Region.holdsAt sort a) =
      layout.base.countP (Region.holdsAt sort a) * layout.selections a := by
  rw [requests_eq]
  induction layout.base with
  | nil => simp
  | cons m base ih =>
      rw [List.flatMap_cons, List.countP_append, ih, countP_cuts, List.countP_cons, Nat.add_mul,
        Nat.add_comm]
      congr 1
      split
      · rw [Nat.one_mul]
      · rw [Nat.zero_mul]

/-! ## Order -/

theorem base_ascending (hfiles : layout.files.Ascending) (hcontents : layout.contents.Ascending) :
    layout.base.Pairwise fun r s => r.start ≤ s.start := by
  unfold base
  split
  · exact List.pairwise_map.mpr hfiles
  · exact hcontents

/-- The cuts of one region come in the order of the selected regions. -/
theorem cuts_ascending (hselected : layout.selected.Ascending) (m : Region) :
    (layout.cuts m).Pairwise fun r s => r.start ≤ s.start := by
  unfold cuts
  split
  · exact List.pairwise_singleton _ _
  · refine List.pairwise_filterMap.mpr (hselected.imp ?_)
    intro s s' hle t ht t' ht'
    obtain ⟨_, hstart, _⟩ := Region.of_intersect? ht
    obtain ⟨_, hstart', _⟩ := Region.of_intersect? ht'
    rw [UInt32.le_iff_toNat_le] at hle ⊢
    omega

/-- The cuts of a region lie before those of a later one that has no address in common with it. -/
theorem start_le_of_mem_cuts {m' t t' : Region} (hle : m.start ≤ m'.start)
    (hapart : m.Apart m') (ht : t ∈ layout.cuts m) (ht' : t' ∈ layout.cuts m') :
    t.start ≤ t'.start := by
  unfold cuts at ht ht'
  split at ht
  · next hempty =>
      rw [if_pos hempty] at ht'
      rwa [List.mem_singleton.mp ht, List.mem_singleton.mp ht']
  · next hsome =>
      rw [if_neg hsome] at ht'
      obtain ⟨s, _, hs⟩ := List.mem_filterMap.mp ht
      obtain ⟨s', _, hs'⟩ := List.mem_filterMap.mp ht'
      obtain ⟨_, hstart, hstop, hlt⟩ := Region.of_intersect? hs
      obtain ⟨_, hstart', hstop', hlt'⟩ := Region.of_intersect? hs'
      -- both regions have addresses, so the first one ends before the second one starts
      have hfirst := hapart m'.start
      rw [Region.contains_iff, Region.contains_iff] at hfirst
      rw [UInt32.le_iff_toNat_le] at hle ⊢
      omega

theorem requests_ascending (hfiles : layout.files.Ascending)
    (hcontents : layout.contents.Ascending) (hselected : layout.selected.Ascending)
    (hapart : layout.base.Pairwise Region.Apart) :
    layout.requests.Pairwise fun r s => r.start ≤ s.start := by
  rw [requests_eq, List.pairwise_flatMap]
  refine ⟨fun m _ => cuts_ascending hselected m, ?_⟩
  refine ((base_ascending hfiles hcontents).and hapart).imp ?_
  intro m m' h t ht t' ht'
  exact start_le_of_mem_cuts h.1 h.2 ht ht'

/-! ## Declared regions -/

/-- The base regions in the order of their declaration. -/
def declaredBase (files contents : List Region) : List Region :=
  if contents = [] then files.map fun r => { start := r.start, stop := r.stop, content := .code }
  else contents

variable {files contents selected : List Region}

theorem isEmpty_ofList (regions : List Region) :
    (RegionMap.ofList regions).isEmpty = true ↔ regions = [] := by
  rw [RegionMap.isEmpty, (RegionMap.ofList_perm regions).isEmpty_eq, List.isEmpty_iff]

theorem base_perm_declared (hfiles : layout.files = .ofList files)
    (hcontents : layout.contents = .ofList contents) :
    layout.base.Perm (declaredBase files contents) := by
  unfold base declaredBase
  rw [hfiles, hcontents]
  simp only [isEmpty_ofList]
  split
  · exact (RegionMap.ofList_perm files).map _
  · exact RegionMap.ofList_perm contents

theorem selections_declared (hselected : layout.selected = .ofList selected) (a : UInt32) :
    layout.selections a = if selected = [] then 1 else selected.countP (·.contains a) := by
  unfold selections
  rw [hselected, (RegionMap.ofList_perm selected).countP_eq]
  simp only [isEmpty_ofList]

/-- Every request is cut out of a base region. -/
theorem exists_cut {t : Region} (ht : t ∈ layout.requests) :
    ∃ m ∈ layout.base, t.content = m.content ∧
      (layout.selected.isEmpty = true ∧ t = m ∨ layout.selected.isEmpty = false ∧
        t.start < t.stop ∧ ∃ s ∈ layout.selected.regions,
          ∀ a, t.contains a = (m.contains a && s.contains a)) := by
  rw [requests_eq] at ht
  obtain ⟨m, hm, ht⟩ := List.mem_flatMap.mp ht
  obtain ⟨hcontent, _, hwhole⟩ := of_mem_cuts ht
  refine ⟨m, hm, hcontent, ?_⟩
  cases hempty : layout.selected.isEmpty with
  | true => exact .inl ⟨rfl, hwhole hempty⟩
  | false =>
      rw [cuts, hempty, if_neg Bool.false_ne_true] at ht
      obtain ⟨s, hs, hcut⟩ := List.mem_filterMap.mp ht
      have hlt := (Region.of_intersect? hcut).2.2.2
      exact .inr ⟨rfl, UInt32.lt_iff_toNat_lt.mpr hlt, s, hs, Region.contains_of_intersect? hcut⟩

end Layout

/-- **Requests.** However contents, file regions and selected regions were declared, and however
they overlap: an address is asked for once for each pair of a base region and a selected region
around it, and with the content of that base region; when nothing is selected, once for each base
region around it. Every request is a base region or its common part with a selected region, with its
content, and cut requests are never empty. When no two base regions have an address in common, the
requests come in ascending order of their starts, whatever is selected. -/
theorem requests_cover_selection (files contents selected : List Region) :
    let layout : Layout :=
      { files := .ofList files, contents := .ofList contents, selected := .ofList selected }
    let base := Layout.declaredBase files contents
    let times (a : UInt32) := if selected = [] then 1 else selected.countP (·.contains a)
    (∀ a, layout.requests.countP (·.contains a) = base.countP (·.contains a) * times a) ∧
    (∀ a content, layout.requests.countP (fun t => decide (t.content = content) && t.contains a) =
      base.countP (fun m => decide (m.content = content) && m.contains a) * times a) ∧
    (∀ t ∈ layout.requests, ∃ m ∈ base, t.content = m.content ∧
      (selected = [] ∧ t = m ∨ selected ≠ [] ∧ ∃ s ∈ selected,
        ∀ a, t.contains a = (m.contains a && s.contains a))) ∧
    (selected ≠ [] → ∀ t ∈ layout.requests, t.start < t.stop) ∧
    (base.Pairwise Region.Apart → layout.requests.Pairwise fun r s => r.start ≤ s.start) := by
  intro layout base times
  have hbase : layout.base.Perm base := Layout.base_perm_declared rfl rfl
  have hempty : layout.selected.isEmpty = true ↔ selected = [] := Layout.isEmpty_ofList selected
  have hcount : ∀ (sort : Content → Bool) a, layout.requests.countP (Region.holdsAt sort a) =
      base.countP (Region.holdsAt sort a) * times a := by
    intro sort a
    rw [Layout.countP_requests, hbase.countP_eq, Layout.selections_declared rfl]
  refine ⟨hcount fun _ => true, fun a content => hcount (fun c => decide (c = content)) a,
    ?_, ?_, ?_⟩
  · intro t ht
    obtain ⟨m, hm, hcontent, hcut⟩ := Layout.exists_cut ht
    refine ⟨m, hbase.mem_iff.mp hm, hcontent, ?_⟩
    rcases hcut with ⟨hall, rfl⟩ | ⟨hsome, _, s, hs, hcontains⟩
    · exact .inl ⟨hempty.mp hall, rfl⟩
    · refine .inr ⟨?_, s, (RegionMap.ofList_perm selected).mem_iff.mp hs, hcontains⟩
      intro hnil
      rw [hempty.mpr hnil] at hsome
      cases hsome
  · intro hne t ht
    obtain ⟨_, _, _, hcut⟩ := Layout.exists_cut ht
    rcases hcut with ⟨hall, _⟩ | ⟨_, hlt, _⟩
    · exact absurd (hempty.mp hall) hne
    · exact hlt
  · intro hapart
    exact Layout.requests_ascending (RegionMap.ofList_ascending files)
      (RegionMap.ofList_ascending contents) (RegionMap.ofList_ascending selected)
      ((hbase.pairwise_iff Region.Apart.symm).mpr hapart)

/-- Two neighbouring regions, declared from the top down, are cut by two overlapping selected
regions, and a third one lies beside them: the address `0x0E` is asked for twice as code, the
requests come in order, and none is empty. -/
theorem requests_cover_selection_neighbours :
    let data : Region := { start := 0x10, stop := 0x20, content := .data [.word] }
    let code : Region := { start := 0, stop := 0x10 }
    let selected : List Region :=
      [{ start := 0x0C, stop := 0x1C }, { start := 0x20, stop := 0x30 },
        { start := 0x08, stop := 0x18 }]
    let layout : Layout :=
      { contents := .ofList [data, code], selected := .ofList selected }
    [data, code].Pairwise Region.Apart ∧ selected ≠ [] ∧
      layout.requests.countP (fun t => decide (t.content = .code) && t.contains 0x0E) = 2 ∧
      (∀ t ∈ layout.requests, t.start < t.stop) ∧
      layout.requests.Pairwise fun r s => r.start ≤ s.start := by
  intro data code selected layout
  have hapart : [data, code].Pairwise Region.Apart :=
    List.pairwise_pair.mpr (Region.apart_of_not_overlaps (by decide))
  obtain ⟨_, hcount, _, hnonempty, hascending⟩ :=
    requests_cover_selection [] [data, code] selected
  exact ⟨hapart, by decide, (hcount 0x0E .code).trans (by decide), hnonempty (by decide),
    hascending hapart⟩

end Disassembly
