import Disassembly.InstructionSet.Index

/-!
# The index against a plain search

The index is filled by two nested loops, over the descriptors and over all words, and which
descriptor ends up with a word depends on the order in which the loops come by. What they leave in
the slot of a word is said here without them: `FirstClaim` describes the first descriptor of a list
that a word matches, the slot holds its position as long as positions fit in sixteen bits
(`slot_eq_some_iff`), and it is empty if the word matches no descriptor (`slot_eq_none_iff`).
-/

namespace Disassembly

/-- The descriptor at position `n` is the first one of the list whose encoding the word shows under
its mask. -/
structure FirstClaim (ds : List Descriptor) (word : UInt16) (n : Nat) : Prop where
  matched : ∃ d, ds[n]? = some d ∧ word &&& d.mask = d.encoding
  earlier : ∀ m < n, ∀ d, ds[m]? = some d → word &&& d.mask ≠ d.encoding

theorem Descriptor.claims_iff {d : Descriptor} {word : UInt16} :
    d.claims word = true ↔ word &&& d.mask = d.encoding :=
  beq_iff_eq

/-- A search from the front finds the first match. -/
theorem findIdx?_claims_eq_some_iff {ds : List Descriptor} {word : UInt16} {n : Nat} :
    ds.findIdx? (·.claims word) = some n ↔ FirstClaim ds word n := by
  rw [List.findIdx?_eq_some_iff_getElem]
  simp only [Descriptor.claims_iff]
  constructor
  · rintro ⟨hn, hmatched, hearlier⟩
    refine ⟨⟨ds[n], List.getElem?_eq_getElem hn, hmatched⟩, ?_⟩
    intro m hm d hd
    obtain ⟨_, rfl⟩ := List.getElem?_eq_some_iff.mp hd
    exact hearlier m hm
  · rintro ⟨⟨d, hd, hmatched⟩, hearlier⟩
    obtain ⟨hn, rfl⟩ := List.getElem?_eq_some_iff.mp hd
    exact ⟨hn, hmatched, fun m hm => hearlier m hm _ (List.getElem?_eq_getElem (by omega))⟩

theorem findIdx?_claims_eq_none_iff {ds : List Descriptor} {word : UInt16} :
    ds.findIdx? (·.claims word) = none ↔ ∀ d ∈ ds, word &&& d.mask ≠ d.encoding := by
  simp only [List.findIdx?_eq_none_iff, ← Bool.not_eq_true, Descriptor.claims_iff, ne_eq]

namespace Index

/-- The slot of a word names the descriptor that the word belongs to. -/
theorem slot_eq_some_iff {ds : List Descriptor} (hds : ds.length ≤ 0x10000) {word : UInt16}
    {slot : Option UInt16} (hslot : (build ds).slots[word.toNat]? = some slot) (n : Nat) :
    slot.map UInt16.toNat = some n ↔ FirstClaim ds word n := by
  rw [getElem?_slots_build] at hslot
  rw [← Option.some.inj hslot, ← findIdx?_claims_eq_some_iff]
  cases hfound : ds.findIdx? (·.claims word) with
  | none => rfl
  | some m =>
    have hm : m < ds.length := (List.findIdx?_eq_some_iff_findIdx_eq.mp hfound).1
    rw [Option.map_some, Option.map_some, UInt16.toNat_ofNat_of_lt' (Nat.lt_of_lt_of_le hm hds)]

/-- The slot of a word is empty if the word belongs to no descriptor. -/
theorem slot_eq_none_iff {ds : List Descriptor} {word : UInt16} {slot : Option UInt16}
    (hslot : (build ds).slots[word.toNat]? = some slot) :
    slot = none ↔ ∀ d ∈ ds, word &&& d.mask ≠ d.encoding := by
  rw [getElem?_slots_build] at hslot
  rw [← Option.some.inj hslot, Option.map_eq_none_iff, findIdx?_claims_eq_none_iff]

end Index

/-- **The index against a plain search.** For every list of at most 65536 descriptors, whether or
not their words overlap, and every word: the index has a slot for the word, which holds the position
of the first descriptor of the list that the word matches and is empty if and only if it matches
none, and so looking the word up finds what a search of the list from the front finds. This holds of
the instruction set. -/
theorem index_agrees_with_search :
    (∀ ds : List Descriptor, ds.length ≤ 0x10000 → ∀ word : UInt16,
      (∃ slot, (Index.build ds).slots[word.toNat]? = some slot ∧
        (∀ n, slot.map UInt16.toNat = some n ↔ FirstClaim ds word n) ∧
        (slot = none ↔ ∀ d ∈ ds, word &&& d.mask ≠ d.encoding)) ∧
      (Index.build ds).lookup word = ds.find? (·.claims word)) ∧
    ∀ word, Index.standard.lookup word = InstructionSet.descriptors.find? (·.claims word) := by
  refine ⟨?_, fun word => congrFun Index.lookup_standard word⟩
  intro ds hds word
  have hslot := Index.getElem?_slots_build ds word
  exact ⟨⟨_, hslot, Index.slot_eq_some_iff hds hslot, Index.slot_eq_none_iff hslot⟩,
    Index.lookup_build hds word⟩

/-- A word that two descriptors match belongs to the one that comes first, although the other is
more specific; and a word that no descriptor matches has an empty slot. -/
theorem index_agrees_with_search_ambiguous :
    let wide : Descriptor :=
      { encoding := 0x1000, mask := 0xF000, mnemonic := "wide", shape := .implied }
    let narrow : Descriptor :=
      { encoding := 0x1200, mask := 0xFF00, mnemonic := "narrow", shape := .implied }
    let other : Descriptor :=
      { encoding := 0x2000, mask := 0xF000, mnemonic := "other", shape := .implied }
    let ds := [other, wide, narrow]
    ds.length ≤ 0x10000 ∧ narrow.claims 0x1234 = true ∧ FirstClaim ds 0x1234 1 ∧
      (Index.build ds).slots[0x1234]? = some (some 1) ∧
      (Index.build ds).lookup 0x1234 = some wide ∧
      (Index.build ds).slots[0x3000]? = some none := by
  intro wide narrow other ds
  have hfirst : FirstClaim ds 0x1234 1 := findIdx?_claims_eq_some_iff.mp (by decide)
  obtain ⟨⟨slot, hslot, hpositions, _⟩, hlookup⟩ :=
    index_agrees_with_search.1 ds (by decide) 0x1234
  obtain ⟨⟨free, hfree, _, hempty⟩, _⟩ := index_agrees_with_search.1 ds (by decide) 0x3000
  obtain ⟨m, rfl, hm⟩ := Option.map_eq_some_iff.mp ((hpositions 1).mpr hfirst)
  obtain rfl : m = 1 := UInt16.toNat_inj.mp hm
  obtain rfl : free = none := hempty.mpr (by decide)
  exact ⟨by decide, by decide, hfirst, hslot, hlookup.trans (by decide), hfree⟩

end Disassembly
