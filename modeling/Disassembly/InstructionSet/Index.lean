import Disassembly.InstructionSet.Table

/-!
# Looking up a first word

Searching the list of descriptors for every word of an image is slow, so the answers for all 65536
words are worked out once. `Index.build` goes through the descriptors in order and offers every word
to each of them; a descriptor takes the words that it claims and no earlier one has taken. A slot
keeps the position of its descriptor in sixteen bits. The main statement is `lookup_build`: whatever
the list of at most 65536 descriptors, looking a word up gives the first descriptor of the list that
claims it.
-/

namespace Disassembly

/-- For every first word, the position of the descriptor that it belongs to. -/
structure Index where
  descriptors : Array Descriptor
  slots : Array (Option UInt16)

namespace Index

/-- Offers a word to the descriptor at position `n`, which takes it if it claims the word and the
word is still free. -/
def offer (n : UInt16) (d : Descriptor) (slots : Array (Option UInt16)) (word : Nat) :
    Array (Option UInt16) :=
  if slots[word]? = some none ∧ d.claims (UInt16.ofNat word) then
    slots.setIfInBounds word (some n)
  else slots

/-- Offers the words below `count`, in ascending order. -/
def offerBelow (count : Nat) (n : UInt16) (d : Descriptor) (slots : Array (Option UInt16)) :
    Array (Option UInt16) :=
  Nat.fold count (fun word _ slots => offer n d slots word) slots

/-- Offers every word to the descriptor at position `n`. -/
def fill (slots : Array (Option UInt16)) (n : Nat) (d : Descriptor) : Array (Option UInt16) :=
  offerBelow 0x10000 (UInt16.ofNat n) d slots

/-- The index of a list of descriptors. -/
def build (ds : List Descriptor) : Index where
  descriptors := ds.toArray
  slots := ds.zipIdx.foldl (fun slots d => fill slots d.2 d.1) (Array.replicate 0x10000 none)

/-- The descriptor of a first word. -/
def lookup (index : Index) (word : UInt16) : Option Descriptor :=
  (index.slots[word.toNat]?).join.bind fun n => index.descriptors[n.toNat]?

/-- How many first words belong to some descriptor. -/
def claimed (index : Index) : Nat :=
  index.slots.countP Option.isSome

/-- The index of the instruction set. -/
def standard : Index :=
  build InstructionSet.descriptors

/-! ## What a slot holds -/

/-- What a slot holds once its word has been offered to the descriptor at position `n`. -/
def settle (n : UInt16) (d : Descriptor) (word : Nat) (slot : Option UInt16) : Option UInt16 :=
  slot.or (if d.claims (UInt16.ofNat word) then some n else none)

/-- Offering a word settles its slot and leaves every other one as it is. -/
theorem getElem?_offer (n : UInt16) (d : Descriptor) (slots : Array (Option UInt16))
    (word w : Nat) :
    (offer n d slots word)[w]? =
      if word = w then slots[w]?.map (settle n d w) else slots[w]? := by
  unfold offer
  by_cases hword : word = w
  · subst hword
    rw [if_pos rfl]
    cases hslot : slots[word]? with
    | none => simp [hslot]
    | some slot =>
      have hlt : word < slots.size := (Array.getElem?_eq_some_iff.mp hslot).1
      cases slot with
      | some m => simp [hslot, settle]
      | none =>
        cases hclaims : d.claims (UInt16.ofNat word) with
        | false => simp [hslot, settle, hclaims]
        | true => simp [settle, hclaims, hlt]
  · rw [if_neg hword]
    split
    · exact Array.getElem?_setIfInBounds_ne hword
    · rfl

/-- The words are offered one by one, so after `count` of them their slots are settled and all
others are as they were. -/
theorem getElem?_offerBelow (count : Nat) (n : UInt16) (d : Descriptor)
    (slots : Array (Option UInt16)) (w : Nat) :
    (offerBelow count n d slots)[w]? =
      if w < count then slots[w]?.map (settle n d w) else slots[w]? := by
  induction count with
  | zero => rfl
  | succ count ih =>
    have hstep : offerBelow (count + 1) n d slots = offer n d (offerBelow count n d slots) count :=
      Nat.fold_succ ..
    rw [hstep, getElem?_offer, ih]
    rcases Nat.lt_trichotomy w count with hlt | heq | hgt
    · rw [if_neg (by omega), if_pos hlt, if_pos (by omega)]
    · rw [if_pos heq.symm, if_neg (by omega), if_pos (by omega)]
    · rw [if_neg (by omega), if_neg (by omega), if_neg (by omega)]

/-- After the descriptors from position `k` on, a slot that was free holds the position of the
first of them that claims its word. -/
theorem getElem?_foldl_fill (ds : List Descriptor) (k : Nat) (slots : Array (Option UInt16))
    {w : Nat} (hw : w < 0x10000) :
    ((ds.zipIdx k).foldl (fun slots d => fill slots d.2 d.1) slots)[w]? =
      slots[w]?.map fun slot =>
        slot.or ((ds.findIdx? (·.claims (UInt16.ofNat w))).map fun m => UInt16.ofNat (m + k)) := by
  induction ds generalizing k slots with
  | nil => simp
  | cons d ds ih =>
    rw [List.zipIdx_cons, List.foldl_cons, ih, fill, getElem?_offerBelow, if_pos hw,
      Option.map_map]
    congr 1
    funext slot
    rw [Function.comp_apply, settle, Option.or_assoc, List.findIdx?_cons]
    congr 1
    cases d.claims (UInt16.ofNat w) with
    | true => simp
    | false =>
      simp only [Bool.false_eq_true, if_false, Option.none_or, Option.map_map]
      congr 1
      funext m
      rw [Function.comp_apply, Nat.add_assoc, Nat.add_comm 1 k]

/-- The slot of a word holds the position of the first descriptor that claims the word. -/
theorem getElem?_slots_build (ds : List Descriptor) (word : UInt16) :
    (build ds).slots[word.toNat]? =
      some ((ds.findIdx? (·.claims word)).map UInt16.ofNat) := by
  have hw : word.toNat < 0x10000 := word.toNat_lt
  rw [build, getElem?_foldl_fill _ _ _ hw]
  simp [hw]

/-- Looking a word up gives the first descriptor of the list that claims it. -/
theorem lookup_build {ds : List Descriptor} (hds : ds.length ≤ 0x10000) (word : UInt16) :
    (build ds).lookup word = ds.find? (·.claims word) := by
  rw [lookup, getElem?_slots_build, List.find?_eq_bind_findIdx?_getElem?]
  cases hslot : ds.findIdx? (·.claims word) with
  | none => rfl
  | some n =>
    have hlt : n < ds.length := (List.findIdx?_eq_some_iff_findIdx_eq.mp hslot).1
    show ds.toArray[(UInt16.ofNat n).toNat]? = ds[n]?
    rw [UInt16.toNat_ofNat_of_lt' (Nat.lt_of_lt_of_le hlt hds), List.getElem?_toArray]

theorem lookup_standard : standard.lookup = InstructionSet.find? := by
  funext word
  refine lookup_build ?_ word
  rw [InstructionSet.length_descriptors]
  decide

end Index

end Disassembly
