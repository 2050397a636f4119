import Disassembly.Outline.Basic
import Disassembly.Proofs.Tables
import Mathlib.Data.List.Pairwise
import Mathlib.Data.List.Sort

/-!
# Tables of code

A table of code keeps for every address the record that was entered last
(`Code.getElem?_ofRecords`), and gives its records back in ascending order of their addresses
(`Code.records_ascending`). Where one address stands for one record, the order in which the records
are entered does not matter (`Code.ofRecords_eq_of_perm`), and records that all have different
addresses are exactly the records of their table (`Code.mem_records_ofRecords`).
-/

namespace Disassembly

/-- One record lies before another. -/
def Record.Before (r s : Record) : Prop :=
  r.address < s.address

theorem Record.Before.address_ne {r s : Record} (h : r.Before s) : r.address ≠ s.address := by
  intro heq
  rw [Before, heq] at h
  exact UInt32.lt_irrefl _ h

/-- Among records with different addresses, an address stands for one record. -/
theorem Record.eq_of_address_eq {records : List Record}
    (hdistinct : records.Pairwise fun r s => r.address ≠ s.address) {r s : Record}
    (hr : r ∈ records) (hs : s ∈ records) (h : r.address = s.address) : r = s := by
  have : Std.Symm fun r s : Record => r.address ≠ s.address := ⟨fun _ _ h => h.symm⟩
  by_contra hne
  exact hdistinct.forall hr hs hne h

instance : Std.Irrefl Record.Before :=
  ⟨fun r => UInt32.lt_irrefl r.address⟩

instance : Std.Antisymm Record.Before :=
  ⟨fun _ _ h h' => absurd h (UInt32.lt_asymm h')⟩

namespace Code

/-- Of several records at one address the last one stays. -/
theorem getElem?_ofRecords (records : List Record) (a : UInt32) :
    (ofRecords records)[a]? = records.reverse.find? (·.address == a) := by
  rw [ofRecords, Table.getElem?_foldl_insert Record.address fun record => record,
    Std.ExtTreeMap.getElem?_empty, Option.or_none, Option.map_id']

/-- A record is found under its own address. -/
theorem address_of_getElem?_ofRecords {records : List Record} {a : UInt32} {record : Record}
    (h : (ofRecords records)[a]? = some record) : record.address = a ∧ record ∈ records := by
  rw [getElem?_ofRecords] at h
  exact ⟨by simpa using List.find?_some h, List.mem_reverse.mp (List.mem_of_find?_eq_some h)⟩

theorem mem_records (code : Code) (record : Record) :
    record ∈ code.records ↔ ∃ a : UInt32, code[a]? = some record := by
  rw [records, List.mem_map]
  constructor
  · rintro ⟨⟨a, r⟩, hmem, rfl⟩
    exact ⟨a, Std.ExtTreeMap.mem_toList_iff_getElem?_eq_some.mp hmem⟩
  · rintro ⟨a, h⟩
    exact ⟨(a, record), Std.ExtTreeMap.mem_toList_iff_getElem?_eq_some.mpr h, rfl⟩

/-- The records of a table come in ascending order. -/
theorem records_ascending (records : List Record) :
    (ofRecords records).records.Pairwise Record.Before := by
  rw [Code.records, List.pairwise_map]
  refine (Std.ExtTreeMap.ordered_keys_toList).imp_of_mem ?_
  intro p q hp hq hlt
  have hfst := (address_of_getElem?_ofRecords
    (Std.ExtTreeMap.mem_toList_iff_getElem?_eq_some.mp hp)).1
  have hsnd := (address_of_getElem?_ofRecords
    (Std.ExtTreeMap.mem_toList_iff_getElem?_eq_some.mp hq)).1
  rw [Record.Before, hfst, hsnd]
  exact Std.compare_eq_lt.mp hlt

/-- When no two different records have the same address, the order in which they are entered does
not matter, nor does entering one of them again. -/
theorem getElem?_ofRecords_eq_some_iff {records : List Record}
    (hsingle : ∀ r ∈ records, ∀ s ∈ records, r.address = s.address → r = s) (a : UInt32)
    (record : Record) :
    (ofRecords records)[a]? = some record ↔ record ∈ records ∧ record.address = a := by
  constructor
  · intro h
    exact (address_of_getElem?_ofRecords h).symm
  · rintro ⟨hmem, rfl⟩
    rw [getElem?_ofRecords]
    cases hfind : records.reverse.find? (·.address == record.address) with
    | none =>
        have hnone := List.find?_eq_none.mp hfind record (List.mem_reverse.mpr hmem)
        simp at hnone
    | some found =>
        have haddress : found.address = record.address := by simpa using List.find?_some hfind
        have hfound := List.mem_reverse.mp (List.mem_of_find?_eq_some hfind)
        rw [hsingle found hfound record hmem haddress]

/-- Records with different addresses all stay. -/
theorem mem_records_ofRecords {records : List Record}
    (hdistinct : records.Pairwise fun r s => r.address ≠ s.address) (record : Record) :
    record ∈ (ofRecords records).records ↔ record ∈ records := by
  have hsingle : ∀ r ∈ records, ∀ s ∈ records, r.address = s.address → r = s :=
    fun _ hr _ hs haddress => Record.eq_of_address_eq hdistinct hr hs haddress
  rw [mem_records]
  simp only [getElem?_ofRecords_eq_some_iff hsingle]
  simp

/-- Tables of the same records are equal, when no two of these have the same address. -/
theorem ofRecords_eq_of_perm {records records' : List Record} (hperm : records.Perm records')
    (hsingle : ∀ r ∈ records, ∀ s ∈ records, r.address = s.address → r = s) :
    ofRecords records = ofRecords records' := by
  have hsingle' : ∀ r ∈ records', ∀ s ∈ records', r.address = s.address → r = s := by
    intro r hr s hs
    exact hsingle r (hperm.mem_iff.mpr hr) s (hperm.mem_iff.mpr hs)
  apply Std.ExtTreeMap.ext_getElem?
  intro a
  apply Option.ext
  intro record
  rw [getElem?_ofRecords_eq_some_iff hsingle, getElem?_ofRecords_eq_some_iff hsingle',
    hperm.mem_iff]

end Code

end Disassembly
