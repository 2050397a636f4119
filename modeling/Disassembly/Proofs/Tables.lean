import Std.Data.ExtTreeMap
import Mathlib.Data.List.Basic

/-!
# Tables made from lists

Entering the elements of a list one after the other, each under its own address, leaves at every
address the value that was entered last (`Table.getElem?_foldl_insert`), or the first one where only
free addresses are filled (`Table.getElem?_foldl_insertIfNew`). What is done to all values of a
table can as well be done to them before they are entered (`Table.map_foldl_insert`).
-/

namespace Disassembly.Table

variable {α β γ : Type}

/-- Of several values for one address the last one stays. -/
theorem getElem?_foldl_insert (key : α → UInt32) (value : α → β) (entries : List α)
    (table : Std.ExtTreeMap UInt32 β) (a : UInt32) :
    (entries.foldl (fun table entry => table.insert (key entry) (value entry)) table)[a]? =
      ((entries.reverse.find? (key · == a)).map value).or table[a]? := by
  induction entries generalizing table with
  | nil => rfl
  | cons entry entries ih =>
      rw [List.foldl_cons, ih, List.reverse_cons, List.find?_append, Option.map_or,
        Option.or_assoc]
      congr 1
      rw [Std.ExtTreeMap.getElem?_insert, List.find?_singleton]
      by_cases h : key entry = a
      · simp [h]
      · simp [h]

/-- Where only free addresses are filled, the first value for an address stays. -/
theorem getElem?_foldl_insertIfNew (entries : List (UInt32 × β)) (table : Std.ExtTreeMap UInt32 β)
    (a : UInt32) :
    (entries.foldl (fun table entry => table.insertIfNew entry.1 entry.2) table)[a]? =
      table[a]?.or ((entries.find? (·.1 == a)).map Prod.snd) := by
  induction entries generalizing table with
  | nil => exact (Option.or_none).symm
  | cons entry entries ih =>
      rw [List.foldl_cons, ih, Std.ExtTreeMap.getElem?_insertIfNew]
      by_cases h : entry.1 = a
      · rw [List.find?_cons_of_pos (by simpa using h)]
        cases hfree : table[a]? with
        | none => simp [h, Std.ExtTreeMap.mem_iff_isSome_getElem?, hfree]
        | some value => simp [h, Std.ExtTreeMap.mem_iff_isSome_getElem?, hfree]
      · rw [List.find?_cons_of_neg (by simpa using h)]
        simp [h]

/-- The values can be changed before they are entered or afterwards. -/
theorem map_foldl_insert (key : α → UInt32) (value : α → β) (f : β → γ) (entries : List α) :
    (entries.foldl (fun table entry => table.insert (key entry) (value entry))
        (∅ : Std.ExtTreeMap UInt32 β)).map (fun _ => f) =
      entries.foldl (fun table entry => table.insert (key entry) (f (value entry))) ∅ := by
  apply Std.ExtTreeMap.ext_getElem?
  intro a
  rw [Std.ExtTreeMap.getElem?_map, getElem?_foldl_insert, getElem?_foldl_insert]
  simp only [Std.ExtTreeMap.getElem?_empty, Option.or_none, Option.map_map]
  rfl

/-- A list of addresses with values, entered in order. -/
theorem ofList_eq_foldl (entries : List (UInt32 × β)) :
    Std.ExtTreeMap.ofList entries compare =
      entries.foldl (fun table entry => table.insert entry.1 entry.2) ∅ := by
  rw [Std.ExtTreeMap.ofList_eq_insertMany_empty, Std.ExtTreeMap.insertMany_list_eq_foldl]

end Disassembly.Table
