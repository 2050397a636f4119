import Disassembly.Text.Blank
import Mathlib.Data.List.TakeWhile

/-!
# Trimmed texts

What is left of a text without the blanks at its ends:

* **blanks** — blanks put before or after a text do not change its trimmed form
  (`trim_blanks_append`, `trim_append_blanks`), and nothing but such blanks is lost
  (`exists_append_trim`, `mem_trim_iff`);
* **ends** — a trimmed form neither begins nor ends with a blank (`trimmed_trim`), and a text that
  does neither is its own trimmed form (`Trimmed.trim_eq`).
-/

namespace Disassembly.Text

/-- Blanks after a text do not change what is left of it without the blanks at its end. -/
theorem trimEnd_append {back : List Char} (cs : List Char)
    (hback : ∀ c ∈ back, isBlank c = true) : trimEnd (cs ++ back) = trimEnd cs := by
  have hreverse : ∀ c ∈ back.reverse, isBlank c = true := fun c hc =>
    hback c (List.mem_reverse.mp hc)
  rw [trimEnd, List.reverse_append, List.dropWhile_append_of_pos hreverse, trimEnd]

theorem trimEnd_cons {c : Char} (hc : isBlank c = false) (cs : List Char) :
    trimEnd (c :: cs) = c :: trimEnd cs := by
  rw [trimEnd, List.reverse_cons, List.dropWhile_append, trimEnd]
  split
  · next hblank => simp [List.isEmpty_iff.mp hblank, hc]
  · simp

theorem trim_cons {c : Char} (hc : isBlank c = false) (cs : List Char) :
    trim (c :: cs) = c :: trimEnd cs := by
  rw [trim, List.dropWhile_cons_of_neg (by simp [hc]), trimEnd_cons hc]

theorem trim_blanks_append {front : List Char} (hfront : ∀ c ∈ front, isBlank c = true)
    (cs : List Char) : trim (front ++ cs) = trim cs := by
  rw [trim, List.dropWhile_append_of_pos hfront, trim]

theorem trim_append_blanks {back : List Char} (hback : ∀ c ∈ back, isBlank c = true)
    (cs : List Char) : trim (cs ++ back) = trim cs := by
  rw [trim, List.dropWhile_append, trim]
  split
  · next hblank =>
      -- nothing but blanks, so the blanks after them are dropped as well
      have hdrop : back.dropWhile isBlank = [] := List.dropWhile_eq_nil_iff.mpr hback
      rw [hdrop, List.isEmpty_iff.mp hblank]
  · exact trimEnd_append _ hback

theorem isBlank_of_mem_takeWhile {cs : List Char} {c : Char} (h : c ∈ cs.takeWhile isBlank) :
    isBlank c = true :=
  List.all_eq_true.mp List.all_takeWhile c h

theorem exists_append_trimEnd (cs : List Char) :
    ∃ back, cs = trimEnd cs ++ back ∧ ∀ c ∈ back, isBlank c = true := by
  refine ⟨(cs.reverse.takeWhile isBlank).reverse, ?_, ?_⟩
  · rw [trimEnd, ← List.reverse_append, List.takeWhile_append_dropWhile, List.reverse_reverse]
  · intro c hc
    exact isBlank_of_mem_takeWhile (List.mem_reverse.mp hc)

/-- A text is its trimmed form with blanks before and after it. -/
theorem exists_append_trim (cs : List Char) :
    ∃ front back, cs = front ++ trim cs ++ back ∧ (∀ c ∈ front, isBlank c = true) ∧
      ∀ c ∈ back, isBlank c = true := by
  obtain ⟨back, hcut, hback⟩ := exists_append_trimEnd (cs.dropWhile isBlank)
  refine ⟨cs.takeWhile isBlank, back, ?_, fun c => isBlank_of_mem_takeWhile, hback⟩
  rw [List.append_assoc, trim, ← hcut, List.takeWhile_append_dropWhile]

/-- Neither the first nor the last character of a text is blank. -/
structure Trimmed (cs : List Char) : Prop where
  head : ∀ c, cs.head? = some c → isBlank c = false
  last : ∀ c, cs.getLast? = some c → isBlank c = false

theorem Trimmed.trim_eq {cs : List Char} (h : Trimmed cs) : trim cs = cs :=
  trim_eq_self h.head h.last

theorem trim_of_forall {cs : List Char} (h : ∀ c ∈ cs, isBlank c = false) : trim cs = cs :=
  trim_eq_self (fun c hc => h c (List.mem_of_head? hc)) fun c hc => h c (List.mem_of_getLast? hc)

theorem isBlank_head?_dropWhile {cs : List Char} {c : Char}
    (h : (cs.dropWhile isBlank).head? = some c) : isBlank c = false := by
  have hnot := List.head?_dropWhile_not isBlank cs
  simpa [h] using hnot

theorem trimmed_trim (cs : List Char) : Trimmed (trim cs) := by
  constructor
  · intro c hc
    obtain ⟨back, hcut, _⟩ := exists_append_trimEnd (cs.dropWhile isBlank)
    have hhead : (cs.dropWhile isBlank).head? = some c := by
      rw [hcut, List.head?_append, ← trim, hc]
      rfl
    exact isBlank_head?_dropWhile hhead
  · intro c hc
    rw [trim, trimEnd, List.getLast?_reverse] at hc
    exact isBlank_head?_dropWhile hc

theorem trimmed_iff {cs : List Char} : Trimmed cs ↔ trim cs = cs :=
  ⟨Trimmed.trim_eq, fun h => h ▸ trimmed_trim cs⟩

instance : DecidablePred Trimmed :=
  fun cs => decidable_of_iff (trim cs = cs) trimmed_iff.symm

theorem Trimmed.append {cs ds : List Char} (hcs : Trimmed cs) (hds : Trimmed ds) :
    Trimmed (cs ++ ds) where
  head c hc := by
    cases cs with
    | nil => exact hds.head c hc
    | cons b cs => exact hcs.head c hc
  last c hc := by
    rw [List.getLast?_append] at hc
    cases hlast : ds.getLast? with
    | none => exact hcs.last c (by simpa [hlast] using hc)
    | some d => exact hds.last c (by simpa [hlast] using hc)

/-- Only blanks are lost. -/
theorem mem_trim_iff {cs : List Char} {c : Char} (h : isBlank c = false) :
    c ∈ trim cs ↔ c ∈ cs := by
  obtain ⟨front, back, hcut, hfront, hback⟩ := exists_append_trim cs
  have hlost : c ∉ front ∧ c ∉ back := by
    constructor
    · intro hc
      simp [hfront c hc] at h
    · intro hc
      simp [hback c hc] at h
  have hmem : c ∈ cs ↔ c ∈ front ++ trim cs ++ back := by rw [← hcut]
  simp [hmem, hlost]

end Disassembly.Text
