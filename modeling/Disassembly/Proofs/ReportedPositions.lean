import Disassembly.Proofs.Decoding
import Disassembly.Proofs.Occurrences

/-!
# The positions that the reader reports

The reader counts positions while it reads, and counts every value that it keeps. `Holds` is what it
keeps up: what has been read so far is reported, and all of it stands at positions already counted.
Each part of the reading adds mentions at later positions, so in the end every value is reported
with its position (`Parser.standard_reportsPositions`).
-/

namespace Disassembly

/-! ## One more value -/

theorem Values.among_add {given : Given} {occurrences : List Occurrence}
    (h : ∀ kind, given.values kind = among occurrences kind) (position : Nat) (item : Item)
    (kind : Kind) :
    (given.add position item).values kind = among (occurrences ++ [⟨position, item⟩]) kind := by
  simp only [Given.values_add, among, Occurrence.ofKind_append, List.map_append]
  by_cases hkind : item.kind = kind
  · simp [hkind, Occurrence.ofKind, h, add, among]
  · simp [hkind, Occurrence.ofKind, h, among]

namespace Arguments

theorem itemsAt_append (first second : List (Nat × Mention)) :
    itemsAt (first ++ second) = itemsAt first ++ itemsAt second :=
  List.filterMap_append

/-- Mentions that have been read and are reported, all at positions counted so far. -/
structure Reading.Holds (placed : List (Nat × Mention)) (reading : Reading) : Prop where
  reports : Reports placed reading.arguments
  counted : ∀ p ∈ placed, p.1 ≤ reading.position

namespace Reading.Holds

variable {placed : List (Nat × Mention)} {reading : Reading}

theorem empty : Holds [] {} where
  reports := {
    ascending := .nil
    values := by
      intro kind
      cases kind with
      | input => rfl
      | optionsFile => rfl
      | setting option => cases option <;> rfl
    output := rfl }
  counted := by simp

theorem advance (h : Holds placed reading) : Holds placed reading.advance where
  reports := h.reports
  counted := fun p hp => Nat.le_succ_of_le (h.counted p hp)

/-- One more mention at the next position, if the arguments take it over. -/
theorem next (h : Holds placed reading) {m : Mention} {arguments : Arguments}
    (hvalues : ∀ kind, arguments.given.values kind =
      .among (itemsAt placed ++ itemsAt [(reading.position + 1, m)]) kind)
    (houtput : arguments.output.toList =
      reading.arguments.output.toList ++ m.output?.toList) :
    Holds (placed ++ [(reading.position + 1, m)]) { reading.advance with arguments } where
  reports := {
    ascending := by
      rw [List.map_append, List.pairwise_append]
      refine ⟨h.reports.ascending, List.pairwise_singleton _ _, ?_⟩
      intro position hposition last hlast
      obtain ⟨p, hp, rfl⟩ := List.mem_map.mp hposition
      obtain rfl : last = reading.position + 1 := by simpa using hlast
      exact Nat.lt_succ_of_le (h.counted p hp)
    values := by
      rw [itemsAt_append]
      exact hvalues
    output := by
      rw [houtput, h.reports.output, List.map_append, List.filterMap_append]
      cases m <;> rfl }
  counted := by
    intro p hp
    rcases List.mem_append.mp hp with hp | hp
    · exact Nat.le_succ_of_le (h.counted p hp)
    · obtain rfl : p = (reading.position + 1, m) := by simpa using hp
      exact Nat.le_refl _

theorem addItem (h : Holds placed reading) (item : Item) :
    Holds (placed ++ [(reading.position + 1, .item item)]) (reading.addItem item) :=
  h.next (Values.among_add h.reports.values _ _) (List.append_nil _).symm

theorem addSwitch (h : Holds placed reading) {s : Switch} {result : Reading}
    (hresult : reading.addSwitch s = .ok result) :
    Holds (placed ++ [(reading.position + 1, .switch s)]) result := by
  simp only [Reading.addSwitch] at hresult
  split at hresult
  · cases hresult
  · cases hresult
    refine h.next ?_ (List.append_nil _).symm
    simpa [itemsAt, Mention.item?] using h.reports.values

theorem addValue (h : Holds placed reading) {option : Valued} {value : String} {result : Reading}
    (hresult : reading.addValue option value = .ok result) :
    Holds (placed ++ [(reading.position + 1, .ofValue option value)]) result := by
  cases option with
  | setting s =>
      cases hresult
      exact h.addItem _
  | output =>
      simp only [Reading.addValue] at hresult
      split at hresult
      · cases hresult
      · next hnone =>
          cases hresult
          rw [Bool.not_eq_true, Option.isSome_eq_false_iff, Option.isNone_iff_eq_none] at hnone
          refine h.next ?_ ?_
          · simpa [itemsAt, Mention.ofValue, Mention.item?] using h.reports.values
          · rw [hnone]
            rfl
  | optionsFile =>
      simp only [Reading.addValue] at hresult
      split at hresult
      · cases hresult
      · cases hresult
        exact h.addItem _

theorem addInputs (h : Holds placed reading) (names : List String) :
    ∃ more : List (Nat × Mention),
      more.map Prod.snd = names.map (fun name => .item (.input name)) ∧
      Holds (placed ++ more)
        (names.foldl (fun reading name => reading.addItem (.input name)) reading) := by
  induction names generalizing placed reading with
  | nil => exact ⟨[], rfl, by simpa using h⟩
  | cons name names ih =>
      obtain ⟨more, hmore, hholds⟩ := ih (h.addItem (.input name))
      refine ⟨(reading.position + 1, .item (.input name)) :: more, ?_, ?_⟩
      · rw [List.map_cons, hmore, List.map_cons]
      · rw [List.append_cons]
        exact hholds

end Reading.Holds

/-! ## Reading -/

theorem Letters.of_readLetters {placed : List (Nat × Mention)} {reading : Reading} {cs : List Char}
    {result : Reading × Option Valued} (hplaced : reading.Holds placed)
    (h : reading.readLetters cs = .ok result) :
    ∃ more : List (Nat × Mention), Letters cs (more.map Prod.snd) result.2 ∧
      result.1.Holds (placed ++ more) := by
  fun_induction Reading.readLetters reading cs generalizing placed with
  | case1 reading =>
      cases h
      exact ⟨[], .nil, by simpa using hplaced⟩
  | case2 => cases h
  | case3 => cases h
  | case4 reading c cs _ _ s hswitch ih =>
      obtain ⟨next, hnext, h⟩ := bind_eq_ok_iff.mp h
      obtain ⟨more, hletters, hholds⟩ := ih next (hplaced.addSwitch hnext) h
      rw [← List.append_cons] at hholds
      exact ⟨(_, .switch s) :: more, .switch hswitch hletters, hholds⟩
  | case5 => cases h
  | case6 reading c _ _ _ option hoption =>
      cases h
      exact ⟨[], .waiting hoption, by simpa using hplaced.advance⟩
  | case7 reading c _ _ _ option hoption value =>
      obtain ⟨next, hnext, h⟩ := bind_eq_ok_iff.mp h
      cases h
      exact ⟨[(_, _)], .assigned hoption, hplaced.advance.addValue hnext⟩
  | case8 reading c _ _ _ option hoption value hne hassigned =>
      obtain ⟨next, hnext, h⟩ := bind_eq_ok_iff.mp h
      cases h
      cases value with
      | nil => exact absurd rfl hne
      | cons first value =>
          refine ⟨[(_, _)], .attached hoption ?_, hplaced.advance.addValue hnext⟩
          rintro rfl
          exact hassigned value rfl

-- The induction follows the reader; what has been read before is part of the invariant only, so that
-- `Says` speaks of the rest of the list.
theorem Says.of_readFrom {placed : List (Nat × Mention)} {reading result : Reading}
    {pending : Option Valued} {list : List String} (hplaced : reading.Holds placed)
    (h : reading.readFrom pending list = .ok result) :
    ∃ more : List (Nat × Mention), Says pending list (more.map Prod.snd) ∧
      result.Holds (placed ++ more) := by
  fun_induction Reading.readFrom reading pending list generalizing placed with
  | case1 => cases h
  | case2 reading pending hnone =>
      rw [Bool.not_eq_true, Option.isSome_eq_false_iff, Option.isNone_iff_eq_none] at hnone
      rw [hnone]
      cases h
      exact ⟨[], .nil, by simpa using hplaced⟩
  | case3 reading a rest option hvalue ih =>
      obtain ⟨next, hnext, h⟩ := bind_eq_ok_iff.mp h
      obtain ⟨more, hsaid, hholds⟩ := ih next (hplaced.addValue hnext) h
      rw [← List.append_cons] at hholds
      exact ⟨(_, _) :: more, .value hvalue hsaid, hholds⟩
  | case4 => cases h
  | case5 reading a rest hdashes =>
      cases h
      obtain ⟨more, hmore, hholds⟩ := hplaced.addInputs rest
      refine ⟨more, ?_, hholds⟩
      rw [hmore]
      exact .names hdashes
  | case6 => cases h
  | case7 => cases h
  | case8 => cases h
  | case9 reading a rest c cs _ hdash hletters ih =>
      obtain ⟨⟨next, pending⟩, hnext, h⟩ := bind_eq_ok_iff.mp h
      obtain ⟨more, hms, hholds⟩ := Letters.of_readLetters hplaced hnext
      obtain ⟨more', hsaid, hholds'⟩ := ih next pending hholds h
      refine ⟨more ++ more', ?_, ?_⟩
      · rw [List.map_append]
        exact .letters hletters hdash hms hsaid
      · rw [← List.append_assoc]
        exact hholds'
  | case10 reading a rest _ _ hplain ih =>
      obtain ⟨more, hsaid, hholds⟩ := ih (hplaced.addItem (.input a)) h
      rw [← List.append_cons] at hholds
      refine ⟨(_, _) :: more, .name ?_ hsaid, hholds⟩
      unfold isValue
      split
      · next c cs hletters => exact (hplain c cs hletters).elim
      · rfl

/-- The reader reports each value with its position. -/
theorem Parser.standard_reportsPositions : standard.ReportsPositions := by
  intro list arguments h
  obtain ⟨reading, hreading, h⟩ := bind_eq_ok_iff.mp h
  cases h
  obtain ⟨placed, hsaid, hholds⟩ := Says.of_readFrom .empty hreading
  exact ⟨placed, hsaid, hholds.reports⟩

end Arguments

end Disassembly
