import Disassembly.Expression.Region
import Disassembly.Proofs.Decoding

/-!
# What option values stand for

What can be said of the value of an option once it has been understood, whatever its text was:

* **ranges** — a range does not end before it starts; alone it is one of code without a file offset
  (`region_eq_ok`), and an assignment changes nothing but what it assigns (`typedRegion_eq_ok`,
  `placedRegion_eq_ok`);
* **contents** — a content is code, or data of at least one kind (`content_declarable`), and a
  range that has one has no file offset (`typedRegion_declarable`);
* **names** — the name of a symbol is not empty and has no blanks in it (`symbol_name`).
-/

namespace Disassembly

/-- A content that can be declared: code, or data that is read as at least one kind. -/
def Content.Declarable : Content → Prop
  | .code => True
  | .data kinds => kinds ≠ []

/-- A name that can be declared. -/
def Symbols.Declarable (name : String) : Prop :=
  name ≠ "" ∧ ∀ c ∈ name.toList, Text.isBlank c = false

namespace Expression

variable {option : Char} {token : List Char}

/-! ## Ranges -/

theorem region_eq_ok {r : Region} (h : region option token = .ok r) :
    ∃ start stop, start ≤ stop ∧ r = { start, stop } := by
  unfold region at h
  dsimp only at h
  split at h
  · cases h
  · next separator right _ =>
      obtain ⟨start, _, h⟩ := bind_eq_ok_iff.mp h
      obtain ⟨second, _, h⟩ := bind_eq_ok_iff.mp h
      generalize (if separator = ',' then start.toNat + second.toNat else second.toNat) = stop at h
      by_cases hpast : 0x100000000 ≤ stop
      · rw [if_pos hpast] at h
        cases h
      · rw [if_neg hpast] at h
        by_cases hbefore : stop < start.toNat
        · rw [if_pos hbefore] at h
          cases h
        · rw [if_neg hbefore] at h
          cases h
          refine ⟨start, UInt32.ofNat stop, ?_, rfl⟩
          rw [UInt32.le_iff_toNat_le, UInt32.toNat_ofNat_of_lt' (by simpa using hpast)]
          omega

theorem typedRegion_eq_ok {r : Region} (h : typedRegion option token = .ok r) :
    ∃ left right plain c, assignment option token = .ok (left, right) ∧
      region option left = .ok plain ∧ content option right = .ok c ∧
      r = { plain with content := c } := by
  obtain ⟨⟨left, right⟩, hsides, h⟩ := bind_eq_ok_iff.mp h
  obtain ⟨plain, hplain, h⟩ := bind_eq_ok_iff.mp h
  obtain ⟨c, hc, h⟩ := bind_eq_ok_iff.mp h
  cases h
  exact ⟨left, right, plain, c, hsides, hplain, hc, rfl⟩

theorem placedRegion_eq_ok {r : Region} (h : placedRegion option token = .ok r) :
    ∃ left right plain n, assignment option token = .ok (left, right) ∧
      region option left = .ok plain ∧ number option right = .ok n ∧
      r = { plain with fileOffset := n } := by
  obtain ⟨⟨left, right⟩, hsides, h⟩ := bind_eq_ok_iff.mp h
  obtain ⟨plain, hplain, h⟩ := bind_eq_ok_iff.mp h
  obtain ⟨n, hn, h⟩ := bind_eq_ok_iff.mp h
  cases h
  exact ⟨left, right, plain, n, hsides, hplain, hn, rfl⟩

/-! ## Contents -/

theorem kinds_ne_nil {letters : List Char} {ks : List DataKind}
    (h : kinds letters = .ok ks) : ks ≠ [] := by
  unfold kinds at h
  split at h
  · cases h
  · cases h
    simp
  · cases h
    simp
  · cases h
    simp
  · next hne _ _ _ =>
      split at h
      · next read hread =>
          cases h
          -- there is a first letter, and it gives the first kind
          cases letters with
          | nil => exact absurd rfl hne
          | cons c letters =>
              rw [List.mapM_cons] at hread
              obtain ⟨k, _, hread⟩ := Option.bind_eq_some_iff.mp hread
              obtain ⟨ks, _, hread⟩ := Option.bind_eq_some_iff.mp hread
              cases hread
              simp
      · cases h

theorem map_eq_ok {ε α β : Type} {f : α → β} {x : Except ε α} {b : β} (h : x.map f = .ok b) :
    ∃ a, x = .ok a ∧ f a = b := by
  cases x with
  | error e => cases h
  | ok a => exact ⟨a, rfl, Except.ok.inj h⟩

theorem dataContent_declarable {cs : List Char} {c : Content} (h : dataContent cs = .ok c) :
    c.Declarable := by
  obtain ⟨ks, hread, rfl⟩ := map_eq_ok h
  show (if (splitVector cs).2 = true then [DataKind.vector] else ks) ≠ []
  split
  · simp
  · split at hread
    · cases hread
      simp
    · exact kinds_ne_nil hread
    · cases hread

theorem content_declarable {c : Content} (h : content option token = .ok c) : c.Declarable := by
  unfold content at h
  split at h
  · next c' hname =>
      cases h
      unfold contentName at hname
      split at hname
      · cases hname
        trivial
      · exact dataContent_declarable hname
      · cases hname
  · cases h

/-- A range that is assigned a content, also as a vector table. -/
theorem typedRegion_declarable {r : Region} (h : typedRegion option token = .ok r) :
    r.start ≤ r.stop ∧ r.content.Declarable ∧ r.fileOffset = 0 := by
  obtain ⟨_, _, plain, c, _, hplain, hcontent, rfl⟩ := typedRegion_eq_ok h
  obtain ⟨start, stop, hordered, rfl⟩ := region_eq_ok hplain
  exact ⟨hordered, content_declarable hcontent, rfl⟩

/-! ## Assignments and names -/

theorem assignment_ne_nil {left right : List Char}
    (h : assignment option token = .ok (left, right)) : left ≠ [] ∧ right ≠ [] := by
  unfold assignment at h
  split at h
  · cases h
  · dsimp only at h
    split at h
    · cases h
    · next hsides =>
        cases h
        simpa using hsides

theorem symbol_name {d : UInt32 × String} (h : symbol option token = .ok d) :
    Symbols.Declarable d.2 := by
  obtain ⟨⟨left, right⟩, hsides, h⟩ := bind_eq_ok_iff.mp h
  dsimp only at h
  split at h
  · cases h
  · next hblank =>
      obtain ⟨a, _, h⟩ := bind_eq_ok_iff.mp h
      cases h
      refine ⟨?_, ?_⟩
      · intro hempty
        exact (assignment_ne_nil hsides).2 (by simpa using congrArg String.toList hempty)
      · intro c hc
        rw [String.toList_ofList] at hc
        simp only [Bool.not_eq_true, List.any_eq_false] at hblank
        simpa using hblank c hc

end Expression

end Disassembly
