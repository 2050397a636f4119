import Disassembly.Proofs.OptionValues
import Disassembly.Proofs.SettingsSteps

/-!
# What holds of all settings

Settings are changed by argument lists and options files, any number of them, and each of them may
fail halfway. `WellFormed` is what a run of the disassembler relies on without checking it, and
`Reachable` are the settings that can come about:

* **steps** — a step that fails has changed nothing but the output flags (`settings_of_failed`),
  and one that succeeds inserts only what its value stands for (`Performs.wellFormed`);
* **runs** — what no step breaks, no argument list and no options file breaks, at whatever depth
  and with whatever outcome (`Kept.reachable`).
-/

namespace Disassembly

/-- The regions of a map stand in ascending order of their starts, none of them ends before it
starts, and all of them have a property. -/
structure RegionMap.Holds (p : Region → Prop) (map : RegionMap) : Prop where
  ascending : map.Ascending
  ordered : ∀ r ∈ map.regions, r.start ≤ r.stop
  each : ∀ r ∈ map.regions, p r

namespace RegionMap.Holds

variable {p : Region → Prop}

theorem empty : Holds p {} where
  ascending := List.Pairwise.nil
  ordered := by simp
  each := by simp

theorem insert {map : RegionMap} (h : map.Holds p) {region : Region}
    (hordered : region.start ≤ region.stop) (hp : p region) : (map.insert region).Holds p := by
  have hmem : ∀ r ∈ (map.insert region).regions, r = region ∨ r ∈ map.regions := by
    intro r hr
    exact List.mem_cons.mp ((insert_perm map region).mem_iff.mp hr)
  refine ⟨insert_ascending h.ascending region, ?_, ?_⟩
  · intro r hr
    rcases hmem r hr with rfl | hr
    · exact hordered
    · exact h.ordered r hr
  · intro r hr
    rcases hmem r hr with rfl | hr
    · exact hp
    · exact h.each r hr

end RegionMap.Holds

namespace Settings

/-- What a run relies on. -/
structure WellFormed (s : Settings) : Prop where
  files : s.layout.files.Holds fun r => r.content = .code
  contents : s.layout.contents.Holds fun r => r.content.Declarable ∧ r.fileOffset = 0
  selected : s.layout.selected.Holds fun r => r.content = .code ∧ r.fileOffset = 0
  symbols : ∀ (a : UInt32) (name : String), s.symbols[a]? = some name → Symbols.Declarable name

/-! ## One step -/

theorem withValue_settings {α : Type} {s : Settings} {value : Except Expression.Rejection α}
    {next : α → Outcome} (h : (s.withValue value next).error ≠ none)
    (hnext : ∀ a, (next a).error ≠ none → (next a).settings = s) :
    (s.withValue value next).settings = s := by
  cases value with
  | error rejection => rfl
  | ok a => exact hnext a h

/-- A step that fails leaves everything but the output flags as it was. -/
theorem settings_of_failed {s : Settings} {step : Step} (h : (s.perform step).error ≠ none) :
    ∃ flags, (s.perform step).settings = { s with flags } := by
  have hsame : (s.perform step).settings = s →
      ∃ flags, (s.perform step).settings = { s with flags } := fun heq => ⟨s.flags, heq⟩
  have hdone : ∀ {α : Type} (f : α → Settings) (a : α),
      (done (f a)).error ≠ none → (done (f a)).settings = s := fun _ _ h => absurd rfl h
  cases step with
  | opened path => exact absurd rfl h
  | noDefault path => exact absurd rfl h
  | input name =>
      apply hsame
      simp only [perform] at h ⊢
      split at h
      · next hsome => rw [if_pos hsome]; rfl
      · exact absurd rfl h
  | finish output switches =>
      apply hsame
      simp only [perform, Settings.finish] at h ⊢
      split at h
      · next hlittle => rw [if_pos hlittle]; rfl
      · exact absurd rfl h
  | setting option value =>
      cases option with
      | select => exact hsame (withValue_settings h (hdone _))
      | entry => exact hsame (withValue_settings h fun _ _ => rfl)
      | correlate => exact hsame (withValue_settings h fun _ _ => rfl)
      | place => exact hsame (withValue_settings h (hdone _))
      | symbol => exact hsame (withValue_settings h fun _ h => absurd rfl h)
      | vectors => exact hsame (withValue_settings h (hdone _))
      | content =>
          apply hsame
          simp only [perform, set] at h ⊢
          split at h
          · next hhelp => rw [if_pos hhelp]; rfl
          · next hhelp =>
              rw [if_neg hhelp]
              exact withValue_settings h (hdone _)
      | flags =>
          simp only [perform, set] at h ⊢
          split at h
          · next hhelp => rw [if_pos hhelp]; exact ⟨s.flags, rfl⟩
          · next hhelp =>
              rw [if_neg hhelp]
              refine ⟨(s.flags.apply value).1, ?_⟩
              unfold setFlags
              dsimp only
              split <;> rfl

theorem Performs.wellFormed {s t : Settings} {step : Step} (h : Performs s step t)
    (hs : s.WellFormed) : t.WellFormed := by
  cases h with
  | opened => exact hs
  | noDefault => exact hs
  | input _ => exact { hs with }
  | flags _ _ => exact { hs with }
  | finish _ => exact { hs with }
  | select hvalue =>
      obtain ⟨start, stop, hordered, rfl⟩ := Expression.region_eq_ok hvalue
      exact { hs with selected := hs.selected.insert hordered ⟨rfl, rfl⟩ }
  | place hvalue =>
      obtain ⟨_, _, plain, n, _, hplain, _, rfl⟩ := Expression.placedRegion_eq_ok hvalue
      obtain ⟨start, stop, hordered, rfl⟩ := Expression.region_eq_ok hplain
      exact { hs with files := hs.files.insert hordered rfl }
  | content _ hvalue =>
      obtain ⟨hordered, hform⟩ := Expression.typedRegion_declarable hvalue
      exact { hs with contents := hs.contents.insert hordered hform }
  | vectors hvalue =>
      -- a vector table is read as a range with a content
      obtain ⟨hordered, hform⟩ := Expression.typedRegion_declarable hvalue
      exact { hs with contents := hs.contents.insert hordered hform }
  | @symbol value d hvalue =>
      refine { hs with symbols := ?_ }
      intro a name hname
      rw [Std.ExtTreeMap.getElem?_insert] at hname
      split at hname
      · cases hname
        exact Expression.symbol_name hvalue
      · exact hs.symbols a name hname

/-! ## Runs -/

/-- No step breaks the property, whether it succeeds or fails. -/
def Kept (P : Settings → Prop) : Prop :=
  ∀ s step, P s → P (s.perform step).settings

theorem wellFormed_kept : Kept WellFormed := by
  intro s step hs
  by_cases herror : (s.perform step).error = none
  · exact (performs_of_perform herror).wellFormed hs
  · obtain ⟨flags, heq⟩ := settings_of_failed herror
    rw [heq]
    exact { hs with }

theorem Outcome.andThen_settings {P : Settings → Prop} {outcome : Outcome}
    {next : Settings → Outcome} (h : P outcome.settings)
    (hnext : ∀ s, P s → P (next s).settings) : P (outcome.andThen next).settings := by
  unfold andThen
  split
  · exact h
  · exact hnext outcome.settings h

/-- The settings that argument lists and options files can lead to, whatever the files hold at the
time and whether or not they are taken over to the end. -/
inductive Reachable : Settings → Prop
  | initial : Reachable {}
  | apply {s : Settings} (look : Lookup) (depth : Nat) (arguments : Arguments) :
      Reachable s → Reachable (s.apply look depth arguments).settings
  | applyFile {s : Settings} (look : Lookup) (depth : Nat) (path : String) :
      Reachable s → Reachable (s.applyFile look depth path).settings
  | applyDefaultFile {s : Settings} (look : Lookup) :
      Reachable s → Reachable (s.applyDefaultFile look).settings

namespace Kept

variable {P : Settings → Prop}

theorem performAll (hP : Kept P) (steps : List Step) {s : Settings} (hs : P s) :
    P (performAll steps s).settings := by
  induction steps generalizing s with
  | nil => exact hs
  | cons step steps ih =>
      rw [performAll_cons]
      exact Outcome.andThen_settings (hP s step hs) fun _ h => ih h

theorem run (hP : Kept P) (script : Script) {s : Settings} (hs : P s) :
    P (script.run s).settings :=
  Outcome.andThen_settings (hP.performAll script.steps hs) fun _ h => h

/-- What no step breaks holds of everything that can be reached, if it holds at the start. -/
theorem reachable (hP : Kept P) (hinitial : P {}) {s : Settings} (h : Reachable s) : P s := by
  induction h with
  | initial => exact hinitial
  | apply look depth arguments _ ih =>
      rw [← run_ofArguments]
      exact hP.run _ ih
  | applyFile look depth path _ ih =>
      rw [← run_ofFile]
      exact hP.run _ ih
  | applyDefaultFile look _ ih =>
      unfold applyDefaultFile
      split
      · rw [← run_ofFile]
        exact hP.run _ ih
      · exact hP _ _ ih

end Kept

/-- All settings that can be reached are well-formed. -/
theorem reachable_wellFormed {s : Settings} (h : Reachable s) : s.WellFormed := by
  refine wellFormed_kept.reachable ⟨.empty, .empty, .empty, ?_⟩ h
  intro a name hname
  rw [Std.ExtTreeMap.getElem?_empty] at hname
  cases hname

/-- An options file fails after it has declared a content and a vector table; the list that names it
has declared a name before. -/
theorem reachable_wellFormed_halfway :
    let look : Lookup := fun path =>
      if path = "f" then .ok (.file "-m 8-16=DATA/WS\n-t 0\n-d 9-3\n-s 0=late".toUTF8.data)
      else .error .notFound
    let arguments : Arguments :=
      { given :=
          { symbol := { positions := [2], texts := ["0=early"] }
            optionsFile := { positions := [4], texts := ["f"] }
            select := { positions := [6], texts := ["4-8"] } } }
    let outcome := ({} : Settings).apply look 0 arguments
    outcome.error.isSome ∧ outcome.settings.layout.selected.isEmpty ∧
      outcome.settings.layout.contents.regions =
        [{ start := 0, stop := 0x400, content := .data [.vector] },
          { start := 8, stop := 16, content := .data [.word, .string] }] ∧
      outcome.settings.WellFormed := by
  intro look arguments outcome
  refine ⟨by decide +kernel, by decide +kernel, by decide +kernel, ?_⟩
  exact reachable_wellFormed (.apply look 0 arguments .initial)

end Settings

end Disassembly
