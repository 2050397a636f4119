import Disassembly.Proofs.RegionMaps
import Disassembly.Proofs.Tables
import Disassembly.Settings.Script

/-!
# What steps do to settings

`Performs` says what a step that succeeds can do, and `performs_of_perform` that it does nothing
else. Each aspect of the settings is then followed through a step, and through a run of steps:

* `Takes` — input, region maps, names and named flags after a run, in terms of the items that the
  steps stand for, in their order (`Runs.takes`);
* `Runs.output` — the output name is the last one that the end of an argument list has set.
-/

namespace Disassembly

/-! ## What an item contributes -/

namespace Item

def input? : Item → Option String
  | .input name => some name
  | _ => none

/-- The selected region that an item declares, if its value is understood. -/
def selected? : Item → Option (Except Expression.Rejection Region)
  | .setting .select value => some (Expression.region 'd' value.toList)
  | _ => none

def placed? : Item → Option (Except Expression.Rejection Region)
  | .setting .place value => some (Expression.placedRegion 'i' value.toList)
  | _ => none

/-- The content that an item declares: that of a range, or a vector table. -/
def content? : Item → Option (Except Expression.Rejection Region)
  | .setting .content value => some (Expression.typedRegion 'm' value.toList)
  | .setting .vectors value => some (Expression.vectorTable 't' value.toList)
  | _ => none

def symbol? : Item → Option (Except Expression.Rejection (UInt32 × String))
  | .setting .symbol value => some (Expression.symbol 's' value.toList)
  | _ => none

def flags? : Item → Option String
  | .setting .flags value => some value
  | _ => none

end Item

/-- A map after more regions, inserted one after the other: equal starts stay in that order. -/
structure RegionMap.Gains (map : RegionMap) (regions : List Region) (map' : RegionMap) : Prop where
  inserted : map' = regions.foldl insert map
  stable : map.Ascending → ∀ a, map'.regions.filter (·.start == a) =
    map.regions.filter (·.start == a) ++ regions.filter (·.start == a)

theorem RegionMap.gains_foldl (map : RegionMap) (regions : List Region) :
    map.Gains regions (regions.foldl insert map) :=
  ⟨rfl, fun hmap => filter_start_foldl_insert hmap regions⟩

theorem RegionMap.Gains.trans {map map' map'' : RegionMap} {regions regions' : List Region}
    (h : map.Gains regions map') (h' : map'.Gains regions' map'') :
    map.Gains (regions ++ regions') map'' := by
  rw [h'.inserted, h.inserted, ← List.foldl_append]
  exact gains_foldl map _

/-- A map after the regions that items declare, all of them understood, have been inserted. -/
def RegionMap.Takes (read : Item → Option (Except Expression.Rejection Region)) (items : List Item)
    (map map' : RegionMap) : Prop :=
  ∃ regions, items.filterMap read = regions.map .ok ∧ map.Gains regions map'

namespace RegionMap.Takes

variable {read : Item → Option (Except Expression.Rejection Region)} {items items' : List Item}
  {map map' map'' : RegionMap}

theorem unchanged (h : items.filterMap read = []) : Takes read items map map :=
  ⟨[], h, gains_foldl map []⟩

theorem single {item : Item} {region : Region} (h : read item = some (.ok region)) :
    Takes read [item] map (map.insert region) := by
  refine ⟨[region], ?_, gains_foldl map [region]⟩
  simp [h]

theorem trans (h : Takes read items map map') (h' : Takes read items' map' map'') :
    Takes read (items ++ items') map map'' := by
  obtain ⟨regions, hread, hgains⟩ := h
  obtain ⟨regions', hread', hgains'⟩ := h'
  refine ⟨regions ++ regions', ?_, hgains.trans hgains'⟩
  rw [List.filterMap_append, hread, hread', List.map_append]

end RegionMap.Takes

namespace OutputFlags

theorem get_applyWords_congr {flags flags' : OutputFlags} (h : ∀ n, flags.get n = flags'.get n)
    (ws : List (List Char)) (name : Name) :
    (flags.applyWords ws).1.get name = (flags'.applyWords ws).1.get name := by
  induction ws generalizing flags flags' with
  | nil => exact h name
  | cons w ws ih =>
      simp only [applyWords]
      split
      · next change _ =>
          refine ih fun n => ?_
          by_cases hn : n = change.name
          · rw [hn, get_set_self, get_set_self]
          · rw [get_set_of_ne _ _ hn, get_set_of_ne _ _ hn, h n]
      · exact h name

/-- The flags after several lists of words. -/
def applyAll (flags : OutputFlags) (texts : List String) : OutputFlags :=
  texts.foldl (fun flags text => (flags.apply text).1) flags

/-- The named flags depend only on the named flags before. -/
theorem get_applyAll_congr {flags flags' : OutputFlags} (h : ∀ n, flags.get n = flags'.get n)
    (texts : List String) (name : Name) :
    (flags.applyAll texts).get name = (flags'.applyAll texts).get name := by
  induction texts generalizing flags flags' with
  | nil => exact h name
  | cons text texts ih => exact ih fun n => get_applyWords_congr h _ n

end OutputFlags

theorem filterMap_cons_toList {α β : Type} (f : α → Option β) (a : α) (as : List α) :
    (a :: as).filterMap f = (f a).toList ++ as.filterMap f := by
  cases h : f a <;> simp [h]

namespace Settings

/-! ## One step -/

/-- What a step that succeeds does to the settings. -/
inductive Performs (s : Settings) : Step → Settings → Prop
  | opened {path : String} : Performs s (.opened path) s
  | noDefault {path : String} : Performs s (.noDefault path) s
  | input {name : String} : s.input = none → Performs s (.input name) { s with input := some name }
  | select {value : String} {r : Region} : Expression.region 'd' value.toList = .ok r →
      Performs s (.setting .select value)
        { s with layout := { s.layout with selected := s.layout.selected.insert r } }
  | place {value : String} {r : Region} : Expression.placedRegion 'i' value.toList = .ok r →
      Performs s (.setting .place value)
        { s with layout := { s.layout with files := s.layout.files.insert r } }
  | content {value : String} {r : Region} : asksHelp value = false →
      Expression.typedRegion 'm' value.toList = .ok r →
      Performs s (.setting .content value)
        { s with layout := { s.layout with contents := s.layout.contents.insert r } }
  | vectors {value : String} {r : Region} : Expression.vectorTable 't' value.toList = .ok r →
      Performs s (.setting .vectors value)
        { s with layout := { s.layout with contents := s.layout.contents.insert r } }
  | symbol {value : String} {d : UInt32 × String} : Expression.symbol 's' value.toList = .ok d →
      Performs s (.setting .symbol value) { s with symbols := s.symbols.insert d.1 d.2 }
  | flags {value : String} : asksHelp value = false → (s.flags.apply value).2 = none →
      Performs s (.setting .flags value) { s with flags := (s.flags.apply value).1 }
  | finish {output : Option String} {switches : List Switch} :
      switches.contains .littleEndian = false →
      Performs s (.finish output switches)
        { s with
          output := output.or s.output
          split := s.split || switches.contains .split
          flags := { s.flags with
            verbose := s.flags.verbose || switches.contains .verbose
            debug := s.flags.debug || switches.contains .debug } }

theorem withValue_ok {α : Type} {s : Settings} {value : Except Expression.Rejection α}
    {next : α → Outcome} (h : (s.withValue value next).error = none) :
    ∃ a, value = .ok a ∧ s.withValue value next = next a := by
  cases value with
  | error rejection => cases h
  | ok a => exact ⟨a, rfl, rfl⟩

theorem performs_of_set {s : Settings} {option : Setting} {value : String}
    (h : (s.set option value).error = none) :
    Performs s (.setting option value) (s.set option value).settings := by
  cases option with
  | select =>
      obtain ⟨r, hvalue, hset⟩ := withValue_ok h
      rw [set, hset]
      exact .select hvalue
  | entry =>
      obtain ⟨_, _, hset⟩ := withValue_ok h
      rw [set, hset] at h
      cases h
  | correlate =>
      obtain ⟨_, _, hset⟩ := withValue_ok h
      rw [set, hset] at h
      cases h
  | place =>
      obtain ⟨r, hvalue, hset⟩ := withValue_ok h
      rw [set, hset]
      exact .place hvalue
  | content =>
      simp only [set] at h ⊢
      split at h
      · cases h
      · next hhelp =>
          obtain ⟨r, hvalue, hset⟩ := withValue_ok h
          rw [if_neg hhelp, hset]
          exact .content (by simpa using hhelp) hvalue
  | symbol =>
      obtain ⟨d, hvalue, hset⟩ := withValue_ok h
      rw [set, hset]
      exact .symbol hvalue
  | vectors =>
      obtain ⟨r, hvalue, hset⟩ := withValue_ok h
      rw [set, hset]
      exact .vectors hvalue
  | flags =>
      simp only [set] at h ⊢
      split at h
      · cases h
      · next hhelp =>
          rw [if_neg hhelp]
          unfold setFlags at h ⊢
          cases hunknown : (s.flags.apply value).2 with
          | some word =>
              simp only [hunknown] at h
              cases h
          | none =>
              simp only [hunknown]
              exact .flags (by simpa using hhelp) hunknown

theorem performs_of_perform {s : Settings} {step : Step} (h : (s.perform step).error = none) :
    Performs s step (s.perform step).settings := by
  cases step with
  | opened path => exact .opened
  | noDefault path => exact .noDefault
  | input name =>
      simp only [perform] at h ⊢
      split at h
      · cases h
      · next hsome =>
          rw [if_neg hsome]
          exact .input (by simpa using hsome)
  | setting option value => exact performs_of_set h
  | finish output switches =>
      simp only [perform, Settings.finish] at h ⊢
      split at h
      · cases h
      · next hlittle =>
          rw [if_neg hlittle]
          exact .finish (by simpa using hlittle)

/-- The item that a step stands for. -/
def Step.item? : Step → Option Item
  | input name => some (.input name)
  | setting option value => some (.setting option value)
  | _ => none

/-- The output name that a step sets. -/
def Step.output? : Step → Option String
  | finish output _ => output
  | _ => none

/-! ## Aspects of the settings -/

/-- How items have changed the settings: there is at most one input, the regions of the three maps
are inserted in the order of the items, of several names for one address the last one stays, and
the named flags are set by one item after the other. Every value has been understood. -/
structure Takes (before : Settings) (items : List Item) (after : Settings) : Prop where
  input : after.input.toList = before.input.toList ++ items.filterMap Item.input?
  files : RegionMap.Takes Item.placed? items before.layout.files after.layout.files
  contents : RegionMap.Takes Item.content? items before.layout.contents after.layout.contents
  selected : RegionMap.Takes Item.selected? items before.layout.selected after.layout.selected
  symbols : ∃ declared : List (UInt32 × String),
    items.filterMap Item.symbol? = declared.map .ok ∧ ∀ a : UInt32, after.symbols[a]? =
      ((declared.reverse.find? (·.1 == a)).map Prod.snd).or before.symbols[a]?
  understood : ∀ text ∈ items.filterMap Item.flags?, ∀ flags : OutputFlags,
    (flags.apply text).2 = none
  flags : ∀ name, after.flags.get name =
    (before.flags.applyAll (items.filterMap Item.flags?)).get name

theorem Takes.refl (s : Settings) : Takes s [] s where
  input := by simp
  files := .unchanged rfl
  contents := .unchanged rfl
  selected := .unchanged rfl
  symbols := ⟨[], rfl, fun a => rfl⟩
  understood := by simp
  flags := fun name => rfl

theorem Takes.trans {s t u : Settings} {items items' : List Item} (h : Takes s items t)
    (h' : Takes t items' u) : Takes s (items ++ items') u where
  input := by rw [h'.input, h.input, List.filterMap_append, List.append_assoc]
  files := h.files.trans h'.files
  contents := h.contents.trans h'.contents
  selected := h.selected.trans h'.selected
  symbols := by
    obtain ⟨declared, hread, hsymbols⟩ := h.symbols
    obtain ⟨declared', hread', hsymbols'⟩ := h'.symbols
    refine ⟨declared ++ declared', ?_, ?_⟩
    · rw [List.filterMap_append, hread, hread', List.map_append]
    · intro a
      rw [hsymbols', hsymbols, List.reverse_append, List.find?_append, Option.map_or,
        Option.or_assoc]
  understood := by
    intro text htext
    rw [List.filterMap_append, List.mem_append] at htext
    rcases htext with htext | htext
    · exact h.understood text htext
    · exact h'.understood text htext
  flags := by
    intro name
    -- the flags in between may differ from the replayed ones, but not in a named flag
    rw [h'.flags, List.filterMap_append, OutputFlags.get_applyAll_congr h.flags]
    simp only [OutputFlags.applyAll, List.foldl_append]

theorem Performs.output {s t : Settings} {step : Step} (h : Performs s step t) :
    t.output = step.output?.or s.output := by
  cases h <;> rfl

/-! ## Runs of steps -/

/-- Steps that succeed one after the other. -/
inductive Runs : Settings → List Step → Settings → Prop
  | nil {s : Settings} : Runs s [] s
  | cons {s t u : Settings} {step : Step} {steps : List Step} :
      Performs s step t → Runs t steps u → Runs s (step :: steps) u

theorem Outcome.andThen_ok {outcome : Outcome} {next : Settings → Outcome}
    (h : (outcome.andThen next).error = none) :
    outcome.error = none ∧ (next outcome.settings).error = none ∧
      (outcome.andThen next).settings = (next outcome.settings).settings := by
  obtain ⟨settings, events, error⟩ := outcome
  cases error with
  | some error => cases h
  | none => exact ⟨rfl, h, rfl⟩

theorem runs_of_performAll {s : Settings} {steps : List Step}
    (h : (performAll steps s).error = none) : Runs s steps (performAll steps s).settings := by
  induction steps generalizing s with
  | nil => exact .nil
  | cons step steps ih =>
      obtain ⟨hstep, hrest, hsettings⟩ := Outcome.andThen_ok h
      rw [performAll_cons, hsettings]
      exact .cons (performs_of_perform hstep) (ih hrest)

theorem Script.runs_of_run {script : Script} {s : Settings} (h : (script.run s).error = none) :
    script.failure = none ∧ Runs s script.steps (script.run s).settings := by
  obtain ⟨hsteps, hfailure, hsettings⟩ := Outcome.andThen_ok h
  refine ⟨hfailure, ?_⟩
  rw [run, hsettings]
  exact runs_of_performAll hsteps

theorem Runs.output {s t : Settings} {steps : List Step} (h : Runs s steps t) :
    t.output = ((steps.filterMap Step.output?).getLast?).or s.output := by
  induction h with
  | nil => rfl
  | @cons s t u step steps hstep _ ih =>
      have hlast : step.output?.toList.getLast? = step.output? := by
        cases step.output? <;> rfl
      rw [ih, hstep.output, filterMap_cons_toList, List.getLast?_append, hlast, Option.or_assoc]

end Settings

end Disassembly
