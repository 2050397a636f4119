import Disassembly.Settings.Load

/-!
# Scripts

An argument list as the flat list of steps it stands for. The steps of an options file stand in the
place of its name, those of the files that it names in the place of theirs, up to the limit on the
nesting. Reading stops at the first file that cannot be read or understood; the steps before it
come first.

The script of an argument list does not depend on the settings that it changes. Main statements:
performing the script is the same as taking over the argument list or the options file.
-/

namespace Disassembly.Settings

/-- Performs steps in order, up to the first that fails. -/
def performAll : List Step → Settings → Outcome
  | [], settings => settings.done
  | step :: steps, settings => (settings.perform step).andThen (performAll steps)

@[simp] theorem performAll_nil (settings : Settings) : performAll [] settings = settings.done := rfl

@[simp] theorem performAll_cons (step : Step) (steps : List Step) (settings : Settings) :
    performAll (step :: steps) settings =
      (settings.perform step).andThen (performAll steps) := rfl

theorem performAll_append (first second : List Step) (settings : Settings) :
    performAll (first ++ second) settings =
      (performAll first settings).andThen (performAll second) := by
  induction first generalizing settings with
  | nil => simp
  | cons step steps ih => simp [Outcome.andThen_assoc, ← ih]

/-- Steps to perform, and the error met after them. -/
structure Script where
  steps : List Step := []
  failure : Option Error := none
deriving DecidableEq, Repr

namespace Script

/-- A script without steps, for an error. -/
def failed (error : Error) : Script :=
  { failure := some error }

/-- One script after another; the second is dropped if the first ends in an error. -/
def append (first second : Script) : Script :=
  match first.failure with
  | some _ => first
  | none => { steps := first.steps ++ second.steps, failure := second.failure }

instance : Append Script := ⟨append⟩

/-- The steps of an item, options files read by `readFile`. -/
def ofItem (readFile : String → Script) : Item → Script
  | .input name => { steps := [.input name] }
  | .setting option value => { steps := [.setting option value] }
  | .optionsFile path => readFile path

/-- The steps of items in order, options files read by `readFile`. -/
def ofItems (readFile : String → Script) : List Item → Script
  | [] => {}
  | item :: items => ofItem readFile item ++ ofItems readFile items

/-- The steps of an argument list, options files read by `readFile`. -/
def ofArgumentsWith (readFile : String → Script) (arguments : Arguments) : Script :=
  ofItems readFile arguments.items ++
    { steps := [.finish arguments.output arguments.switches] }

/-- The steps of an options file that may be the first of at most `room` nested ones. -/
def ofFileWithin (parse : Arguments.Parser) (look : Lookup) : Nat → String → Script
  | 0, _ => failed .nesting
  | room + 1, path =>
    match loadArguments look path parse with
    | .error error => failed error
    | .ok arguments =>
      { steps := [.opened path] } ++ ofArgumentsWith (ofFileWithin parse look room) arguments

/-- The steps of an options file at a depth of nesting; the command line has depth zero. -/
def ofFile (look : Lookup) (depth : Nat) (path : String)
    (parse : Arguments.Parser := Arguments.Parser.standard) : Script :=
  ofFileWithin parse look (maxNesting + 1 - depth) path

/-- The steps of an argument list at a depth of nesting. -/
def ofArguments (look : Lookup) (depth : Nat) (arguments : Arguments)
    (parse : Arguments.Parser := Arguments.Parser.standard) : Script :=
  ofArgumentsWith (fun path => ofFile look (depth + 1) path parse) arguments

/-- Ends with an error, or without one. -/
def stop (failure : Option Error) (settings : Settings) : Outcome :=
  { settings, error := failure }

/-- Performs a script. -/
def run (script : Script) (settings : Settings) : Outcome :=
  (performAll script.steps settings).andThen (stop script.failure)

@[simp] theorem run_failed (error : Error) (settings : Settings) :
    (failed error).run settings = settings.fail error := rfl

@[simp] theorem run_empty (settings : Settings) : ({} : Script).run settings = settings.done := rfl

@[simp] theorem run_single (step : Step) (settings : Settings) :
    ({ steps := [step] } : Script).run settings = settings.perform step := by
  have h : ∀ s : Settings, (performAll [] s).andThen (stop none) = s.done := fun _ => rfl
  simp only [run, performAll_cons, Outcome.andThen_assoc, h]
  exact Outcome.andThen_done _

theorem run_append (first second : Script) (settings : Settings) :
    (first ++ second).run settings = (first.run settings).andThen second.run := by
  obtain ⟨steps, failure⟩ := first
  cases failure with
  | none =>
    have h : ∀ s : Settings, (stop none s).andThen second.run = second.run s := fun _ => rfl
    change (performAll (steps ++ second.steps) settings).andThen (stop second.failure) = _
    simp only [run, performAll_append, Outcome.andThen_assoc, h]
  | some error =>
    have h : ∀ s : Settings, (stop (some error) s).andThen second.run = stop (some error) s :=
      fun _ => rfl
    change (performAll steps settings).andThen (stop (some error)) = _
    simp only [run, Outcome.andThen_assoc, h]

/-- Items are taken over by performing their script, if options files are. -/
theorem run_ofItems {readFile : String → Script} {applyFile : String → Settings → Outcome}
    (h : ∀ path settings, (readFile path).run settings = applyFile path settings)
    (items : List Item) (settings : Settings) :
    (ofItems readFile items).run settings = applyItems applyFile items settings := by
  induction items generalizing settings with
  | nil => rfl
  | cons item items ih =>
    have hrest : (ofItems readFile items).run = applyItems applyFile items := funext ih
    cases item <;> simp [ofItems, ofItem, run_append, applyItems, hrest, h]

theorem run_ofArgumentsWith {readFile : String → Script} {applyFile : String → Settings → Outcome}
    (h : ∀ path settings, (readFile path).run settings = applyFile path settings)
    (arguments : Arguments) (settings : Settings) :
    (ofArgumentsWith readFile arguments).run settings =
      applyWith applyFile arguments settings := by
  have hlast : ({ steps := [.finish arguments.output arguments.switches] } : Script).run =
      (·.perform (.finish arguments.output arguments.switches)) := funext (run_single _)
  rw [ofArgumentsWith, run_append, run_ofItems h, hlast, applyWith]

theorem run_ofFileWithin (parse : Arguments.Parser) (look : Lookup) (room : Nat) (path : String)
    (settings : Settings) : (ofFileWithin parse look room path).run settings =
      applyFileWithin parse look room path settings := by
  induction room generalizing path settings with
  | zero => rfl
  | succ room ih =>
    rw [ofFileWithin, applyFileWithin]
    cases loadArguments look path parse with
    | error error => rfl
    | ok arguments =>
      have hrest := funext (run_ofArgumentsWith ih arguments)
      simp only [run_append, run_single, hrest]

end Script

/-- An options file is taken over by performing its steps. -/
theorem run_ofFile (look : Lookup) (depth : Nat) (path : String) (settings : Settings)
    (parse : Arguments.Parser := Arguments.Parser.standard) :
    (Script.ofFile look depth path parse).run settings =
      settings.applyFile look depth path parse :=
  Script.run_ofFileWithin parse look _ path settings

/-- An argument list is taken over by performing its steps. -/
theorem run_ofArguments (look : Lookup) (depth : Nat) (arguments : Arguments)
    (settings : Settings) (parse : Arguments.Parser := Arguments.Parser.standard) :
    (Script.ofArguments look depth arguments parse).run settings =
      settings.apply look depth arguments parse :=
  Script.run_ofArgumentsWith (fun path s => run_ofFile look (depth + 1) path s parse) arguments
    settings

end Disassembly.Settings
