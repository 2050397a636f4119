import Disassembly.Proofs.ReportedPositions
import Disassembly.Proofs.SettingsSteps

/-!
# The reading order

`ReadingOrder` is what an argument list says with every options file in the place of its name,
and with the files that it names in the place of theirs. It does not mention settings, steps or a
limit on the nesting.

`Stands` says which steps a list of mentions stands for: an output name does nothing in its place,
and a file ends with a step for its own. A run that succeeds has performed such steps
(`runs_of_apply`), and the items among them are those of the reading order (`Stands.expands`), so
the settings have taken the items in that order. All of this holds for any parser that reports the
values that it reads with their positions.
-/

namespace Disassembly.Arguments

/-- What an options file says. -/
def FileSays (look : Lookup) (path : String) (ms : List Mention) : Prop :=
  ∃ text, look.readText path = .ok text ∧ Says none (readable (ofFileText text)) ms

theorem FileSays.unique {look : Lookup} {path : String} {ms ms' : List Mention}
    (h : FileSays look path ms) (h' : FileSays look path ms') : ms = ms' := by
  obtain ⟨text, htext, hsaid⟩ := h
  obtain ⟨text', htext', hsaid'⟩ := h'
  rw [htext] at htext'
  cases htext'
  exact hsaid.unique hsaid'

def Mention.file? : Mention → Option String
  | item (.optionsFile path) => some path
  | _ => none

theorem Mention.file?_of_item? {m : Mention} (h : m.item? = none) : m.file? = none := by
  cases m with
  | item item => cases h
  | output name => rfl
  | switch s => rfl

/-- Every options file is replaced by what it says, in its place, and so on within that. -/
inductive Expands (look : Lookup) : List Mention → List Mention → Prop
  | nil : Expands look [] []
  | plain {m : Mention} {rest order : List Mention} : m.file? = none →
      Expands look rest order → Expands look (m :: rest) (m :: order)
  | file {path : String} {ms inner rest order : List Mention} : FileSays look path ms →
      Expands look ms inner → Expands look rest order →
      Expands look (.item (.optionsFile path) :: rest) (inner ++ order)

theorem Expands.unique {look : Lookup} {ms order order' : List Mention}
    (h : Expands look ms order) (h' : Expands look ms order') : order = order' := by
  induction h generalizing order' with
  | nil =>
      cases h'
      rfl
  | plain hplain _ ih =>
      cases h' with
      | plain _ hrest => rw [ih hrest]
      | file _ _ _ => cases hplain
  | file hsaid _ _ ihinner ihrest =>
      cases h' with
      | plain hplain _ => cases hplain
      | file hsaid' hinner hrest =>
          obtain rfl := hsaid.unique hsaid'
          rw [ihinner hinner, ihrest hrest]

/-- What an argument list says with every options file in its place. -/
def ReadingOrder (look : Lookup) (list : List String) (order : List Mention) : Prop :=
  ∃ ms, Says none (readable list) ms ∧ Expands look ms order

theorem ReadingOrder.unique {look : Lookup} {list : List String} {order order' : List Mention}
    (h : ReadingOrder look list order) (h' : ReadingOrder look list order') : order = order' := by
  obtain ⟨ms, hsaid, hexpands⟩ := h
  obtain ⟨ms', hsaid', hexpands'⟩ := h'
  obtain rfl := hsaid.unique hsaid'
  exact hexpands.unique hexpands'

end Disassembly.Arguments

namespace Disassembly.Settings

open Arguments

/-! ## The steps that mentions stand for -/

/-- The steps that mentions stand for. Output names and switches are left for the end of their
list; the steps of an options file end with its own. -/
inductive Stands (look : Lookup) : List Mention → List Step → Prop
  | nil : Stands look [] []
  | input {name : String} {rest : List Mention} {steps : List Step} :
      Stands look rest steps → Stands look (.item (.input name) :: rest) (.input name :: steps)
  | setting {option : Setting} {value : String} {rest : List Mention} {steps : List Step} :
      Stands look rest steps →
      Stands look (.item (.setting option value) :: rest) (.setting option value :: steps)
  | aside {m : Mention} {rest : List Mention} {steps : List Step} : m.item? = none →
      Stands look rest steps → Stands look (m :: rest) steps
  | file {path : String} {ms rest : List Mention} {inner steps : List Step}
      {output : Option String} {switches : List Switch} : FileSays look path ms →
      output.toList = ms.filterMap Mention.output? → Stands look ms inner →
      Stands look rest steps →
      Stands look (.item (.optionsFile path) :: rest)
        (.opened path :: inner ++ .finish output switches :: steps)

/-- The steps of an options file. -/
def FileStands (look : Lookup) (path : String) (steps : List Step) : Prop :=
  ∃ ms inner output switches, FileSays look path ms ∧
    output.toList = ms.filterMap Mention.output? ∧ Stands look ms inner ∧
    steps = .opened path :: inner ++ [.finish output switches]

namespace Script

theorem append_of_failure_eq_none {first second : Script} (h : (first ++ second).failure = none) :
    first.failure = none ∧ second.failure = none ∧
      (first ++ second).steps = first.steps ++ second.steps := by
  obtain ⟨steps, failure⟩ := first
  cases failure with
  | some error => cases h
  | none => exact ⟨rfl, h, rfl⟩

variable {look : Lookup} {parse : Parser}

theorem stands_ofItems {readFile : String → Script}
    (hfile : ∀ {path}, (readFile path).failure = none → FileStands look path (readFile path).steps)
    {ms : List Mention} (h : (ofItems readFile (ms.filterMap Mention.item?)).failure = none) :
    Stands look ms (ofItems readFile (ms.filterMap Mention.item?)).steps := by
  induction ms with
  | nil => exact .nil
  | cons m ms ih =>
      cases m with
      | output name => exact .aside rfl (ih h)
      | switch s => exact .aside rfl (ih h)
      | item item =>
          have hitem? : (Mention.item item).item? = some item := rfl
          rw [List.filterMap_cons_some hitem?, ofItems] at h ⊢
          obtain ⟨hitem, hrest, hsteps⟩ := append_of_failure_eq_none h
          rw [hsteps]
          cases item with
          | input name => exact .input (ih hrest)
          | setting option value => exact .setting (ih hrest)
          | optionsFile path =>
              obtain ⟨said, inner, output, switches, hsaid, houtput, hinner, hread⟩ :=
                hfile hitem
              rw [ofItem, hread, List.append_assoc]
              exact .file hsaid houtput hinner (ih hrest)

/-- An argument list that says `ms` stands for the steps of `ms`, and for a last one that sets its
own output name and switches. -/
theorem stands_ofArgumentsWith {readFile : String → Script}
    (hfile : ∀ {path}, (readFile path).failure = none → FileStands look path (readFile path).steps)
    {arguments : Arguments} {ms : List Mention} (hms : Keeps ms arguments)
    (h : (ofArgumentsWith readFile arguments).failure = none) :
    ∃ steps, Stands look ms steps ∧ (ofArgumentsWith readFile arguments).steps =
      steps ++ [.finish arguments.output arguments.switches] := by
  obtain ⟨hitems, _, hsteps⟩ := append_of_failure_eq_none h
  rw [hms.items] at hitems
  refine ⟨_, stands_ofItems hfile hitems, ?_⟩
  rw [ofArgumentsWith, hsteps, hms.items]

theorem loadArguments_eq_ok {path : String} {arguments : Arguments}
    (h : loadArguments look path parse = .ok arguments) :
    ∃ text, look.readText path = .ok text ∧ read (ofFileText text) parse = .ok arguments := by
  unfold loadArguments at h
  split at h
  · cases h
  · next text htext =>
      refine ⟨text, htext, ?_⟩
      split at h
      · next hread =>
          cases h
          exact hread
      · cases h
      · cases h
      · cases h

-- The limit on the nesting is what the induction is on; it is not part of what has been read.
theorem stands_ofFileWithin (hparse : parse.ReportsPositions) {room : Nat} {path : String}
    (h : (ofFileWithin parse look room path).failure = none) :
    FileStands look path (ofFileWithin parse look room path).steps := by
  induction room generalizing path with
  | zero => cases h
  | succ room ih =>
      rw [ofFileWithin] at h ⊢
      cases hload : loadArguments look path parse with
      | error error =>
          rw [hload] at h
          cases h
      | ok arguments =>
          rw [hload] at h
          obtain ⟨_, hargs, hsteps⟩ := append_of_failure_eq_none h
          obtain ⟨text, htext, hread⟩ := loadArguments_eq_ok hload
          obtain ⟨ms, hsaid, hms⟩ := Says.of_read hparse hread
          obtain ⟨inner, hinner, hend⟩ := stands_ofArgumentsWith @ih hms hargs
          refine ⟨ms, inner, arguments.output, arguments.switches, ⟨text, htext, hsaid⟩,
            hms.output, hinner, ?_⟩
          rw [hsteps, hend]
          rfl

end Script

/-- Arguments that are taken over without an error have performed the steps that they stand for. -/
theorem runs_of_apply {parse : Parser} (hparse : parse.ReportsPositions) {look : Lookup}
    {depth : Nat} {settings : Settings} {list : List String} {arguments : Arguments}
    (hread : read list parse = .ok arguments)
    (h : (settings.apply look depth arguments parse).error = none) :
    ∃ ms steps, Says none (readable list) ms ∧
      arguments.output.toList = ms.filterMap Mention.output? ∧ Stands look ms steps ∧
      Runs settings (steps ++ [.finish arguments.output arguments.switches])
        (settings.apply look depth arguments parse).settings := by
  obtain ⟨ms, hsaid, hms⟩ := Says.of_read hparse hread
  rw [← run_ofArguments look depth arguments settings parse] at h ⊢
  obtain ⟨hfailure, hruns⟩ := Script.runs_of_run h
  obtain ⟨steps, hstands, hsteps⟩ :=
    Script.stands_ofArgumentsWith (Script.stands_ofFileWithin hparse) hms hfailure
  rw [show (Script.ofArguments look depth arguments parse).steps = _ from hsteps] at hruns
  exact ⟨ms, steps, hsaid, hms.output, hstands, hruns⟩

/-! ## Items in reading order -/

theorem Stands.expands {look : Lookup} {ms : List Mention} {steps : List Step}
    (h : Stands look ms steps) : ∃ order, Expands look ms order ∧
      steps.filterMap Step.item? = order.filterMap Mention.item? := by
  induction h with
  | nil => exact ⟨[], .nil, rfl⟩
  | input _ ih =>
      obtain ⟨order, hexpands, hitems⟩ := ih
      exact ⟨_, .plain rfl hexpands, congrArg _ hitems⟩
  | setting _ ih =>
      obtain ⟨order, hexpands, hitems⟩ := ih
      exact ⟨_, .plain rfl hexpands, congrArg _ hitems⟩
  | @aside m rest steps haside _ ih =>
      obtain ⟨order, hexpands, hitems⟩ := ih
      refine ⟨_, .plain (Mention.file?_of_item? haside) hexpands, ?_⟩
      rw [List.filterMap_cons_none haside, hitems]
  | file hsaid _ _ _ ihinner ihrest =>
      obtain ⟨inner, hinner, hitems⟩ := ihinner
      obtain ⟨order, hexpands, hitems'⟩ := ihrest
      refine ⟨_, .file hsaid hinner hexpands, ?_⟩
      rw [List.filterMap_append, List.filterMap_append, List.filterMap_cons_none rfl,
        List.filterMap_cons_none rfl, hitems, hitems']

end Disassembly.Settings
