import Disassembly.Proofs.ReadingOrder

/-!
# Which output name is kept

An argument list sets its own output name when everything else in it has been taken over, wherever
the name stands. So the names are not set in reading order. `FileOutputs` gives them in the order in
which they are set, each options file after those it names, and the two orders are compared:

* a name is given in both or in neither (`Expands.outputs_eq_nil_iff`);
* the last one is the same if every list gives its own name after those of the files it reads
  (`Expands.getLast?_outputs`);
* with a name before such a file, the last one in reading order can be lost.
-/

namespace Disassembly.Arguments

variable {look : Lookup}

/-- The output names that the options files among the mentions set, in the order in which they are
set: first those of the files that a file names, then its own. -/
inductive FileOutputs (look : Lookup) : List Mention → List String → Prop
  | nil : FileOutputs look [] []
  | plain {m : Mention} {rest : List Mention} {names : List String} : m.file? = none →
      FileOutputs look rest names → FileOutputs look (m :: rest) names
  | file {path : String} {ms rest : List Mention} {inner names : List String} :
      FileSays look path ms → FileOutputs look ms inner → FileOutputs look rest names →
      FileOutputs look (.item (.optionsFile path) :: rest)
        (inner ++ ms.filterMap Mention.output? ++ names)

/-- No list gives its own output name before an options file that gives one. -/
inductive OutputLast (look : Lookup) : List Mention → Prop
  | nil : OutputLast look []
  | output {name : String} {rest : List Mention} :
      (∀ order, Expands look rest order → order.filterMap Mention.output? = []) →
      OutputLast look (.output name :: rest)
  | plain {m : Mention} {rest : List Mention} : m.file? = none → m.output? = none →
      OutputLast look rest → OutputLast look (m :: rest)
  | file {path : String} {rest : List Mention} :
      (∀ ms, FileSays look path ms → OutputLast look ms) → OutputLast look rest →
      OutputLast look (.item (.optionsFile path) :: rest)

/-- An option in an argument of its own, and its value in the next one. -/
theorem Says.separate (option : Valued) {a value : String} {c : Char} {rest : List String}
    {ms : List Mention} (ha : a.toList = ['-', c]) (hoption : Valued.ofLetter? c = some option)
    (hvalue : isValue value.toList = true) (hrest : Says none rest ms) :
    Says none (a :: value :: rest) (.ofValue option value :: ms) := by
  refine .letters ha ?_ (.waiting hoption) (.value hvalue hrest)
  rintro rfl
  cases hoption

theorem FileSays.of_arguments {path : String} (text : String) (list : List String)
    {ms : List Mention} (htext : look.readText path = .ok text)
    (hlist : readable (ofFileText text) = list) (hsaid : Says none list ms) :
    FileSays look path ms := by
  subst hlist
  exact ⟨text, htext, hsaid⟩

theorem Expands.outputs_eq_nil_iff {ms order : List Mention} {names : List String}
    (h : Expands look ms order) (hnames : FileOutputs look ms names) :
    names ++ ms.filterMap Mention.output? = [] ↔ order.filterMap Mention.output? = [] := by
  induction h generalizing names with
  | nil =>
      cases hnames
      rfl
  | @plain m rest order hplain _ ih =>
      cases hnames with
      | file _ _ _ => cases hplain
      | plain _ hrest =>
          have hiff := ih hrest
          rw [filterMap_cons_toList, filterMap_cons_toList]
          simp only [List.append_eq_nil_iff] at hiff ⊢
          rw [← hiff]
          exact and_left_comm
  | @file path ms inner rest order hsaid _ _ ihinner ihrest =>
      cases hnames with
      | plain hplain _ => cases hplain
      | file hsaid' hinner hrest =>
          obtain rfl := hsaid.unique hsaid'
          rw [List.filterMap_cons_none rfl, List.filterMap_append, List.append_assoc,
            List.append_eq_nil_iff, ihinner hinner, ihrest hrest, List.append_eq_nil_iff]

/-- The name set last is the one read last, if no list gives its own too early. -/
theorem Expands.getLast?_outputs {ms order : List Mention} {names : List String}
    (h : Expands look ms order) (hnames : FileOutputs look ms names) (hlast : OutputLast look ms) :
    (names ++ ms.filterMap Mention.output?).getLast? =
      (order.filterMap Mention.output?).getLast? := by
  induction h generalizing names with
  | nil =>
      cases hnames
      rfl
  | @plain m rest order hplain hrest ih =>
      cases hnames with
      | file _ _ _ => cases hplain
      | plain _ hnames =>
          cases hlast with
          | file _ _ => cases hplain
          | plain _ hsilent hlast =>
              rw [List.filterMap_cons_none hsilent, List.filterMap_cons_none hsilent]
              exact ih hnames hlast
          | output hsilent =>
              -- nothing after the name gives another, so nothing is set before it either
              have horder := hsilent order hrest
              have hset := (hrest.outputs_eq_nil_iff hnames).mpr horder
              rw [List.append_eq_nil_iff] at hset
              rw [filterMap_cons_toList, filterMap_cons_toList, horder, hset.1, hset.2]
              rfl
  | @file path ms inner rest order hsaid _ _ ihinner ihrest =>
      cases hnames with
      | plain hplain _ => cases hplain
      | file hsaid' hinner hrest =>
          obtain rfl := hsaid.unique hsaid'
          cases hlast with
          | plain hplain _ _ => cases hplain
          | file hfile hlast =>
              rw [List.filterMap_cons_none rfl, List.filterMap_append, List.append_assoc,
                List.getLast?_append, ihinner hinner (hfile _ hsaid), ihrest hrest hlast,
                List.getLast?_append]

end Disassembly.Arguments

namespace Disassembly.Settings

open Arguments

theorem Stands.fileOutputs {look : Lookup} {ms : List Mention} {steps : List Step}
    (h : Stands look ms steps) : FileOutputs look ms (steps.filterMap Step.output?) := by
  induction h with
  | nil => exact .nil
  | input _ ih => exact .plain rfl ih
  | setting _ ih => exact .plain rfl ih
  | @aside m rest steps haside _ ih => exact .plain (Mention.file?_of_item? haside) ih
  | @file path ms rest inner steps output switches hsaid houtput _ _ ihinner ihrest =>
      have hsteps : (Step.opened path :: inner ++ .finish output switches :: steps).filterMap
          Step.output? = inner.filterMap Step.output? ++ ms.filterMap Mention.output? ++
            steps.filterMap Step.output? := by
        rw [List.filterMap_append, List.filterMap_cons_none rfl, filterMap_cons_toList,
          Step.output?, houtput, List.append_assoc]
      rw [hsteps]
      exact .file hsaid ihinner ihrest

/-- The output name after arguments have been taken over is the one set last, where each list sets
its own after its options files have set theirs. It is the old one if no list gives a name, and
the last one in reading order if no list gives its own before an options file that gives one. -/
theorem output_set_after_options_files {look : Lookup} {depth : Nat} {settings : Settings}
    {list : List String} {arguments : Arguments} (hread : read list = .ok arguments)
    (happly : (settings.apply look depth arguments).error = none) :
    ∃ ms names order, Says none (readable list) ms ∧ FileOutputs look ms names ∧
      ReadingOrder look list order ∧
      (settings.apply look depth arguments).settings.output =
        ((names ++ ms.filterMap Mention.output?).getLast?).or settings.output ∧
      (order.filterMap Mention.output? = [] →
        (settings.apply look depth arguments).settings.output = settings.output) ∧
      (OutputLast look ms → (settings.apply look depth arguments).settings.output =
        ((order.filterMap Mention.output?).getLast?).or settings.output) := by
  obtain ⟨ms, steps, hsaid, houtput, hstands, hruns⟩ :=
    runs_of_apply Parser.standard_reportsPositions hread happly
  obtain ⟨order, hexpands, _⟩ := hstands.expands
  have hnames := hstands.fileOutputs
  have hset : (settings.apply look depth arguments).settings.output =
      ((steps.filterMap Step.output? ++ ms.filterMap Mention.output?).getLast?).or
        settings.output := by
    rw [hruns.output, List.filterMap_append, filterMap_cons_toList, Step.output?, houtput,
      List.filterMap_nil, List.append_nil]
  refine ⟨ms, _, order, hsaid, hnames, ⟨ms, hsaid, hexpands⟩, hset, ?_, ?_⟩
  · intro hnone
    rw [hset, (hexpands.outputs_eq_nil_iff hnames).mpr hnone]
    rfl
  · intro hlast
    rw [hset, hexpands.getLast?_outputs hnames hlast]

/-- A file sets a name, and the list that reads it sets its own after that. -/
theorem output_set_after_options_files_twice :
    let look : Lookup := fun path =>
      if path = "f.txt" then .ok (.file "-o inner.asm\n".toUTF8.data) else .error .notFound
    let list := ["-x", "f.txt", "-o", "outer.asm"]
    let arguments : Arguments :=
      { given := { optionsFile := { positions := [2], texts := ["f.txt"] } }
        output := some "outer.asm" }
    read list = .ok arguments ∧ (({} : Settings).apply look 0 arguments).error = none ∧
      OutputLast look [.item (.optionsFile "f.txt"), .output "outer.asm"] ∧
      ∃ order, ReadingOrder look list order ∧
        (({} : Settings).apply look 0 arguments).settings.output =
          ((order.filterMap Mention.output?).getLast?).or none := by
  intro look list arguments
  have hread : read list = .ok arguments := by decide +kernel
  have happly : (({} : Settings).apply look 0 arguments).error = none := by decide +kernel
  have hfile : FileSays look "f.txt" [.output "inner.asm"] :=
    .of_arguments "-o inner.asm\n" ["-o", "inner.asm"] (by decide +kernel) (by decide +kernel)
      (.separate .output rfl rfl rfl .nil)
  have hlist : Says none (readable list) [.item (.optionsFile "f.txt"), .output "outer.asm"] :=
    .separate .optionsFile rfl rfl rfl (.separate .output rfl rfl rfl .nil)
  have hsingle : ∀ name, OutputLast look [.output name] := by
    intro name
    refine .output ?_
    intro order horder
    cases horder
    rfl
  have hlast : OutputLast look [.item (.optionsFile "f.txt"), .output "outer.asm"] := by
    refine .file ?_ (hsingle _)
    intro ms hms
    rw [← hfile.unique hms]
    exact hsingle _
  obtain ⟨ms, _, order, hsaid, _, horder, _, _, houtput⟩ :=
    output_set_after_options_files hread happly
  refine ⟨hread, happly, hlast, order, horder, houtput ?_⟩
  rw [hsaid.unique hlist]
  exact hlast

/-- A name before an options file that gives another is set after it, and stays. -/
theorem output_before_options_file :
    let look : Lookup := fun path =>
      if path = "f.txt" then .ok (.file "-o inner.asm\n".toUTF8.data) else .error .notFound
    let list := ["-o", "outer.asm", "-x", "f.txt"]
    let arguments : Arguments :=
      { given := { optionsFile := { positions := [4], texts := ["f.txt"] } }
        output := some "outer.asm" }
    read list = .ok arguments ∧ (({} : Settings).apply look 0 arguments).error = none ∧
      ReadingOrder look list [.output "outer.asm", .output "inner.asm"] ∧
      (({} : Settings).apply look 0 arguments).settings.output = some "outer.asm" := by
  intro look list arguments
  have hfile : FileSays look "f.txt" [.output "inner.asm"] :=
    .of_arguments "-o inner.asm\n" ["-o", "inner.asm"] (by decide +kernel) (by decide +kernel)
      (.separate .output rfl rfl rfl .nil)
  have hlist : Says none (readable list) [.output "outer.asm", .item (.optionsFile "f.txt")] :=
    .separate .output rfl rfl rfl (.separate .optionsFile rfl rfl rfl .nil)
  have horder : Expands look [.output "outer.asm", .item (.optionsFile "f.txt")]
      [.output "outer.asm", .output "inner.asm"] :=
    .plain rfl (.file hfile (.plain rfl .nil) .nil)
  exact ⟨by decide +kernel, by decide +kernel, ⟨_, hlist, horder⟩, by decide +kernel⟩

end Disassembly.Settings
