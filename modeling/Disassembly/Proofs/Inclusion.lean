import Mathlib.Logic.Relation
import Disassembly.Proofs.ReadingOrder

/-!
# Options files that name options files

An options file may name others, which may name it in turn. Only the depth stands against that: it
grows where a file is named, and is looked at where a file is opened.

* `Ends` — taking over files and argument lists, with no bound but that one. There is always exactly
  one end, the one that is computed (`ends_iff`), although the computation counts the levels that
  are left;
* `Includes` — which file names which, as a relation between paths. A file that can be read to the
  end has only short chains below it (`length_lt_of_isChain`), so it lies above no cycle
  (`not_onCycle`);
* the levels that are left over do not show in what has been read (`ofFileWithin_le`).
-/

namespace Disassembly.Arguments

/-- One options file names another. -/
def Includes (look : Lookup) (path path' : String) : Prop :=
  ∃ ms, FileSays look path ms ∧ .item (.optionsFile path') ∈ ms

/-- The files below an options file lead back to it, perhaps under another name. -/
def OnCycle (look : Lookup) (path : String) : Prop :=
  ∃ path', Relation.TransGen (Includes look) path path' ∧ look path' = look path

theorem Includes.of_look_eq {look : Lookup} {path path' other : String}
    (h : Includes look path other) (heq : look path' = look path) : Includes look path' other := by
  obtain ⟨ms, ⟨text, htext, hsaid⟩, hmem⟩ := h
  refine ⟨ms, ⟨text, ?_, hsaid⟩, hmem⟩
  rw [← htext]
  simp only [Lookup.readText, Lookup.read, heq]

/-- Where a file comes back under another name, that name comes back as it is. -/
theorem OnCycle.transGen {look : Lookup} {path : String} (h : OnCycle look path) :
    ∃ path', Relation.TransGen (Includes look) path path' ∧
      Relation.TransGen (Includes look) path' path' := by
  obtain ⟨path', hbelow, heq⟩ := h
  obtain ⟨next, hnext, hrest⟩ := Relation.TransGen.head'_iff.mp hbelow
  exact ⟨path', hbelow, .head' (hnext.of_look_eq heq) hrest⟩

end Disassembly.Arguments

namespace Disassembly.Settings

open Arguments

/-! ## Every inclusion ends -/

/-- What can be taken over. -/
inductive Task where
  | file (path : String)
  | list (arguments : Arguments)
  | item (item : Item)
  | items (items : List Item)

/-- How a task ends at a depth of nesting. A file is opened only if the depth allows it, and then
its arguments have the same depth; a file that they name lies one deeper. -/
inductive Ends (look : Lookup) : Nat → Task → Settings → Outcome → Prop
  | tooDeep {depth : Nat} {path : String} {s : Settings} : maxNesting < depth →
      Ends look depth (.file path) s (s.fail .nesting)
  | unusable {depth : Nat} {path : String} {s : Settings} {error : Error} : depth ≤ maxNesting →
      loadArguments look path = .error error → Ends look depth (.file path) s (s.fail error)
  | file {depth : Nat} {path : String} {s : Settings} {arguments : Arguments} {o : Outcome} :
      depth ≤ maxNesting → loadArguments look path = .ok arguments →
      Ends look depth (.list arguments) s o →
      Ends look depth (.file path) s ((s.perform (.opened path)).andThen fun _ => o)
  | list {depth : Nat} {s : Settings} {arguments : Arguments} {o : Outcome} :
      Ends look depth (.items arguments.items) s o →
      Ends look depth (.list arguments) s
        (o.andThen (·.perform (.finish arguments.output arguments.switches)))
  | input {depth : Nat} {name : String} {s : Settings} :
      Ends look depth (.item (.input name)) s (s.perform (.input name))
  | setting {depth : Nat} {option : Setting} {value : String} {s : Settings} :
      Ends look depth (.item (.setting option value)) s (s.perform (.setting option value))
  | included {depth : Nat} {path : String} {s : Settings} {o : Outcome} :
      Ends look (depth + 1) (.file path) s o → Ends look depth (.item (.optionsFile path)) s o
  | nil {depth : Nat} {s : Settings} : Ends look depth (.items []) s s.done
  | stop {depth : Nat} {item : Item} {items : List Item} {s : Settings} {o : Outcome} :
      Ends look depth (.item item) s o → o.error ≠ none →
      Ends look depth (.items (item :: items)) s o
  | next {depth : Nat} {item : Item} {items : List Item} {s : Settings} {o o' : Outcome} :
      Ends look depth (.item item) s o → o.error = none →
      Ends look depth (.items items) o.settings o' →
      Ends look depth (.items (item :: items)) s (o.andThen fun _ => o')

/-- What is computed for a task. -/
def Task.outcome (look : Lookup) (depth : Nat) : Task → Settings → Outcome
  | .file path, s => s.applyFile look depth path
  | .list arguments, s => s.apply look depth arguments
  | .item i, s => applyItems (fun path s => s.applyFile look (depth + 1) path) [i] s
  | .items is, s => applyItems (fun path s => s.applyFile look (depth + 1) path) is s

theorem Outcome.andThen_of_error {o : Outcome} (h : o.error ≠ none) (next : Settings → Outcome) :
    o.andThen next = o := by
  obtain ⟨settings, events, error⟩ := o
  cases error with
  | none => exact absurd rfl h
  | some error => rfl

theorem Outcome.andThen_const {o : Outcome} (h : o.error = none) (next : Settings → Outcome) :
    (o.andThen fun _ => next o.settings) = o.andThen next := by
  obtain ⟨settings, events, error⟩ := o
  cases h
  rfl

theorem applyItems_cons (readFile : String → Settings → Outcome) (item : Item) (items : List Item)
    (s : Settings) : applyItems readFile (item :: items) s =
      (applyItems readFile [item] s).andThen (applyItems readFile items) := by
  cases item <;> simp only [applyItems, Outcome.andThen_done]

/-- The depth alone decides whether a file is opened. -/
theorem applyFile_of_le {look : Lookup} {depth : Nat} {path : String} {s : Settings}
    (h : depth ≤ maxNesting) : s.applyFile look depth path =
      match loadArguments look path with
      | .error error => s.fail error
      | .ok arguments => (s.perform (.opened path)).andThen (·.apply look depth arguments) := by
  have hroom : maxNesting + 1 - depth = (maxNesting + 1 - (depth + 1)) + 1 := by omega
  rw [applyFile, hroom, applyFileWithin]
  rfl

theorem applyFile_of_lt {look : Lookup} {depth : Nat} {path : String} {s : Settings}
    (h : maxNesting < depth) : s.applyFile look depth path = s.fail .nesting := by
  have hroom : maxNesting + 1 - depth = 0 := by omega
  rw [applyFile, hroom, applyFileWithin]

theorem Ends.eq_outcome {look : Lookup} {depth : Nat} {task : Task} {s : Settings} {o : Outcome}
    (h : Ends look depth task s o) : o = task.outcome look depth s := by
  induction h with
  | tooDeep hdeep => exact (applyFile_of_lt hdeep).symm
  | unusable hle hload =>
      simp only [Task.outcome, applyFile_of_le hle, hload]
  | file hle hload _ ih =>
      simp only [Task.outcome, applyFile_of_le hle, hload, ih]
      rfl
  | list _ ih => rw [ih]; rfl
  | input => exact (Outcome.andThen_done _).symm
  | setting => exact (Outcome.andThen_done _).symm
  | included _ ih =>
      rw [ih]
      exact (Outcome.andThen_done _).symm
  | nil => rfl
  | stop _ herror ih =>
      simp only [Task.outcome] at ih ⊢
      rw [applyItems_cons, ← ih, Outcome.andThen_of_error herror]
  | next _ hnone _ ih ih' =>
      simp only [Task.outcome] at ih ih' ⊢
      rw [applyItems_cons, ← ih, ih', Outcome.andThen_const hnone]

section Existence

variable {look : Lookup} {depth : Nat}

theorem ends_item (hfile : ∀ path s, ∃ o, Ends look (depth + 1) (.file path) s o) (item : Item)
    (s : Settings) : ∃ o, Ends look depth (.item item) s o := by
  cases item with
  | input name => exact ⟨_, .input⟩
  | setting option value => exact ⟨_, .setting⟩
  | optionsFile path =>
      obtain ⟨o, ho⟩ := hfile path s
      exact ⟨o, .included ho⟩

theorem ends_items (hfile : ∀ path s, ∃ o, Ends look (depth + 1) (.file path) s o)
    (items : List Item) (s : Settings) : ∃ o, Ends look depth (.items items) s o := by
  induction items generalizing s with
  | nil => exact ⟨_, .nil⟩
  | cons item items ih =>
      obtain ⟨o, ho⟩ := ends_item hfile item s
      by_cases hnone : o.error = none
      · obtain ⟨o', ho'⟩ := ih o.settings
        exact ⟨_, .next ho hnone ho'⟩
      · exact ⟨o, .stop ho hnone⟩

-- The induction is on the levels that are left; the files themselves are no measure, since a file
-- may name itself.
theorem ends_file (path : String) (s : Settings) : ∃ o, Ends look depth (.file path) s o := by
  generalize hroom : maxNesting + 1 - depth = room
  induction room generalizing depth path s with
  | zero => exact ⟨_, .tooDeep (by omega)⟩
  | succ room ih =>
      have hle : depth ≤ maxNesting := by omega
      cases hload : loadArguments look path with
      | error error => exact ⟨_, .unusable hle hload⟩
      | ok arguments =>
          have hfile : ∀ path s, ∃ o, Ends look (depth + 1) (.file path) s o := by
            intro path s
            exact ih path s (by omega)
          obtain ⟨o, ho⟩ := ends_items hfile arguments.items s
          exact ⟨_, .file hle hload (.list ho)⟩

end Existence

/-- A task has one end, which is the computed one. -/
theorem ends_iff (look : Lookup) (depth : Nat) (task : Task) (s : Settings) (o : Outcome) :
    Ends look depth task s o ↔ o = task.outcome look depth s := by
  have hends : ∃ o, Ends look depth task s o := by
    cases task with
    | file path => exact ends_file path s
    | item item => exact ends_item ends_file item s
    | items items => exact ends_items ends_file items s
    | list arguments =>
        obtain ⟨o, ho⟩ := ends_items ends_file arguments.items s
        exact ⟨_, .list ho⟩
  constructor
  · exact Ends.eq_outcome
  · rintro rfl
    obtain ⟨o, ho⟩ := hends
    rw [← ho.eq_outcome]
    exact ho

/-! ## The files below a file -/

namespace Script

variable {look : Lookup} {room : Nat} {path : String}

theorem failure_of_mem_ofItems {readFile : String → Script} {items : List Item}
    (h : (ofItems readFile items).failure = none) (hmem : .optionsFile path ∈ items) :
    (readFile path).failure = none := by
  induction items with
  | nil => cases hmem
  | cons item items ih =>
      obtain ⟨hitem, hrest, _⟩ := append_of_failure_eq_none h
      rcases List.mem_cons.mp hmem with rfl | hmem
      · exact hitem
      · exact ih hrest hmem

/-- The parts of a file that can be read to the end. -/
theorem ofFileWithin_parts (h : (ofFileWithin .standard look room path).failure = none) :
    ∃ room' arguments, room = room' + 1 ∧ loadArguments look path = .ok arguments ∧
      (ofArgumentsWith (ofFileWithin .standard look room') arguments).failure = none := by
  cases room with
  | zero => cases h
  | succ room =>
      rw [ofFileWithin] at h
      cases hload : loadArguments look path with
      | error error =>
          rw [hload] at h
          cases h
      | ok arguments =>
          rw [hload] at h
          exact ⟨room, arguments, rfl, rfl, (append_of_failure_eq_none h).2.1⟩

/-- A file names what is among the items that are read from it. -/
theorem includes_iff_of_load {path' : String} {arguments : Arguments}
    (hload : loadArguments look path = .ok arguments) :
    Includes look path path' ↔ .optionsFile path' ∈ arguments.items := by
  obtain ⟨text, htext, hread⟩ := loadArguments_eq_ok hload
  obtain ⟨ms, hsaid, hms⟩ := Says.of_read Parser.standard_reportsPositions hread
  rw [hms.items]
  constructor
  · rintro ⟨ms', hsaid', hmem⟩
    obtain rfl := hsaid'.unique ⟨text, htext, hsaid⟩
    exact List.mem_filterMap.mpr ⟨_, hmem, rfl⟩
  · intro hmem
    obtain ⟨m, hm, hitem⟩ := List.mem_filterMap.mp hmem
    obtain rfl : m = .item (.optionsFile path') := by
      cases m <;> cases hitem
      rfl
    exact ⟨ms, ⟨text, htext, hsaid⟩, hm⟩

/-- A file that is read to the end has a level left for every file that it names. -/
theorem failure_of_includes {path' : String}
    (h : (ofFileWithin .standard look room path).failure = none)
    (hincludes : Includes look path path') :
    ∃ room', room = room' + 1 ∧ (ofFileWithin .standard look room' path').failure = none := by
  obtain ⟨room, arguments, rfl, hload, hlist⟩ := ofFileWithin_parts h
  have hmem := (includes_iff_of_load hload).mp hincludes
  exact ⟨room, rfl, failure_of_mem_ofItems (append_of_failure_eq_none hlist).1 hmem⟩

theorem length_lt_of_isChain {paths : List String}
    (h : (ofFileWithin .standard look room path).failure = none)
    (hchain : (path :: paths).IsChain (Includes look)) : paths.length < room := by
  induction paths generalizing room path with
  | nil =>
      obtain ⟨room, _, rfl, _⟩ := ofFileWithin_parts h
      exact Nat.succ_pos room
  | cons next paths ih =>
      obtain ⟨hincludes, hrest⟩ := List.isChain_cons_cons.mp hchain
      obtain ⟨room, rfl, hnext⟩ := failure_of_includes h hincludes
      exact Nat.succ_lt_succ (ih hnext hrest)

theorem failure_of_transGen {path' : String}
    (h : (ofFileWithin .standard look room path).failure = none)
    (hbelow : Relation.TransGen (Includes look) path path') :
    ∃ room' < room, (ofFileWithin .standard look room' path').failure = none := by
  induction hbelow with
  | single hincludes =>
      obtain ⟨room', rfl, hnext⟩ := failure_of_includes h hincludes
      exact ⟨room', Nat.lt_succ_self room', hnext⟩
  | tail _ hincludes ih =>
      obtain ⟨room', hlt, hread⟩ := ih
      obtain ⟨room'', rfl, hnext⟩ := failure_of_includes hread hincludes
      exact ⟨room'', by omega, hnext⟩

theorem not_transGen_self (h : (ofFileWithin .standard look room path).failure = none) :
    ¬ Relation.TransGen (Includes look) path path := by
  intro hcycle
  induction room using Nat.strongRecOn with
  | _ room ih =>
      obtain ⟨room', hlt, hagain⟩ := failure_of_transGen h hcycle
      exact ih room' hlt hagain

theorem not_onCycle {below : String} (h : (ofFileWithin .standard look room path).failure = none)
    (hbelow : Relation.ReflTransGen (Includes look) path below) : ¬ OnCycle look below := by
  intro hcycle
  obtain ⟨path', hleads, hself⟩ := hcycle.transGen
  obtain ⟨room', _, hread⟩ := failure_of_transGen h (hleads.trans_right hbelow)
  exact not_transGen_self hread hself

/-! ## Levels that are left over -/

theorem ofItems_congr {readFile readFile' : String → Script} {items : List Item}
    (h : (ofItems readFile items).failure = none)
    (hread : ∀ path, (readFile path).failure = none → readFile' path = readFile path) :
    ofItems readFile' items = ofItems readFile items := by
  induction items with
  | nil => rfl
  | cons item items ih =>
      obtain ⟨hitem, hrest, _⟩ := append_of_failure_eq_none h
      rw [ofItems, ofItems, ih hrest]
      cases item with
      | input name => rfl
      | setting option value => rfl
      | optionsFile path => rw [ofItem, ofItem, hread path hitem]

theorem ofFileWithin_le {room' : Nat} (h : (ofFileWithin .standard look room path).failure = none)
    (hle : room ≤ room') :
    ofFileWithin .standard look room' path = ofFileWithin .standard look room path := by
  induction room generalizing room' path with
  | zero => cases h
  | succ room ih =>
      obtain ⟨room', rfl⟩ := Nat.exists_eq_add_of_lt (Nat.lt_of_succ_le hle)
      obtain ⟨_, arguments, hroom, hload, hlist⟩ := ofFileWithin_parts h
      cases hroom
      have hitems := (append_of_failure_eq_none hlist).1
      have hsame := ofItems_congr hitems fun path hread => ih hread (Nat.le_add_right room room')
      simp only [ofFileWithin, hload, ofArgumentsWith, hsame]

end Script

/-- Options files may name each other in any way. Taking over an argument list or a file has exactly
one end. If it is a file and there is no error, then no chain of inclusions from it goes below the
deepest level, no file below it lies on a cycle, and a start at a smaller depth comes to the same
end. -/
theorem inclusion_ends (look : Lookup) (depth : Nat) :
    (∀ (arguments : Arguments) (s : Settings) (o : Outcome),
      Ends look depth (.list arguments) s o ↔ o = s.apply look depth arguments) ∧
    (∀ (path : String) (s : Settings) (o : Outcome),
      Ends look depth (.file path) s o ↔ o = s.applyFile look depth path) ∧
    ∀ (path : String) (s : Settings), (s.applyFile look depth path).error = none →
      (∀ paths, (path :: paths).IsChain (Includes look) → depth + paths.length ≤ maxNesting) ∧
      (∀ below, Relation.ReflTransGen (Includes look) path below → ¬ OnCycle look below) ∧
      ∀ depth' ≤ depth, s.applyFile look depth' path = s.applyFile look depth path := by
  refine ⟨fun arguments => ends_iff look depth (.list arguments),
    fun path => ends_iff look depth (.file path), ?_⟩
  intro path s hnone
  rw [← run_ofFile] at hnone
  obtain ⟨hread, _⟩ := Script.runs_of_run hnone
  refine ⟨?_, ?_, ?_⟩
  · intro paths hchain
    have hlt := Script.length_lt_of_isChain hread hchain
    omega
  · exact fun below hbelow => Script.not_onCycle hread hbelow
  · intro depth' hle
    have hsame := Script.ofFileWithin_le hread (Nat.sub_le_sub_left hle (maxNesting + 1))
    rw [← run_ofFile, ← run_ofFile, Script.ofFile, Script.ofFile, hsame]

/-- Two files name a third one; from the deepest level but two, it is opened on the deepest. From
one level further down it is not, and a file that names itself is taken over on no level. -/
theorem inclusion_ends_deepest :
    let look : Lookup := fun path =>
      if path = "outer" then .ok (.file "-x middle\n-x inner".toUTF8.data)
      else if path = "middle" then .ok (.file "-s 0=first\n-x inner".toUTF8.data)
      else if path = "inner" then .ok (.file "-o name\n-d 4-6".toUTF8.data)
      else if path = "loop" then .ok (.file "-x loop".toUTF8.data)
      else .error .notFound
    let s : Settings := {}
    ["outer", "middle", "inner"].IsChain (Includes look) ∧
      (s.applyFile look 6 "outer").error = none ∧ 6 + 2 ≤ maxNesting ∧ ¬ OnCycle look "middle" ∧
      s.applyFile look 1 "outer" = s.applyFile look 6 "outer" ∧
      (s.applyFile look 7 "outer").error = some .nesting ∧
      Includes look "loop" "loop" ∧ (s.applyFile look 0 "loop").error = some .nesting := by
  intro look s
  have houter : loadArguments look "outer" = .ok
      { given := { optionsFile := { positions := [2, 4], texts := ["middle", "inner"] } } } := by
    decide +kernel
  have hmiddle : loadArguments look "middle" = .ok
      { given :=
          { symbol := { positions := [2], texts := ["0=first"] }
            optionsFile := { positions := [4], texts := ["inner"] } } } := by
    decide +kernel
  have hloop : loadArguments look "loop" = .ok
      { given := { optionsFile := { positions := [2], texts := ["loop"] } } } := by
    decide +kernel
  have hfirst : Includes look "outer" "middle" :=
    (Script.includes_iff_of_load houter).mpr (by decide +kernel)
  have hsecond : Includes look "middle" "inner" :=
    (Script.includes_iff_of_load hmiddle).mpr (by decide +kernel)
  have hchain : ["outer", "middle", "inner"].IsChain (Includes look) :=
    .cons_cons hfirst (.cons_cons hsecond (.singleton _))
  have hnone : (s.applyFile look 6 "outer").error = none := by decide +kernel
  obtain ⟨_, _, hfile⟩ := inclusion_ends look 6
  obtain ⟨hlength, hcycle, hsame⟩ := hfile "outer" s hnone
  exact ⟨hchain, hnone, hlength _ hchain, hcycle _ (.single hfirst), hsame 1 (by decide),
    by decide +kernel, (Script.includes_iff_of_load hloop).mpr (by decide +kernel),
    by decide +kernel⟩

end Disassembly.Settings
