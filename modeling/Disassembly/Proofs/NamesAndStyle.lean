import Disassembly.Proofs.OutlineParts

/-!
# Names and style decide the text only

Two jobs over the same memory and layout may differ in the declared names and in all output flags.
Their sections are the same up to the text of the records (`Job.sections_bare`), and so are the code
and the declared functions that their outlines are made from (`Job.codeRecords_bare`,
`Job.vectorEntries_congr`). Hence nothing that can be seen of the two listings but text and names
tells them apart, except that each outline labels the addresses that have declared names.
-/

namespace Disassembly

/-- Two sections say the same about their requests: the region covered, the file region behind it,
an odd start, and how decoding ended. -/
structure Section.SameCourse (s s' : Section) : Prop where
  region : s.region = s'.region
  fileOffset : s.fileOffset? = s'.fileOffset?
  bias : s.bias = s'.bias
  oddStart : s.oddStart? = s'.oddStart?
  ending : s.ending = s'.ending

theorem Section.sameCourse_of_bare {s s' : Section} (h : s.bare = s'.bare) : s.SameCourse s' := by
  refine ⟨?_, ?_, ?_, ?_, ?_⟩
  · rw [← region_bare, h, region_bare]
  · rw [← fileOffset?_bare, h, fileOffset?_bare]
  · rw [← bias_bare, h, bias_bare]
  · rw [← oddStart?_bare, h, oddStart?_bare]
  · rw [← ending_bare, h, ending_bare]

namespace Job

variable {job job' : Job}

/-- The same requests are decoded to the same bare sections. -/
theorem sections_bare (hmemory : job.memory = job'.memory) (hlayout : job.layout = job'.layout) :
    job.sections.map Section.bare = job'.sections.map Section.bare := by
  have hfind : job.decoder.find = job'.decoder.find := by
    unfold decoder Decoder.standard
    rfl
  unfold sections
  rw [hmemory, hlayout, List.map_map, List.map_map]
  refine List.map_congr_left ?_
  intro request _
  exact Section.decode_bare hfind job'.memory job'.layout request

theorem codeRecords_bare (h : job.sections.map Section.bare = job'.sections.map Section.bare) :
    job.codeRecords.map Record.bare = job'.codeRecords.map Record.bare := by
  have hread : ∀ job : Job, job.codeRecords.map Record.bare =
      ((job.sections.map Section.bare).filter (·.content.isCode)).flatMap Section.records := by
    intro job
    rw [codeRecords, List.filter_map, List.flatMap_map, List.map_flatMap]
    simp only [Function.comp_def, Section.content_bare, Section.records_bare]
  rw [hread, hread, h]

theorem vectorEntries_congr (h : job.sections.map Section.bare = job'.sections.map Section.bare) :
    job.vectorEntries = job'.vectorEntries := by
  have hread : ∀ job : Job, job.vectorEntries =
      (job.sections.map Section.bare).flatMap Section.vectorEntries := by
    intro job
    rw [vectorEntries, List.flatMap_map]
    simp only [Section.vectorEntries_bare]
  rw [hread, hread, h]

end Job

/-- **Names and style.** Whatever names are declared and whatever flags are set: two jobs over the
same memory and layout have equally many sections, and these take the same course one by one. With
two outlines, the tables of code agree in everything but the text of the records, returns and spans
of functions are the same, and so are the labels, apart from the declared names themselves. -/
theorem names_and_style_decide_text_only (memory : Memory) (layout : Layout)
    (symbols symbols' : Symbols) (flags flags' : OutputFlags) :
    let job : Job := { memory, layout, symbols, flags }
    let job' : Job := { memory, layout, symbols := symbols', flags := flags' }
    List.Forall₂ Section.SameCourse job.run.sections job'.run.sections ∧
      (flags.outline = true → flags'.outline = true → ∃ outline outline',
        job.run.outline = some outline ∧ job'.run.outline = some outline' ∧
        (∀ a : UInt32, outline.code[a]?.map Record.bare = outline'.code[a]?.map Record.bare) ∧
        outline.returns = outline'.returns ∧ outline.spans = outline'.spans ∧
        ∃ common : Std.ExtTreeSet UInt32,
          (∀ a, a ∈ outline.labels ↔ a ∈ common ∨ a ∈ symbols) ∧
          (∀ a, a ∈ outline'.labels ↔ a ∈ common ∨ a ∈ symbols')) := by
  intro job job'
  have hsections : job.sections.map Section.bare = job'.sections.map Section.bare :=
    Job.sections_bare rfl rfl
  refine ⟨?_, ?_⟩
  · have hsame : List.Forall₂ (fun s s' : Section => s.bare = s'.bare) job.sections
        job'.sections := by
      rw [← List.forall₂_eq_eq_eq, List.forall₂_map_left_iff, List.forall₂_map_right_iff]
        at hsections
      exact hsections
    exact hsame.imp fun _ _ h => Section.sameCourse_of_bare h
  · intro hflag hflag'
    refine ⟨_, _, Job.outline_run hflag, Job.outline_run hflag', ?_⟩
    have hcode : (Code.ofRecords job.codeRecords).bare =
        (Code.ofRecords job'.codeRecords).bare := by
      rw [Code.bare_ofRecords, Code.bare_ofRecords, Job.codeRecords_bare hsections]
    refine ⟨?_, Outline.ofCode_congr symbols symbols' hcode ?_⟩
    · intro a
      rw [← Code.getElem?_bare, ← Code.getElem?_bare]
      exact congrArg (·[a]?) hcode
    · intro a
      rw [Job.vectorEntries_congr hsections]

/-- A call: one job names its target, the other one the caller, with all flags of style set. -/
theorem names_and_style_decide_text_only_call :
    let memory := (Image.ofBytes 0 #[0xD0, 0x01, 0x97, 0x20, 0x97, 0x20]).memory
    let layout : Layout :=
      { files := .ofList [{ start := 0, stop := 6 }]
        contents := .ofList [{ start := 0, stop := 6 }] }
    let job : Job :=
      { memory, layout, symbols := .ofList [(4, "callee"), (0x100, "beyond")]
        flags := { outline := true } }
    let job' : Job :=
      { memory, layout, symbols := .ofList [(0, "caller")]
        flags := { outline := true, aliases := true, dollar := true, rawWords := true } }
    List.Forall₂ Section.SameCourse job.run.sections job'.run.sections ∧
      ∃ outline outline', job.run.outline = some outline ∧ job'.run.outline = some outline' ∧
        (∀ a : UInt32, outline.code[a]?.map Record.bare = outline'.code[a]?.map Record.bare) ∧
        outline.returns = outline'.returns ∧ outline.spans = outline'.spans ∧
        ∃ common : Std.ExtTreeSet UInt32,
          (∀ a, a ∈ outline.labels ↔ a ∈ common ∨ a ∈ job.symbols) ∧
          (∀ a, a ∈ outline'.labels ↔ a ∈ common ∨ a ∈ job'.symbols) := by
  intro memory layout job job'
  have h := names_and_style_decide_text_only memory layout job.symbols job'.symbols job.flags
    job'.flags
  exact ⟨h.1, h.2 rfl rfl⟩

end Disassembly
