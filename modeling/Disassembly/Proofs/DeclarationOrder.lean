import Disassembly.Proofs.OutlineParts
import Disassembly.Proofs.RegionMaps
import Mathlib.Data.List.Perm.Basic

/-!
# The order of declarations

Regions and names may be declared in any order. Regions with equal starts then stand in another
order in their map, so the requests come in another order too, and overlapping ones decode the same
addresses at other times. The outline does not show it:

* **requests** — the same ones are made, each as often (`Layout.requests_perm`);
* **code** — every record of code is what the decoder gives at its own address, whichever section it
  comes from (`Job.code_of_mem_codeRecords`), so entering it again changes nothing;
* **names** — declarations at different addresses leave the same table (`Symbols.ofList_perm`).
-/

namespace Disassembly

theorem Symbols.ofList_perm {declared declared' : List (UInt32 × String)}
    (hperm : declared.Perm declared') (hdistinct : (declared.map Prod.fst).Nodup) :
    ofList declared = ofList declared' := by
  have hread : ∀ ds : List (UInt32 × String), (ds.map Prod.fst).Nodup → ∀ (a : UInt32) name,
      (ofList ds)[a]? = some name ↔ (a, name) ∈ ds := by
    intro ds hnodup a name
    have hpairs : ds.Pairwise fun d e => ¬ compare d.1 e.1 = .eq := by
      simpa [List.Nodup, List.pairwise_map] using hnodup
    constructor
    · intro h
      rw [ofList, Table.getElem?_foldl_insert Prod.fst Prod.snd] at h
      simp only [Std.ExtTreeMap.getElem?_empty, Option.or_none, Option.map_eq_some_iff] at h
      obtain ⟨d, hfind, rfl⟩ := h
      have haddress : d.1 = a := by simpa using List.find?_some hfind
      rw [← haddress]
      exact List.mem_reverse.mp (List.mem_of_find?_eq_some hfind)
    · intro hmem
      rw [ofList, ← Table.ofList_eq_foldl]
      exact Std.ExtTreeMap.getElem?_ofList_of_mem Std.compare_self hpairs hmem
  apply Std.ExtTreeMap.ext_getElem?
  intro a
  apply Option.ext
  intro name
  rw [hread declared hdistinct, hread declared' ((hperm.map _).nodup_iff.mp hdistinct),
    hperm.mem_iff]

/-! ## Requests -/

namespace Layout

variable {layout layout' : Layout}

theorem base_perm (hfiles : layout.files = layout'.files)
    (hcontents : layout.contents.regions.Perm layout'.contents.regions) :
    layout.base.Perm layout'.base := by
  unfold base RegionMap.isEmpty
  rw [hfiles, hcontents.isEmpty_eq]
  split
  · exact List.Perm.refl _
  · exact hcontents

theorem requests_perm (hfiles : layout.files = layout'.files)
    (hcontents : layout.contents.regions.Perm layout'.contents.regions)
    (hselected : layout.selected.regions.Perm layout'.selected.regions) :
    layout.requests.Perm layout'.requests := by
  have hbase := base_perm hfiles hcontents
  unfold requests RegionMap.isEmpty
  rw [hselected.isEmpty_eq]
  split
  · exact hbase
  · refine (hbase.flatMap_right _).trans ?_
    exact List.Perm.flatMap_left _ fun r _ => hselected.filterMap r.intersect?

end Layout

/-! ## Sections and their code -/

/-- What a file region lies behind depends on the file regions only. -/
theorem Section.decode_congr {layout layout' : Layout} (hfiles : layout.files = layout'.files)
    (decoder : Decoder) (memory : Memory) (request : Region) :
    decode decoder memory layout request = decode decoder memory layout' request := by
  unfold decode Layout.backing?
  rw [hfiles]

namespace Job

variable {job job' : Job}

theorem sections_perm (hdecoder : job.decoder = job'.decoder) (hmemory : job.memory = job'.memory)
    (hfiles : job.layout.files = job'.layout.files)
    (hrequests : job.layout.requests.Perm job'.layout.requests) :
    job.sections.Perm job'.sections := by
  have hdecode := funext (Section.decode_congr hfiles job'.decoder job'.memory)
  unfold sections
  rw [hdecoder, hmemory, hdecode]
  exact hrequests.map _

theorem codeRecords_perm (h : job.sections.Perm job'.sections) :
    job.codeRecords.Perm job'.codeRecords :=
  (h.filter _).flatMap_right _

theorem vectorEntries_perm (h : job.sections.Perm job'.sections) :
    job.vectorEntries.Perm job'.vectorEntries :=
  h.flatMap_right _

/-- Every record of code is the decode of its own address, whatever request has led there. -/
theorem code_of_mem_codeRecords {record : Record} (h : record ∈ job.codeRecords) :
    job.decoder.code job.memory record.address = .ok record := by
  obtain ⟨request, _, hcode, hrecord⟩ := mem_codeRecords.mp h
  unfold Section.decode at hrecord
  cases hbacking : job.layout.backing? request with
  | none =>
      rw [hbacking] at hrecord
      exact absurd hrecord List.not_mem_nil
  | some file =>
      rw [hbacking, hcode] at hrecord
      -- a pass over code is one record, decoded where the pass starts
      obtain ⟨pass, hpass, hmem⟩ := List.mem_flatMap.mp hrecord
      obtain ⟨pc, _, hnext⟩ := (Trace.walk_nil_walks _ _ _).exists_next hpass
      obtain ⟨decoded, hdecoded, hrecords⟩ := Decoder.pass_code hnext
      rw [hrecords, List.mem_singleton] at hmem
      rw [hmem, (Decoder.code_shape hdecoded).address]
      exact hdecoded

theorem codeRecords_single (job : Job) :
    ∀ r ∈ job.codeRecords, ∀ s ∈ job.codeRecords, r.address = s.address → r = s := by
  intro r hr s hs haddress
  have hdecoded := code_of_mem_codeRecords hr
  rw [haddress, code_of_mem_codeRecords hs] at hdecoded
  cases hdecoded
  rfl

end Job

/-! ## Outlines -/

/-- **The order of declarations.** Let the same contents, selected regions and names be declared in
two orders, no two names at one address, over the same memory and file regions. However the regions
overlap, both outlines hold the same code, labels, returns and spans of functions. -/
theorem outline_independent_of_declaration_order (memory : Memory) (files : RegionMap)
    (flags : OutputFlags) (hflag : flags.outline = true)
    {contents contents' selected selected' : List Region}
    {declared declared' : List (UInt32 × String)} (hcontents : contents.Perm contents')
    (hselected : selected.Perm selected') (hdeclared : declared.Perm declared')
    (hdistinct : (declared.map Prod.fst).Nodup) :
    let job : Job :=
      { memory, flags, symbols := .ofList declared
        layout := { files, contents := .ofList contents, selected := .ofList selected } }
    let job' : Job :=
      { memory, flags, symbols := .ofList declared'
        layout := { files, contents := .ofList contents', selected := .ofList selected' } }
    ∃ outline outline', job.run.outline = some outline ∧ job'.run.outline = some outline' ∧
      outline.code = outline'.code ∧ (∀ a, a ∈ outline.labels ↔ a ∈ outline'.labels) ∧
      outline.returns = outline'.returns ∧ outline.spans = outline'.spans := by
  intro job job'
  have hsymbols : job.symbols = job'.symbols := Symbols.ofList_perm hdeclared hdistinct
  have hreorder : ∀ {regions regions' : List Region}, regions.Perm regions' →
      (RegionMap.ofList regions).regions.Perm (RegionMap.ofList regions').regions :=
    fun h => ((RegionMap.ofList_perm _).trans h).trans (RegionMap.ofList_perm _).symm
  have hrequests : job.layout.requests.Perm job'.layout.requests :=
    Layout.requests_perm rfl (hreorder hcontents) (hreorder hselected)
  have hdecoder : job.decoder = job'.decoder := congrArg (Decoder.standard flags.style) hsymbols
  have hsections : job.sections.Perm job'.sections :=
    Job.sections_perm hdecoder rfl rfl hrequests
  have hcode : Code.ofRecords job.codeRecords = Code.ofRecords job'.codeRecords :=
    Code.ofRecords_eq_of_perm (Job.codeRecords_perm hsections) job.codeRecords_single
  have hentries : ∀ a, a ∈ Entries.ofDeclarations job.vectorEntries ↔
      a ∈ Entries.ofDeclarations job'.vectorEntries := by
    intro a
    simp only [Entries.mem_ofDeclarations, (Job.vectorEntries_perm hsections).mem_iff]
  obtain ⟨hreturns, hspans, common, hlabels, hlabels'⟩ :=
    Outline.ofCode_congr job.symbols job'.symbols (congrArg Code.bare hcode) hentries
  refine ⟨_, _, Job.outline_run hflag, Job.outline_run hflag, hcode, ?_, hreturns, hspans⟩
  intro a
  rw [hlabels, hlabels', hsymbols]

/-- Three regions start together and a fourth one starts in the middle of their first instruction;
both selected regions cut all of them. -/
theorem outline_independent_of_declaration_order_overlap :
    let memory := (Image.ofBytes 0 #[0x9F, 0x84, 0xD0, 0x01, 0x97, 0x20, 0x97, 0x20]).memory
    let files := RegionMap.ofList [{ start := 0, stop := 8 }]
    let vectors : Region := { start := 0, stop := 4, content := .data [.vector] }
    let whole : Region := { start := 0, stop := 8 }
    let short : Region := { start := 0, stop := 3 }
    let middle : Region := { start := 2, stop := 8 }
    let low : Region := { start := 0, stop := 6 }
    let high : Region := { start := 2, stop := 8 }
    let job : Job :=
      { memory, flags := { outline := true }, symbols := .ofList [(2, "inner"), (0, "outer")]
        layout :=
          { files, contents := .ofList [vectors, whole, short, middle]
            selected := .ofList [low, high] } }
    let job' : Job :=
      { memory, flags := { outline := true }, symbols := .ofList [(0, "outer"), (2, "inner")]
        layout :=
          { files, contents := .ofList [short, middle, whole, vectors]
            selected := .ofList [high, low] } }
    job.layout.contents ≠ job'.layout.contents ∧
      ∃ outline outline', job.run.outline = some outline ∧ job'.run.outline = some outline' ∧
        outline.code = outline'.code ∧ (∀ a, a ∈ outline.labels ↔ a ∈ outline'.labels) ∧
        outline.returns = outline'.returns ∧ outline.spans = outline'.spans := by
  intro memory files vectors whole short middle low high job job'
  refine ⟨by decide, ?_⟩
  exact outline_independent_of_declaration_order memory files { outline := true } rfl
    (by decide) (by decide) (by decide) (by decide)

end Disassembly
