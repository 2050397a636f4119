import Disassembly.Proofs.CheckedDecoding
import Disassembly.Proofs.Coverage
import Disassembly.Proofs.FunctionEnds
import Mathlib.Data.List.TakeWhile

/-!
# Running a job without a fault

The partial operations of a job outside decoding are the queries for a span of addresses, which must
not be inverted, and the names that labels and functions must have:

* **functions** — entry points ascend, so that each function is looked for between two addresses in
  order, and each has a name among the labels (`Checked.functions_eq`);
* **sections** — realigning a request and cutting a section off where decoding fails never moves the
  end before the start (`Section.region_ordered`);
* **listings** — every label that a listing comes upon has a name (`Checked.introduction_eq`).

`run_without_fault` puts this together with the decoding of all sections, for any image, symbols and
flags, and any layout whose regions are not inverted themselves.
-/

namespace Disassembly

/-- No region of the layout ends before it starts. -/
structure Layout.Ordered (layout : Layout) : Prop where
  files : ∀ r ∈ layout.files.regions, r.start ≤ r.stop
  contents : ∀ r ∈ layout.contents.regions, r.start ≤ r.stop
  selected : ∀ r ∈ layout.selected.regions, r.start ≤ r.stop

namespace Checked

/-! ## Sections -/

/-- A region of code. -/
def region (start stop : UInt32) : Checked Region :=
  if start ≤ stop then .ok { start, stop } else .error .inverted

/-- The regions before selection: those with declared content, or else every file region as
code. -/
def base (layout : Layout) : Checked (List Region) :=
  if layout.contents.isEmpty then layout.files.regions.mapM fun r => region r.start r.stop
  else .ok layout.contents.regions

/-- The regions to decode: the base regions, each cut down to every selected region in turn. -/
def requests (layout : Layout) : Checked (List Region) := do
  let base ← base layout
  if layout.selected.isEmpty then return base
  else return base.flatMap fun r => layout.selected.regions.filterMap r.intersect?

/-- Decodes a request, when a file region lies behind it. -/
def decode (decoder : Decoder) (memory : Memory) (layout : Layout) (request : Region) :
    Checked Section :=
  match layout.backing? request with
  | none => return .unbacked request
  | some file => do
    let start ← evenDown request.start
    let next := pass decoder memory request.content start
    return .backed request file (← walk next (evenUp request.stop) #[] start)

theorem requests_eq {layout : Layout} (hordered : layout.Ordered) :
    requests layout = .ok layout.requests := by
  have hbase : base layout = .ok layout.base := by
    unfold base Layout.base
    split
    · exact mapM_eq fun r hr => if_pos (hordered.files r hr)
    · rfl
  rw [requests, hbase, ok_bind, Layout.requests]
  split <;> rfl

theorem decode_eq {decoder : Decoder} (hdecoder : Standard decoder) (memory : Memory)
    (layout : Layout) (request : Region) :
    decode decoder memory layout request = .ok (Section.decode decoder memory layout request) := by
  unfold decode Section.decode
  cases layout.backing? request with
  | none => rfl
  | some file =>
      dsimp only
      rw [evenDown_eq, ok_bind, walk_eq (pass_eq hdecoder memory request.content _), ok_bind]
      rfl

/-! ## Outlines -/

/-- The records of a table from an address on and below a limit. -/
def query (code : Code) (first limit : UInt32) : Checked (List Record) :=
  if first ≤ limit then .ok (code.between first limit) else .error .inverted

/-- The functions at ascending entries, with the names of their labels. -/
def functions (code : Code) (labels : Std.ExtTreeMap UInt32 String) :
    List UInt32 → Checked (List Function)
  | [] => return []
  | entry :: entries => do
    let limit := entries.head?.getD 0xFFFFFFFF
    let records ← query code entry limit
    let name ← demand .unnamed labels[entry]?
    let others ← functions code labels entries
    return { entry, stop := Outline.functionEnd records entry limit, name } :: others

/-- The outline of decoded code. -/
def outline (code : Code) (symbols : Symbols) (entries : Entries) : Checked Outline := do
  let outline := Outline.ofCode code symbols entries
  let functions ← functions code outline.labels (Outline.entryPoints code.records entries).toList
  return { outline with functions := .ofList (functions.map fun f => (f.entry, f)) }

end Checked

/-- The records below the limit are all that the end of a function depends on. -/
theorem Outline.functionEnd_between (records : List Record) (entry limit : UInt32) :
    functionEnd ((Code.ofRecords records).between entry limit) entry limit =
      extent (Code.ofRecords records) entry limit := by
  have hbelow : ((Code.ofRecords records).between entry limit).takeWhile
      (fun r => decide (r.address < limit)) = (Code.ofRecords records).between entry limit := by
    rw [List.takeWhile_eq_self_iff]
    intro r hr
    exact (Bool.and_eq_true_iff.mp (List.mem_filter.mp hr).2).2
  rw [extent, functionEnd, functionEnd, endFrom_runFrom, hbelow, between_eq, ← endFrom_runFrom]

namespace Checked

theorem query_of_le {code : Code} {first limit : UInt32} (h : first ≤ limit) :
    query code first limit = .ok (code.between first limit) :=
  if_pos h

/-- Ascending entries that all have a name. -/
theorem functions_eq (records : List Record) {labels : Std.ExtTreeMap UInt32 String}
    {name : UInt32 → String} {points : List UInt32} (hascending : points.Pairwise (· < ·))
    (hnames : ∀ point ∈ points, labels[point]? = some (name point)) :
    functions (.ofRecords records) labels points =
      .ok (Outline.functionsAt name points (Code.ofRecords records).records) := by
  induction points with
  | nil => rfl
  | cons entry entries ih =>
      obtain ⟨hlater, hrest⟩ := List.pairwise_cons.mp hascending
      -- the limit is the next entry, or the last address when there is none
      have hlimit : entry ≤ entries.head?.getD 0xFFFFFFFF := by
        cases entries with
        | nil =>
            have hlt := entry.toNat_lt
            rw [UInt32.le_iff_toNat_le]
            exact Nat.le_of_lt_succ hlt
        | cons next entries => exact UInt32.le_of_lt (hlater next List.mem_cons_self)
      rw [functions, query_of_le hlimit, ok_bind, hnames entry List.mem_cons_self, demand_some,
        ok_bind, ih hrest fun p hp => hnames p (List.mem_cons_of_mem entry hp), ok_bind,
        Outline.functionsAt_cons name hascending, Outline.functionEnd_between]
      rfl

theorem outline_eq (records : List Record) (symbols : Symbols) (entries : Entries) :
    outline (.ofRecords records) symbols entries =
      .ok (Outline.ofCode (.ofRecords records) symbols entries) := by
  have hnames : ∀ point ∈ (Outline.entryPoints (Code.ofRecords records).records entries).toList,
      (Outline.ofCode (.ofRecords records) symbols entries).labels[point]? =
        some (Outline.labelName symbols entries
          (Outline.entryPoints (Code.ofRecords records).records entries) point) := by
    intro point hpoint
    apply Outline.getElem?_labels
    rw [Outline.mem_labels_ofCode]
    left
    rw [Outline.reached, Std.ExtTreeSet.mem_ofList]
    simp [Std.ExtTreeSet.mem_toList.mp hpoint]
  rw [outline, functions_eq records (Outline.entryPoints_ascending _ _) hnames, ok_bind]
  rfl

/-! ## Listings -/

/-- What stands before the record at an address, given the addresses that have a label. -/
def introduction (outline : Outline) (labelled : Std.ExtTreeSet UInt32) (a : UInt32) :
    Checked (List Outline.Line) :=
  match outline.functions[a]? with
  | some f => return [.banner f]
  | none =>
    if a ∈ labelled then do
      let name ← demand .unnamed outline.labels[a]?
      return [.label name]
    else return []

/-- Writes one record. -/
def step (outline : Outline) (labelled : Std.ExtTreeSet UInt32) (progress : Outline.Progress)
    (record : Record) : Checked Outline.Progress := do
  let opening ← introduction outline labelled record.address
  let lines := progress.lines ++ opening |>.push (.record record)
  let separatorAfter :=
    if record.address ∈ outline.returns then
      some (if record.isDelayed then record.stop else record.address)
    else progress.separatorAfter
  return if separatorAfter = some record.address then
    { lines := lines.push .separator, separatorAfter := none }
  else { lines, separatorAfter }

/-- The annotated listing of a region. -/
def listing (outline : Outline) (labelled : Std.ExtTreeSet UInt32) (region : Region)
    (bias : UInt32) : Checked String := do
  let records ← query outline.code region.start region.stop
  let progress ← records.foldlM (step outline labelled) {}
  return String.join (progress.lines.toList.map (Outline.Line.text bias))

/-- The text of a section of a listing with the given outline, if any. -/
def sectionText (outline : Option (Outline × Std.ExtTreeSet UInt32)) (s : Section) :
    Checked String :=
  match s, outline with
  | .backed _ _ _, some (outline, labelled) =>
    if s.content.isCode then s.textWith <$> listing outline labelled s.region s.bias
    else return s.textWith s.lines
  | _, _ => return s.textWith s.lines

theorem introduction_eq {outline : Outline} {labelled : Std.ExtTreeSet UInt32}
    (hlabelled : ∀ a, a ∈ labelled ↔ a ∈ outline.labels) (a : UInt32) :
    introduction outline labelled a = .ok (outline.introduction a) := by
  unfold introduction Outline.introduction
  cases outline.functions[a]? with
  | some f => rfl
  | none =>
      dsimp only
      by_cases ha : a ∈ outline.labels
      · obtain ⟨name, hname⟩ := Option.isSome_iff_exists.mp
          (Std.ExtTreeMap.mem_iff_isSome_getElem?.mp ha)
        rw [if_pos ((hlabelled a).mpr ha), hname]
        rfl
      · rw [if_neg fun h => ha ((hlabelled a).mp h), Std.ExtTreeMap.getElem?_eq_none ha]
        rfl

theorem listing_eq {outline : Outline} {labelled : Std.ExtTreeSet UInt32}
    (hlabelled : ∀ a, a ∈ labelled ↔ a ∈ outline.labels) {region : Region}
    (hordered : region.start ≤ region.stop) (bias : UInt32) :
    listing outline labelled region bias = .ok (outline.listing region bias) := by
  have hstep : step outline labelled = fun progress record =>
      pure (outline.step progress record) := by
    funext progress record
    rw [step, introduction_eq hlabelled, ok_bind]
    rfl
  rw [listing, query_of_le hordered, ok_bind, hstep, List.foldlM_pure]
  rfl

end Checked

/-- Neither realigning a request nor cutting its section off inverts its region. -/
theorem Section.region_ordered {request : Region} (hordered : request.start ≤ request.stop)
    (file : Region) (trace : Trace) :
    (backed request file trace).region.start ≤ (backed request file trace).region.stop := by
  have hstart := toNat_evenDown request.start
  have hstop := toNat_evenUp request.stop
  have hlt := request.stop.toNat_lt
  rw [UInt32.le_iff_toNat_le] at hordered
  cases hfailure : trace.failure with
  | none =>
      simp only [region, hfailure, widened, UInt32.le_iff_toNat_le]
      omega
  | some failure =>
      simp only [region, hfailure, widened, UInt32.le_iff_toNat_le, toNat_max]
      exact Nat.le_max_right _ _

theorem Layout.requests_ordered {layout : Layout} (hordered : layout.Ordered) :
    ∀ r ∈ layout.requests, r.start ≤ r.stop := by
  have hbase : ∀ r ∈ layout.base, r.start ≤ r.stop := by
    unfold base
    split
    · simpa using hordered.files
    · exact hordered.contents
  unfold requests
  split
  · exact hbase
  · intro r hr
    obtain ⟨whole, _, hcut⟩ := List.mem_flatMap.mp hr
    obtain ⟨cut, _, hintersect⟩ := List.mem_filterMap.mp hcut
    unfold Region.intersect? at hintersect
    dsimp only at hintersect
    split at hintersect
    · next hlt =>
        cases hintersect
        exact UInt32.le_of_lt hlt
    · cases hintersect

namespace Checked

/-! ## Jobs -/

/-- The outline of all code in the sections and the addresses that have a label, when an outline is
asked for. -/
def outlineOf (job : Job) (sections : List Section) :
    Checked (Option (Outline × Std.ExtTreeSet UInt32)) := do
  if job.flags.outline then
    let code := Code.ofRecords ((sections.filter (·.content.isCode)).flatMap Section.records)
    let entries := Entries.ofDeclarations (sections.flatMap Section.vectorEntries)
    let points := Outline.entryPoints code.records entries
    let outline ← outline code job.symbols entries
    return some (outline, Outline.labelled code.records job.symbols points)
  else return none

/-- Disassembles the layout and writes the texts of all sections. -/
def run (job : Job) : Checked (Listing × List String) := do
  let requests ← requests job.layout
  let sections ← requests.mapM (decode job.decoder job.memory job.layout)
  let outline ← outlineOf job sections
  let texts ← sections.mapM (sectionText outline)
  return ({ sections, outline := outline.map Prod.fst }, texts)

/-- The addresses that have a label are those with a name among the labels. -/
theorem outlineOf_eq (job : Job) :
    ∃ outline, outlineOf job job.sections = .ok outline ∧ outline.map Prod.fst = job.run.outline ∧
      ∀ o labelled, outline = some (o, labelled) → ∀ a, a ∈ labelled ↔ a ∈ o.labels := by
  unfold outlineOf Job.run
  by_cases hflag : job.flags.outline = true
  · simp only [hflag, if_true, outline_eq, ok_bind]
    refine ⟨_, rfl, rfl, ?_⟩
    intro o labelled hsome a
    cases hsome
    simp [Outline.ofCode, Std.ExtTreeMap.mem_ofList]
  · simp only [hflag]
    refine ⟨none, rfl, rfl, ?_⟩
    intro o labelled hsome
    cases hsome

theorem sectionText_eq {outline : Option (Outline × Std.ExtTreeSet UInt32)}
    (hlabelled : ∀ o labelled, outline = some (o, labelled) → ∀ a, a ∈ labelled ↔ a ∈ o.labels)
    (sections : List Section) {s : Section} (hordered : s.request.start ≤ s.request.stop) :
    sectionText outline s =
      .ok (Listing.sectionText { sections, outline := outline.map Prod.fst } s) := by
  cases outline with
  | none => cases s <;> rfl
  | some pair =>
      obtain ⟨o, labelled⟩ := pair
      cases s with
      | unbacked request => rfl
      | backed request file trace =>
          have hregion := Section.region_ordered hordered file trace
          have hlisting := listing_eq (hlabelled o labelled rfl) hregion file.bias
          unfold sectionText Listing.sectionText
          dsimp only [Option.map_some]
          split
          · exact congrArg _ hlisting
          · rfl

end Checked

/-- Disassembling never comes upon a partial operation without a result. Every address of an image
can be read and every interrupt can be numbered; and for any layout without inverted regions, the
run in which all other partial operations are checked gives the listing and the texts of its
sections. -/
theorem run_without_fault (image : Image) (layout : Layout) (symbols : Symbols)
    (flags : OutputFlags) (hordered : layout.Ordered) :
    let job : Job := { memory := image.memory, layout, symbols, flags }
    (∀ a, Checked.read image a = .ok (image.memory a)) ∧
      (∀ origin a, Checked.interruptNumber origin a = .ok (interruptNumber? origin a)) ∧
      Checked.run job = .ok (job.run, job.run.sections.map job.run.sectionText) := by
  intro job
  refine ⟨Checked.read_eq image, Checked.interruptNumber_eq, ?_⟩
  have hsections : job.layout.requests.mapM
      (Checked.decode job.decoder job.memory job.layout) = .ok job.sections :=
    Checked.mapM_eq fun request _ =>
      Checked.decode_eq (Checked.standard flags.style symbols) image.memory layout request
  have hrequest : ∀ s ∈ job.sections, s.request.start ≤ s.request.stop := by
    intro s hs
    obtain ⟨request, hmem, rfl⟩ := List.mem_map.mp hs
    rw [Section.request_decode]
    exact Layout.requests_ordered hordered request hmem
  obtain ⟨outline, houtline, hfst, hlabelled⟩ := Checked.outlineOf_eq job
  have htexts : job.sections.mapM (Checked.sectionText outline) =
      .ok (job.sections.map job.run.sectionText) :=
    Checked.mapM_eq fun s hs => by
      rw [Checked.sectionText_eq hlabelled job.sections (hrequest s hs), hfst]
      rfl
  rw [Checked.run, Checked.requests_eq hordered, Checked.ok_bind, hsections, Checked.ok_bind,
    houtline, Checked.ok_bind, htexts, Checked.ok_bind, hfst]
  rfl

/-- A segment whose end wraps around, a request with an odd start, a string of odd length and an
instruction that the image cuts off, with an outline. The same job over an inverted region of code
has a fault: its records cannot be asked for. -/
theorem run_without_fault_wrapped_segment :
    let image : Image :=
      { segments :=
          [{ base := 0xFFFFFFFE, fileOffset := 0, bytes := #[1, 2, 3, 4] },
            { base := 0, fileOffset := 0, bytes := #[0xD0, 0, 0x41, 0x42, 0, 0xFF, 0x9F, 0x80] }] }
    let files := RegionMap.ofList [{ start := 0, stop := 12 }]
    let layout : Layout :=
      { files
        contents := .ofList [{ start := 1, stop := 2 },
          { start := 2, stop := 5, content := .data [.string] }, { start := 6, stop := 12 }] }
    let inverted : Layout := { files, contents := .ofList [{ start := 4, stop := 2 }] }
    let job : Job :=
      { memory := image.memory, layout, symbols := .ofList [(2, "text")]
        flags := { outline := true } }
    layout.Ordered ∧ Checked.read image 0xFFFFFFFF = .ok none ∧
      Checked.run job = .ok (job.run, job.run.sections.map job.run.sectionText) ∧
      job.run.sections.length = 3 ∧ (Checked.run { job with layout := inverted }).isOk = false := by
  intro image files layout inverted job
  have hordered : layout.Ordered := ⟨by decide, by decide, by decide⟩
  obtain ⟨hread, _, hrun⟩ :=
    run_without_fault image layout (.ofList [(2, "text")]) { outline := true } hordered
  exact ⟨hordered, hread 0xFFFFFFFF, hrun, by decide +kernel, by decide +kernel⟩

end Disassembly
