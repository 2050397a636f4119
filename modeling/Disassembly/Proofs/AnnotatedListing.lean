import Disassembly.Proofs.CodeTable
import Disassembly.Proofs.Coverage
import Disassembly.Proofs.LineTexts

/-!
# Annotated listings

A listing with an outline says the same as one without it. The code of a section is then not written
while it is decoded, but taken back from a table of the code of all sections. Where the requests for
code do not meet, nothing is lost, repeated or moved to another section on this way:

* `Outline.linesOf_annotates` — the lines of records are these records in order, each with what the
  outline puts before it, and with separators after some of them;
* `Section.code_records` — the code of a section lies in the region of the section, at ascending
  addresses;
* `Job.recordsIn_outlineOf` — the table gives each section its own records back.

`outlined_text_annotates_plain_text` is the statement about the two texts.
-/

namespace Disassembly

/-! ## Annotation of records -/

namespace Outline

/-- What has to stand before the record at an address: the banner of the function that starts there,
or else the label of the address, or else nothing. -/
inductive Opens (outline : Outline) (a : UInt32) : List Line → Prop
  | banner {f : Function} : outline.functions[a]? = some f → Opens outline a [.banner f]
  | label {name : String} : outline.functions[a]? = none → outline.labels[a]? = some name →
      Opens outline a [.label name]
  | nothing : outline.functions[a]? = none → outline.labels[a]? = none → Opens outline a []

/-- The lines are the records in the same order, each one behind what opens it and followed by at
most a separator. -/
inductive Annotates (outline : Outline) : List Record → List Line → Prop
  | nil : Annotates outline [] []
  | cons {record : Record} {records : List Record} {opening closing lines : List Line} :
      Opens outline record.address opening → closing = [] ∨ closing = [.separator] →
      Annotates outline records lines →
      Annotates outline (record :: records) (opening ++ .record record :: (closing ++ lines))

theorem opens_introduction (outline : Outline) (a : UInt32) :
    outline.Opens a (outline.introduction a) := by
  unfold introduction
  cases hf : outline.functions[a]? with
  | some f => exact .banner hf
  | none =>
      cases hl : outline.labels[a]? with
      | some name => exact .label hf hl
      | none => exact .nothing hf hl

/-- Writing one record adds its opening, the record itself and at most a separator. -/
theorem step_lines (outline : Outline) (progress : Progress) (record : Record) :
    ∃ closing, (closing = [] ∨ closing = [.separator]) ∧
      (outline.step progress record).lines.toList = progress.lines.toList ++
        (outline.introduction record.address ++ .record record :: closing) := by
  unfold step
  dsimp only
  generalize (if record.address ∈ outline.returns then _ else progress.separatorAfter) = pending
  by_cases h : pending = some record.address
  · rw [if_pos h]
    exact ⟨[.separator], .inr rfl, by simp⟩
  · rw [if_neg h]
    exact ⟨[], .inl rfl, by simp⟩

theorem linesOf_annotates (outline : Outline) (records : List Record) :
    outline.Annotates records (outline.linesOf records) := by
  have hfold : ∀ progress : Progress, ∃ lines, outline.Annotates records lines ∧
      (records.foldl outline.step progress).lines.toList = progress.lines.toList ++ lines := by
    induction records with
    | nil => exact fun progress => ⟨[], .nil, (List.append_nil _).symm⟩
    | cons record records ih =>
        intro progress
        obtain ⟨closing, hclosing, hstep⟩ := step_lines outline progress record
        obtain ⟨lines, hlines, hrest⟩ := ih (outline.step progress record)
        refine ⟨_, .cons (outline.opens_introduction record.address) hclosing hlines, ?_⟩
        rw [List.foldl_cons, hrest, hstep]
        simp only [List.append_assoc, List.cons_append]
  obtain ⟨lines, hlines, heq⟩ := hfold {}
  rw [linesOf, heq]
  exact hlines

end Outline

/-! ## The code of a section -/

namespace Section

/-- Over code, every pass is the one record at its start. -/
theorem map_address_flatMap {decoder : Decoder} {memory : Memory} {origin : UInt32}
    {stop a : Nat} {passes : List Pass}
    (hchain : Trace.Chain (decoder.pass memory .code origin) stop a passes) :
    (passes.flatMap Pass.records).map Record.address = passes.map Pass.start := by
  induction hchain with
  | nil => rfl
  | cons hpass _ _ _ _ _ ih =>
      obtain ⟨record, hrecord, hrecords⟩ := Decoder.pass_code hpass
      rw [List.flatMap_cons, List.map_append, ih, hrecords, List.map_singleton,
        (Decoder.code_shape hrecord).address, List.map_cons, List.singleton_append]

/-- The region of a section begins at the start of its chain, holds the starts of all passes, and
goes no further than the chain may. -/
theorem Traverses.region_bounds {next : UInt32 → Except DecodeError Pass} {start stop : Nat}
    {s : Section} (h : s.Traverses next start stop) (hbacked : s.ending ≠ .unbacked) :
    s.region.start.toNat = start ∧ s.region.stop.toNat ≤ stop ∧
      ∀ pass ∈ s.passes, s.region.contains pass.start = true := by
  cases hending : s.ending with
  | unbacked => exact absurd hending hbacked
  | complete =>
      obtain ⟨hstart, hstop, _⟩ := h.complete hending
      refine ⟨hstart, Nat.le_of_eq hstop, ?_⟩
      intro pass hpass
      have hbounds := h.chain.bounds hpass
      rw [Region.contains_iff]
      omega
  | cutShort failure =>
      obtain ⟨hstart, hstop, haddress, hlt, _⟩ := h.cutShort failure hending
      refine ⟨hstart, by rw [hstop]; omega, ?_⟩
      intro pass hpass
      have hbounds := h.chain.bounds hpass
      rw [Region.contains_iff, hstop]
      omega

variable {style : Style} {symbols : Symbols} {memory : Memory} {layout : Layout} {request : Region}

/-- A section over code traverses its request, without any assumption. -/
theorem traverses_decode_code (hcode : request.content = .code)
    (hbacked : layout.backing? request ≠ none) :
    Traverses ((Decoder.standard style symbols).pass memory .code (evenDown request.start))
      (request.start.toNat / 2 * 2) (min ((request.stop.toNat + 1) / 2 * 2) 0xFFFFFFFF)
      (decode (.standard style symbols) memory layout request) := by
  rw [← hcode]
  refine traverses_decode hbacked fun hdata => ?_
  rw [hcode] at hdata
  cases hdata

/-- The region of a section stays inside the widened request. -/
theorem widened_contains_of_region (hcode : request.content = .code)
    (hbacked : layout.backing? request ≠ none) {a : UInt32}
    (ha : (decode (.standard style symbols) memory layout request).region.contains a = true) :
    (widened request).contains a = true := by
  have hending : (decode (.standard style symbols) memory layout request).ending ≠ .unbacked :=
    fun h => hbacked ((ending_decode_eq_unbacked_iff _ _ _ _).mp h)
  obtain ⟨hstart, hstop, _⟩ := (traverses_decode_code hcode hbacked).region_bounds hending
  rw [Region.contains_iff] at ha ⊢
  simp only [widened, toNat_evenDown, toNat_evenUp]
  omega

/-- Only a section over a file region has records. -/
theorem backed_of_mem_records {decoder : Decoder} {record : Record}
    (h : record ∈ (decode decoder memory layout request).records) :
    layout.backing? request ≠ none := by
  intro hnone
  rw [decode, hnone] at h
  exact absurd h List.not_mem_nil

/-- The code of a section lies in the region of the section, at ascending addresses. -/
theorem code_records (hcode : request.content = .code) :
    (decode (.standard style symbols) memory layout request).records.Pairwise Record.Before ∧
      ∀ record ∈ (decode (.standard style symbols) memory layout request).records,
        (decode (.standard style symbols) memory layout request).region.contains
          record.address = true := by
  by_cases hbacked : layout.backing? request = none
  · rw [decode, hbacked]
    exact ⟨List.Pairwise.nil, fun record h => absurd h List.not_mem_nil⟩
  · have htraverses : Traverses _ _ _ (decode (.standard style symbols) memory layout request) :=
      traverses_decode_code hcode hbacked
    have hending : (decode (.standard style symbols) memory layout request).ending ≠ .unbacked :=
      fun h => hbacked ((ending_decode_eq_unbacked_iff _ _ _ _).mp h)
    generalize decode (.standard style symbols) memory layout request = s at *
    have haddresses : s.records.map Record.address = s.passes.map Pass.start := by
      cases s with
      | unbacked _ => exact absurd rfl hending
      | backed _ _ trace => exact map_address_flatMap htraverses.chain
    refine ⟨?_, ?_⟩
    · have hascending := List.pairwise_map.mpr htraverses.chain.ascending
      rw [← haddresses, List.pairwise_map] at hascending
      exact hascending
    · intro record hrecord
      have hmem : record.address ∈ s.passes.map Pass.start :=
        haddresses ▸ List.mem_map_of_mem hrecord
      obtain ⟨pass, hpass, hstart⟩ := List.mem_map.mp hmem
      rw [← hstart]
      exact (htraverses.region_bounds hending).2.2 pass hpass

/-- The code of a section lies inside the widened request. -/
theorem widened_contains_record (hcode : request.content = .code) {record : Record}
    (h : record ∈ (decode (.standard style symbols) memory layout request).records) :
    (widened request).contains record.address = true := by
  exact widened_contains_of_region hcode (backed_of_mem_records h)
    ((code_records hcode).2 record h)

end Section

/-! ## The table of all code -/

/-- Whether a request is one for code that a file region lies behind. -/
def Layout.isBackedCode (layout : Layout) (request : Region) : Bool :=
  request.content.isCode && (layout.backing? request).isSome

/-- No address lies in two of the requests for code, widened to even ends. -/
def Layout.CodeApart (layout : Layout) : Prop :=
  (layout.requests.filter layout.isBackedCode).Pairwise fun r s =>
    ∀ a, ¬ ((Section.widened r).contains a = true ∧ (Section.widened s).contains a = true)

theorem Content.eq_code_of_isCode {content : Content} (h : content.isCode = true) :
    content = .code := by
  cases content with
  | code => rfl
  | data kinds => cases h

theorem Layout.isBackedCode_iff (layout : Layout) (request : Region) :
    layout.isBackedCode request = true ↔
      request.content = .code ∧ layout.backing? request ≠ none := by
  rw [isBackedCode, Bool.and_eq_true, Option.isSome_iff_ne_none]
  refine and_congr_left fun _ => ⟨Content.eq_code_of_isCode, ?_⟩
  intro h
  rw [h]
  rfl

/-- Two different requests for code have no address in common. -/
theorem Layout.CodeApart.eq_of_contains {layout : Layout} (hapart : layout.CodeApart)
    {r s : Region} (hr : r ∈ layout.requests) (hs : s ∈ layout.requests)
    (hr' : layout.isBackedCode r = true) (hs' : layout.isBackedCode s = true) {a : UInt32}
    (har : (Section.widened r).contains a = true) (has : (Section.widened s).contains a = true) :
    r = s := by
  have : Std.Symm fun r s : Region =>
      ∀ a, ¬ ((Section.widened r).contains a = true ∧ (Section.widened s).contains a = true) :=
    ⟨fun _ _ h a hboth => h a hboth.symm⟩
  by_contra hne
  exact List.Pairwise.forall hapart (List.mem_filter.mpr ⟨hr, hr'⟩) (List.mem_filter.mpr ⟨hs, hs'⟩)
    hne a ⟨har, has⟩

namespace Job

/-- The code of all sections, in the order of decoding. -/
def codeRecords (job : Job) : List Record :=
  (job.sections.filter (·.content.isCode)).flatMap Section.records

theorem mem_codeRecords {job : Job} {record : Record} :
    record ∈ job.codeRecords ↔ ∃ request ∈ job.layout.requests, request.content = .code ∧
      record ∈ (Section.decode job.decoder job.memory job.layout request).records := by
  rw [codeRecords, List.mem_flatMap]
  constructor
  · rintro ⟨s, hs, hrecord⟩
    obtain ⟨hs, hcode⟩ := List.mem_filter.mp hs
    obtain ⟨request, hrequest, rfl⟩ := List.mem_map.mp hs
    rw [Section.content, Section.request_decode] at hcode
    exact ⟨request, hrequest, Content.eq_code_of_isCode hcode, hrecord⟩
  · rintro ⟨request, hrequest, hcode, hrecord⟩
    refine ⟨_, List.mem_filter.mpr ⟨List.mem_map_of_mem hrequest, ?_⟩, hrecord⟩
    rw [Section.content, Section.request_decode, hcode]
    rfl

/-- Where the requests for code do not meet, no two records of code have the same address. -/
theorem codeRecords_distinct {job : Job} (hapart : job.layout.CodeApart) :
    job.codeRecords.Pairwise fun r s => r.address ≠ s.address := by
  rw [codeRecords, List.pairwise_flatMap]
  refine ⟨?_, ?_⟩
  · intro s hs
    obtain ⟨hs, hcode⟩ := List.mem_filter.mp hs
    obtain ⟨request, _, rfl⟩ := List.mem_map.mp hs
    rw [Section.content, Section.request_decode] at hcode
    exact (Section.code_records (Content.eq_code_of_isCode hcode)).1.imp Record.Before.address_ne
  · rw [List.pairwise_filter, sections, List.pairwise_map]
    refine (List.pairwise_filter.mp hapart).imp ?_
    intro request request' hdisjoint hcode hcode' r hr s hs heq
    rw [Section.content, Section.request_decode] at hcode hcode'
    replace hcode := Content.eq_code_of_isCode hcode
    replace hcode' := Content.eq_code_of_isCode hcode'
    apply hdisjoint
      ((Layout.isBackedCode_iff _ _).mpr ⟨hcode, Section.backed_of_mem_records hr⟩)
      ((Layout.isBackedCode_iff _ _).mpr ⟨hcode', Section.backed_of_mem_records hs⟩) r.address
    refine ⟨Section.widened_contains_record hcode hr, ?_⟩
    rw [heq]
    exact Section.widened_contains_record hcode' hs

/-- The outline gives the records of a section back, and no others. -/
theorem recordsIn_outlineOf {job : Job} (hapart : job.layout.CodeApart) {request : Region}
    (hrequest : request ∈ job.layout.requests) (hcode : request.content = .code)
    (hbacked : job.layout.backing? request ≠ none) :
    (job.outlineOf job.sections).recordsIn
        (Section.decode job.decoder job.memory job.layout request).region =
      (Section.decode job.decoder job.memory job.layout request).records := by
  obtain ⟨hascending, hregion⟩ := Section.code_records hcode
  show (Code.ofRecords job.codeRecords).records.filter _ = _
  refine List.Pairwise.eq_of_mem_iff ((Code.records_ascending _).filter _) hascending ?_
  intro record
  rw [List.mem_filter, Code.mem_records_ofRecords (codeRecords_distinct hapart), mem_codeRecords]
  constructor
  · rintro ⟨⟨other, hother, hcode', hrecord⟩, hcontains⟩
    -- the record lies in the widened requests of both sections, so they are the same
    have hsame : other = request := hapart.eq_of_contains hother hrequest
      ((Layout.isBackedCode_iff _ _).mpr ⟨hcode', Section.backed_of_mem_records hrecord⟩)
      ((Layout.isBackedCode_iff _ _).mpr ⟨hcode, hbacked⟩)
      (Section.widened_contains_record hcode' hrecord)
      (Section.widened_contains_of_region hcode hbacked hcontains)
    exact hsame ▸ hrecord
  · intro hrecord
    exact ⟨⟨request, hrequest, hcode, hrecord⟩, hregion record hrecord⟩

/-- With an outline, the text of code is made of the lines of the records of the section. -/
theorem sectionText_code (job : Job) (hflag : job.flags.outline = true)
    (hapart : job.layout.CodeApart) {s : Section} (hs : s ∈ job.run.sections)
    (hcode : s.content.isCode = true) (hbacked : s.ending ≠ .unbacked) :
    job.run.sectionText s = s.textWith (String.join
      (((job.outlineOf job.sections).linesOf s.records).map (Outline.Line.text s.bias))) := by
  obtain ⟨request, hrequest, rfl⟩ := List.mem_map.mp hs
  have houtline : job.run.outline = some (job.outlineOf job.sections) := by
    simp only [run, hflag, if_true]
  rw [ne_eq, Section.ending_decode_eq_unbacked_iff] at hbacked
  rw [Listing.sectionText, houtline]
  dsimp only
  rw [if_pos hcode, Outline.listing]
  rw [Section.content, Section.request_decode] at hcode
  rw [recordsIn_outlineOf hapart hrequest (Content.eq_code_of_isCode hcode) hbacked]

/-- The job with the outline asked for or not. -/
def withOutline (job : Job) (asked : Bool) : Job :=
  { job with flags := { job.flags with outline := asked } }

end Job

/-! ## The two texts -/

/-- **Annotated listings.** Let no address lie in two of the requests for code. With and without an
outline, a job has the same sections, so that region, file offset, bias, odd start and ending of
each are the same. Data and requests without a file region have the same text. The text of code is
that of its records in order, and with the outline these same lines are each preceded by the banner
of the function that starts there, or else by the label of the address if there is one, and followed
by at most a separator. Both texts stand below the heading of the section, and every line of them
reads what a line of its sort has to read. -/
theorem outlined_text_annotates_plain_text (job : Job) (hapart : job.layout.CodeApart) :
    let plain := (job.withOutline false).run
    let outlined := (job.withOutline true).run
    outlined.sections = plain.sections ∧
      ∃ outline, outlined.outline = some outline ∧ ∀ s ∈ outlined.sections,
        (s.content.isCode = false ∨ s.ending = .unbacked →
          outlined.sectionText s = plain.sectionText s) ∧
        (s.content.isCode = true → s.ending ≠ .unbacked → ∃ lines,
          outline.Annotates s.records lines ∧
          plain.sectionText s = s.textWith (String.join (s.records.map (Record.line s.bias))) ∧
          outlined.sectionText s =
            s.textWith (String.join (lines.map (Outline.Line.text s.bias))) ∧
          (∀ body, s.textWith body = s.heading ++ "\n\n" ++ body ++ "\n") ∧
          (∀ r : Record, r.line s.bias = r.printed s.bias ∧
            (Outline.Line.record r).text s.bias = r.line s.bias) ∧
          ∀ line : Outline.Line, line.Reads s.bias (line.text s.bias)) := by
  intro plain outlined
  refine ⟨rfl, _, rfl, ?_⟩
  intro s hs
  refine ⟨?_, ?_⟩
  · rintro (hdata | hunbacked)
    · show s.textWith (if s.content.isCode = true then _ else s.lines) = s.textWith s.lines
      rw [if_neg (by simp [hdata])]
    · -- the text of a skipped request has no body
      cases s with
      | unbacked _ => rfl
      | backed _ _ trace =>
          cases hfailure : trace.failure <;> simp [Section.ending, hfailure] at hunbacked
  · intro hcode hbacked
    exact ⟨_, Outline.linesOf_annotates _ _, rfl,
      (job.withOutline true).sectionText_code rfl hapart hs hcode hbacked,
      Section.textWith_eq hbacked, fun r => ⟨r.line_eq_printed s.bias, rfl⟩,
      Outline.Line.reads_text s.bias⟩

/-- Two neighbouring requests for code with odd ends, the first one ending in the middle of an
instruction. It calls the start of the second one, and branches back to its own start. -/
theorem outlined_text_annotates_plain_text_neighbours :
    let job : Job :=
      { memory := (Image.ofBytes 0x100
          #[0x9F, 0xA0, 0xD0, 0x02, 0xE0, 0xFD, 0x9F, 0x84, 0x00, 0x00, 0x97, 0x20]).memory
        layout :=
          { files := .ofList [{ start := 0x100, stop := 0x10C }]
            contents := .ofList [{ start := 0x101, stop := 0x107 },
              { start := 0x108, stop := 0x10B }] }
        symbols := Symbols.ofList [(0x108, "middle")]
        flags := {} }
    let outlined := (job.withOutline true).run
    job.layout.CodeApart ∧
      (∃ outline, outlined.outline = some outline ∧
        ∀ s ∈ outlined.sections, ∃ lines, outline.Annotates s.records lines ∧
          outlined.sectionText s =
            s.textWith (String.join (lines.map (Outline.Line.text s.bias))) ∧
          (∀ body, s.textWith body = s.heading ++ "\n\n" ++ body ++ "\n") ∧
          (∀ r : Record, r.line s.bias = r.printed s.bias ∧
            (Outline.Line.record r).text s.bias = r.line s.bias) ∧
          ∀ line : Outline.Line, line.Reads s.bias (line.text s.bias)) ∧
      outlined.sections.map outlined.sectionText =
        ["Disassemble 0x00000101-0x00000107 (file 0x00000000) as CODE\n\n"
          ++ "label_00000100:\n"
          ++ "00000100 (00000000) NOP\n"
          ++ "00000102 (00000002) CALL    middle  ; 0x00000108\n"
          ++ "00000104 (00000004) BRA     0x00000100\n"
          ++ "00000106 (00000006) LDI:32  #0x00009720, R4\n\n",
        "Disassemble 0x00000108-0x0000010B (file 0x00000000) as CODE\n\n"
          ++ "\n; " ++ Outline.Line.asterisks ++ "\n; middle  (00000108-0000010C)\n"
          ++ "00000108 (00000008) LD      @(R13, R0), R0\n"
          ++ "0000010A (0000000A) RET\n"
          ++ "; " ++ Outline.Line.dashes ++ "\n\n"] := by
  intro job outlined
  have hapart : job.layout.CodeApart := by
    refine List.pairwise_pair.mpr ?_
    intro a hboth
    rw [Region.contains_iff, Region.contains_iff] at hboth
    have hfirst : (evenUp 0x107).toNat = 0x108 := by decide
    have hsecond : (evenDown 0x108).toNat = 0x108 := by decide
    simp only [Section.widened, hfirst, hsecond] at hboth
    omega
  have hrequests : ∀ request ∈ job.layout.requests,
      request.content.isCode = true ∧ job.layout.backing? request ≠ none := by decide
  obtain ⟨_, outline, houtline, htexts⟩ := outlined_text_annotates_plain_text job hapart
  refine ⟨hapart, ⟨outline, houtline, ?_⟩, ?_⟩
  · intro s hs
    obtain ⟨hcode, hbacked⟩ : s.content.isCode = true ∧ s.ending ≠ .unbacked := by
      obtain ⟨request, hrequest, rfl⟩ := List.mem_map.mp hs
      rw [ne_eq, Section.ending_decode_eq_unbacked_iff, Section.content, Section.request_decode]
      exact hrequests request hrequest
    obtain ⟨lines, hlines, _, htext⟩ := (htexts s hs).2 hcode hbacked
    exact ⟨lines, hlines, htext⟩
  · show (job.withOutline true).run.sections.map (job.withOutline true).run.sectionText = _
    simp only [Job.run, Job.sections, Job.decoder, Decoder.standard_eq]
    decide +kernel

end Disassembly
