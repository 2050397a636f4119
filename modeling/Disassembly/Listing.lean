import Disassembly.Outline.Listing
import Disassembly.Section

/-!
# Listings

The result of disassembling a layout: one section for each request, in order, and the outline of all
code when it is asked for. Without an outline, code is written in the order of decoding; with it,
the code of every section is written from the outline.
-/

namespace Disassembly

/-- The result of disassembling a layout. -/
structure Listing where
  sections : List Section
  outline : Option Outline

/-- What to disassemble, and how to write it. -/
structure Job where
  memory : Memory
  layout : Layout
  symbols : Symbols
  flags : OutputFlags

namespace Job

/-- The decoder for the job. -/
def decoder (job : Job) : Decoder :=
  Decoder.standard job.flags.style job.symbols

/-- The sections of the job, one for each request. -/
def sections (job : Job) : List Section :=
  job.layout.requests.map (Section.decode job.decoder job.memory job.layout)

/-- The outline of all code in the sections. -/
def outlineOf (job : Job) (sections : List Section) : Outline :=
  let code := (sections.filter (·.content.isCode)).flatMap Section.records
  Outline.ofCode (Code.ofRecords code) job.symbols
    (Entries.ofDeclarations (sections.flatMap Section.vectorEntries))

/-- Disassembles the layout. -/
def run (job : Job) : Listing :=
  let sections := job.sections
  { sections, outline := if job.flags.outline then some (job.outlineOf sections) else none }

end Job

namespace Listing

/-- The text of a section of the listing. -/
def sectionText (listing : Listing) (s : Section) : String :=
  s.textWith <|
    match listing.outline with
    | some outline => if s.content.isCode then outline.listing s.region s.bias else s.lines
    | none => s.lines

/-- The report on an outline. -/
def outlineEvent (outline : Outline) : Event :=
  let s := outline.summary
  { severity := .info
    text := "code structure instructions=" ++ Text.decimal s.instructions ++ " labels="
      ++ Text.decimal s.labels ++ " functions=" ++ Text.decimal s.functions ++ " returns="
      ++ Text.decimal s.returns }

/-- What there is to report about a job and its listing. -/
def events (job : Job) (listing : Listing) : List Event :=
  job.layout.warnings ++ job.layout.requestWarnings
    ++ listing.sections.flatMap (Section.events job.flags.verbose)
    ++ (listing.outline.map outlineEvent).toList

end Listing

end Disassembly
