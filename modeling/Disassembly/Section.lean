import Disassembly.Layout
import Disassembly.Trace

/-!
# Sections

One region that the layout asks for, decoded from its start to its end. An odd start is moved down
to the even address before it and an odd end up to the one after it. Where decoding fails the
section ends early; where no file region lies behind the request, nothing is decoded at all.
-/

namespace Disassembly

/-- The even address at or before an address. -/
def evenDown (a : UInt32) : UInt32 :=
  a - (a &&& 1)

/-- The even address at or after an address; the last address of the space stays itself. -/
def evenUp (a : UInt32) : UInt32 :=
  if a = 0xFFFFFFFF then a else a + (a &&& 1)

/-- A request of the layout with what was decoded there. -/
inductive Section where
  /-- No file region lies behind the request. -/
  | unbacked (request : Region)
  /-- The request was decoded over the file region behind it. -/
  | backed (request file : Region) (trace : Trace)
deriving DecidableEq, Repr

/-- How decoding a section ended. -/
inductive Ending where
  | complete
  | cutShort (failure : Trace.Failure)
  | unbacked
deriving DecidableEq, Repr

namespace Section

/-- Decodes a request, when a file region lies behind it. -/
def decode (decoder : Decoder) (memory : Memory) (layout : Layout) (request : Region) : Section :=
  match layout.backing? request with
  | none => .unbacked request
  | some file =>
    let start := evenDown request.start
    let next := decoder.pass memory request.content start
    .backed request file (Trace.walk next (evenUp request.stop) #[] start)

/-- The region asked for. -/
def request : Section → Region
  | unbacked request => request
  | backed request _ _ => request

/-- What the section holds. -/
def content (s : Section) : Content :=
  s.request.content

/-- How decoding ended. -/
def ending : Section → Ending
  | unbacked _ => .unbacked
  | backed _ _ trace =>
    match trace.failure with
    | some failure => .cutShort failure
    | none => .complete

/-- The request with even ends, before any failure. -/
def widened (request : Region) : Region :=
  { request with start := evenDown request.start, stop := evenUp request.stop }

/-- The region covered: the request with even ends, cut off where decoding failed. -/
def region : Section → Region
  | unbacked request => request
  | backed request _ trace =>
    let whole := widened request
    match trace.failure with
    | some failure => { whole with stop := max failure.address whole.start }
    | none => whole

/-- The file offset of the file region behind the section. -/
def fileOffset? : Section → Option UInt32
  | unbacked _ => none
  | backed _ file _ => some file.fileOffset

/-- What to subtract from an address of the section to get its file offset. -/
def bias : Section → UInt32
  | unbacked _ => 0
  | backed _ file _ => file.bias

/-- The odd start asked for, when the section starts at the even address before it. -/
def oddStart? : Section → Option UInt32
  | unbacked _ => none
  | backed request _ _ => if request.start &&& 1 = 0 then none else some request.start

/-- The records of the section in the order of decoding. -/
def records : Section → List Record
  | unbacked _ => []
  | backed _ _ trace => trace.records

/-- The line that introduces the section. -/
def heading : Section → String
  | unbacked request =>
    "Skip " ++ Text.upperAddress request.start ++ "-" ++ Text.upperAddress request.stop ++ " as "
      ++ request.content.name ++ ": no file mapping"
  | backed request file _ =>
    "Disassemble " ++ Text.upperAddress request.start ++ "-" ++ Text.upperAddress request.stop
      ++ " (file " ++ Text.upperAddress file.fileOffset ++ ") as " ++ request.content.name

/-- The lines of the section, one for each record. -/
def lines (s : Section) : String :=
  String.join (s.records.map (Record.line s.bias))

/-- The text of a section with a given body. -/
def textWith (body : String) (s : Section) : String :=
  match s with
  | unbacked _ => s.heading ++ "\n"
  | backed _ _ _ => s.heading ++ "\n\n" ++ body ++ "\n"

/-- The functions that the vectors of the section declare: the non-zero targets of vectors that have
an interrupt number, with a name made of that number, in the order of decoding. -/
def vectorEntries (s : Section) : List (UInt32 × String) :=
  if s.content.isCode then []
  else s.records.filterMap fun record => do
    let flow ← record.flow
    let target ← flow.callTarget?
    let number ← interruptNumber? s.region.start record.address
    if target = 0 then none
    else some (target, "interrupt_0x" ++ Text.hexPadded 2 number ++ "_")

/-- What there is to report about the section. -/
def events (verbose : Bool) (s : Section) : List Event :=
  let notice := { severity := if verbose then .info else .debug, text := s.heading }
  match s with
  | unbacked _ => [notice]
  | backed request _ trace =>
    let realigned :=
      if request.start &&& 1 = 0 then []
      else [{ severity := .error, text := "odd start address " ++ Text.upperAddress request.start }]
    let truncated :=
      match trace.failure with
      | none => []
      | some failure =>
        let whole := widened request
        [{ severity := .error
           text := "range " ++ Text.upperAddress whole.start ++ "-" ++ Text.upperAddress whole.stop
             ++ " truncated at " ++ Text.upperAddress failure.address ++ ": "
             ++ failure.error.message }]
    notice :: realigned ++ truncated

end Section

end Disassembly
