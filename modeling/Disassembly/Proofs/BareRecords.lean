import Disassembly.Listing
import Disassembly.Proofs.Coverage

/-!
# What decoding does not depend on

Declared names and the style of a listing are handed to every step of decoding, but they only decide
how a record is written. Taking the text off the records leaves what was decoded:

* **decoders** — two decoders that find the same descriptors fail alike and decode the same bare
  records (`Decoder.code_bare`, `Decoder.data_bare`);
* **walks** — bare passes have the same lengths, so a walk makes the same steps whether the text is
  taken off before or after it (`Trace.bare_walk`);
* **sections** — all that a section says about its request, and the functions that its vectors
  declare, can be read off the bare section (`Section.decode_bare`, `Section.vectorEntries_bare`).
-/

namespace Disassembly

/-! ## Taking the text off -/

/-- The record without its written form. -/
def Record.bare (record : Record) : Record :=
  { record with text := "" }

def Pass.bare (pass : Pass) : Pass :=
  { pass with records := pass.records.map Record.bare }

def Trace.bare (trace : Trace) : Trace :=
  { trace with passes := trace.passes.map Pass.bare }

def Section.bare : Section → Section
  | unbacked request => unbacked request
  | backed request file trace => backed request file trace.bare

namespace Record

@[simp]
theorem bare_address (record : Record) : record.bare.address = record.address := rfl

@[simp]
theorem bare_size (record : Record) : record.bare.size = record.size := rfl

@[simp]
theorem bare_flow (record : Record) : record.bare.flow = record.flow := rfl

@[simp]
theorem bare_stop (record : Record) : record.bare.stop = record.stop := rfl

end Record

/-- Two computations that agree up to `f` and go on alike, up to `g`, agree up to `g`. -/
theorem map_bind_congr {ε α β γ δ : Type} {f : α → γ} {g : β → δ} {x y : Except ε α}
    {next next' : α → Except ε β} (hxy : x.map f = y.map f)
    (hnext : ∀ a b, f a = f b → (next a).map g = (next' b).map g) :
    (x >>= next).map g = (y >>= next').map g := by
  cases x with
  | error e =>
      cases y with
      | error e' =>
          cases hxy
          rfl
      | ok b => cases hxy
  | ok a =>
      cases y with
      | error e' => cases hxy
      | ok b => exact hnext a b (Except.ok.inj hxy)

/-! ## Decoders -/

namespace Decoder

variable {decoder decoder' : Decoder}

/-- Two decoders that find the same descriptors decode the same instruction, up to its text. -/
theorem code_bare (hfind : decoder.find = decoder'.find) (memory : Memory) (pc : UInt32) :
    (decoder.code memory pc).map Record.bare = (decoder'.code memory pc).map Record.bare := by
  have hdescriptor : decoder.descriptor = decoder'.descriptor := by
    funext first
    rw [descriptor, descriptor, hfind]
  refine map_bind_congr (f := id) rfl ?_
  rintro first _ rfl
  rw [hdescriptor]
  refine map_bind_congr (f := id) rfl ?_
  rintro rest _ rfl
  rfl

/-- A datum is decoded alike by all decoders, up to its text. -/
theorem datum_bare (decoder decoder' : Decoder) (memory : Memory) (origin : UInt32)
    (kind : DataKind) (pc : UInt32) :
    (decoder.datum memory origin kind pc).map Record.bare =
      (decoder'.datum memory origin kind pc).map Record.bare := by
  cases kind with
  | long | vector =>
      refine map_bind_congr (f := id) rfl ?_
      rintro hi _ rfl
      refine map_bind_congr (f := id) rfl ?_
      rintro lo _ rfl
      rfl
  | word | bytes =>
      refine map_bind_congr (f := id) rfl ?_
      rintro w _ rfl
      rfl
  | string =>
      show (decoder.string memory pc).map Record.bare = (decoder'.string memory pc).map Record.bare
      unfold string
      cases memory.beforeZero? #[] pc with
      | none => rfl
      | some characters => rfl

/-- A run of data is decoded alike by all decoders: the next datum starts where the last one ended,
and that does not depend on its text. -/
theorem data_bare (decoder decoder' : Decoder) (memory : Memory) (origin : UInt32)
    (kinds : List DataKind) (pc : UInt32) :
    (decoder.data memory origin kinds pc).map (List.map Record.bare) =
      (decoder'.data memory origin kinds pc).map (List.map Record.bare) := by
  induction kinds generalizing pc with
  | nil => rfl
  | cons kind kinds ih =>
      refine map_bind_congr (datum_bare decoder decoder' memory origin kind pc) ?_
      intro record record' hrecord
      have hstop : record.stop = record'.stop := by
        rw [← Record.bare_stop record, hrecord, Record.bare_stop]
      rw [hstop]
      refine map_bind_congr (ih record'.stop) ?_
      intro records records' hrecords
      show Except.ok (record.bare :: records.map Record.bare) = _
      rw [hrecord, hrecords]
      rfl

theorem pass_bare (hfind : decoder.find = decoder'.find) (memory : Memory) (content : Content)
    (origin pc : UInt32) :
    (decoder.pass memory content origin pc).map Pass.bare =
      (decoder'.pass memory content origin pc).map Pass.bare := by
  cases content with
  | code =>
      refine map_bind_congr (code_bare hfind memory pc) ?_
      intro record record' hrecord
      show Except.ok ({ start := pc, records := [record.bare] } : Pass) = _
      rw [hrecord]
      rfl
  | data kinds =>
      refine map_bind_congr (data_bare decoder decoder' memory origin _ pc) ?_
      intro records records' hrecords
      show Except.ok ({ start := pc, records := records.map Record.bare } : Pass) = _
      rw [hrecords]
      rfl

end Decoder

/-! ## Walks -/

@[simp]
theorem Pass.bare_size (pass : Pass) : pass.bare.size = pass.size := by
  simp only [size, bare, List.foldr_map, Record.bare_size]

theorem Trace.bare_records (trace : Trace) :
    trace.bare.records = trace.records.map Record.bare := by
  simp only [records, bare, List.flatMap_map, List.map_flatMap, Pass.bare]

/-- Walking over bare passes is the same as walking and taking the text off afterwards. -/
theorem Trace.bare_walk (next : UInt32 → Except DecodeError Pass) (stop : UInt32)
    (done : Array Pass) (pc : UInt32) :
    (walk next stop done pc).bare =
      walk (fun pc => (next pc).map Pass.bare) stop (done.map Pass.bare) pc := by
  fun_induction walk next stop done pc with
  | case1 done pc hlt error herror =>
      rw [walk]
      simp [hlt, herror, Except.map, bare]
  | case2 done pc hlt pass hpass after h ih =>
      rw [ih, Array.map_push]
      conv_rhs => rw [walk]
      simp only [hlt, if_true, hpass, Except.map, Pass.bare_size]
      rw [dif_pos h]
  | case3 done pc hlt pass hpass after h =>
      rw [walk]
      simp only [hlt, if_true, hpass, Except.map, Pass.bare_size]
      rw [dif_neg h]
      simp [bare]
  | case4 done pc hle =>
      rw [walk]
      simp [hle, bare]

/-! ## Sections -/

namespace Section

@[simp]
theorem request_bare (s : Section) : s.bare.request = s.request := by
  cases s <;> rfl

@[simp]
theorem region_bare (s : Section) : s.bare.region = s.region := by
  cases s <;> rfl

@[simp]
theorem fileOffset?_bare (s : Section) : s.bare.fileOffset? = s.fileOffset? := by
  cases s <;> rfl

@[simp]
theorem bias_bare (s : Section) : s.bare.bias = s.bias := by
  cases s <;> rfl

@[simp]
theorem oddStart?_bare (s : Section) : s.bare.oddStart? = s.oddStart? := by
  cases s <;> rfl

@[simp]
theorem ending_bare (s : Section) : s.bare.ending = s.ending := by
  cases s <;> rfl

@[simp]
theorem content_bare (s : Section) : s.bare.content = s.content := by
  rw [content, content, request_bare]

theorem records_bare (s : Section) : s.bare.records = s.records.map Record.bare := by
  cases s with
  | unbacked _ => rfl
  | backed _ _ trace => exact trace.bare_records

/-- The functions that vectors declare are named by their numbers, not by what is written. -/
theorem vectorEntries_bare (s : Section) : s.bare.vectorEntries = s.vectorEntries := by
  unfold vectorEntries
  rw [content_bare, region_bare, records_bare, List.filterMap_map]
  rfl

/-- Two decoders that find the same descriptors decode the same section, up to its text. -/
theorem decode_bare {decoder decoder' : Decoder} (hfind : decoder.find = decoder'.find)
    (memory : Memory) (layout : Layout) (request : Region) :
    (decode decoder memory layout request).bare =
      (decode decoder' memory layout request).bare := by
  unfold decode
  cases layout.backing? request with
  | none => rfl
  | some file =>
      have hpass := funext fun pc =>
        Decoder.pass_bare hfind memory request.content (evenDown request.start) pc
      show backed request file (Trace.walk _ _ _ _).bare =
        backed request file (Trace.walk _ _ _ _).bare
      rw [Trace.bare_walk, Trace.bare_walk, hpass]

end Section

end Disassembly
