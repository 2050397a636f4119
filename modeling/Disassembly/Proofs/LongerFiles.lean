import Disassembly.Proofs.Coverage
import Disassembly.Proofs.FileOffsets
import Disassembly.Proofs.LosslessData
import Disassembly.Proofs.Requests
import Mathlib.Data.List.Infix

/-!
# Longer input files

Bytes at the end of the input file add to what is known of the memory, and change nothing that was
known before, as long as no two file regions have an address in common (`Layout.extendedBy_append`).
So what could be decoded without them is decoded to the same lines with them:

* **records** — where decoding succeeds, it succeeds in a memory that knows more, with the same
  record (`Decoder.code_continues`, `Decoder.data_continues`). Only the byte that fills a string up
  may be another one, and that is not shown without the column of words;
* **walks** — a walk makes the same passes, and goes on where it came upon a missing byte before
  (`Trace.Walks.continued`);
* **sections** — their lines are continued, and a complete section stays as it was
  (`Section.decode_continued`).
-/

namespace Disassembly

/-! ## Memories that know more -/

/-- Every byte that the first memory knows is the same in the second one. -/
def Memory.ExtendedBy (memory memory' : Memory) : Prop :=
  ∀ a b, memory a = some b → memory' a = some b

/-- The second computation succeeds wherever the first one does, with the same result up to `f`. -/
def Continues {ε α γ : Type} (f : α → γ) (x y : Except ε α) : Prop :=
  ∀ a, x = .ok a → ∃ b, y = .ok b ∧ f b = f a

theorem Continues.ok {ε α γ : Type} {f : α → γ} {a b : α} (h : f b = f a) :
    Continues f (.ok a : Except ε α) (.ok b) := by
  intro _ ha
  cases ha
  exact ⟨b, rfl, h⟩

/-- Computations that are continued one after the other. -/
theorem Continues.bind {ε α β γ δ : Type} {f : α → γ} {g : β → δ} {x y : Except ε α}
    {next next' : α → Except ε β} (hxy : Continues f x y)
    (hnext : ∀ a b, f b = f a → Continues g (next a) (next' b)) :
    Continues g (x >>= next) (y >>= next') := by
  intro c hc
  obtain ⟨a, ha, hc⟩ := bind_eq_ok_iff.mp hc
  obtain ⟨b, rfl, hb⟩ := hxy a ha
  exact hnext a b hb c hc

namespace Memory.ExtendedBy

variable {memory memory' : Memory} (h : memory.ExtendedBy memory')

include h

theorem half? {a : UInt32} {w : UInt16} (hw : memory.half? a = some w) :
    memory'.half? a = some w := by
  obtain ⟨hi, hhi, hw⟩ := Option.bind_eq_some_iff.mp hw
  obtain ⟨lo, hlo, hw⟩ := Option.bind_eq_some_iff.mp hw
  rw [half?_eq, h a hi hhi, Option.bind_some, h (a + 1) lo hlo]
  exact hw

theorem fetch (a : UInt32) : Continues id (memory.fetch a) (memory'.fetch a) := by
  intro w hw
  refine ⟨w, ?_, rfl⟩
  unfold Memory.fetch at hw ⊢
  split at hw
  · next hhalf =>
      rw [h.half? hhalf]
      exact hw
  · cases hw

theorem fetchMany (n : Nat) (a : UInt32) :
    Continues id (memory.fetchMany n a) (memory'.fetchMany n a) := by
  induction n generalizing a with
  | zero => exact .ok rfl
  | succ n ih =>
      refine (h.fetch a).bind ?_
      rintro w _ rfl
      refine (ih (a + 2)).bind ?_
      rintro ws _ rfl
      exact .ok rfl

theorem beforeZero? {seen characters : Array UInt8} {a : UInt32}
    (hscan : memory.beforeZero? seen a = some characters) :
    memory'.beforeZero? seen a = some characters := by
  fun_induction Memory.beforeZero? memory seen a with
  | case1 seen a hnone => cases hscan
  | case2 seen a hzero =>
      rw [Memory.beforeZero?, h a 0 hzero]
      exact hscan
  | case3 seen a b hbyte hne hlt ih =>
      rw [Memory.beforeZero?, h a b hbyte]
      simp only [hne, if_false, dif_pos hlt]
      exact ih hscan
  | case4 seen a b hbyte hne hlt => cases hscan

end Memory.ExtendedBy

/-! ## Images of longer files -/

/-- When no address lies in two file regions, it lies in one window at most. -/
theorem Layout.window_unique {layout : Layout}
    (hapart : layout.files.regions.Pairwise Region.Apart) {window window' : Window} {a : UInt32}
    (hmem : window ∈ layout.windows) (hmem' : window' ∈ layout.windows)
    (ha : window.start.toNat ≤ a.toNat ∧ a.toNat < window.stop.toNat)
    (ha' : window'.start.toNat ≤ a.toNat ∧ a.toNat < window'.stop.toNat) : window = window' := by
  rw [windows_eq] at hmem hmem'
  obtain ⟨r, hr, rfl⟩ := List.mem_map.mp hmem
  obtain ⟨r', hr', rfl⟩ := List.mem_map.mp hmem'
  by_contra hne
  have hdiffer : r ≠ r' := fun heq => hne (congrArg Region.window heq)
  have : Std.Symm Region.Apart := ⟨fun _ _ h => h.symm⟩
  exact hapart.forall hr hr' hdiffer a
    ⟨(r.contains_iff a).mpr ha, (r'.contains_iff a).mpr ha'⟩

theorem Layout.files_ne_nil {layout : Layout} {request : Region}
    (hbacked : layout.backing? request ≠ none) : layout.files.regions ≠ [] := by
  intro hnil
  rw [backing?, RegionMap.find?, hnil] at hbacked
  exact hbacked rfl

/-- A longer file places every byte that a shorter one does, when no address lies in two file
regions. -/
theorem Layout.extendedBy_append {layout : Layout} (hne : layout.files.regions ≠ [])
    (hapart : layout.files.regions.Pairwise Region.Apart) (file more : Array UInt8) :
    (Image.ofFile file layout.windows).memory.ExtendedBy
      (Image.ofFile (file ++ more) layout.windows).memory := by
  intro a b hb
  have hwindows : layout.windows ≠ [] := by
    rw [windows_eq]
    simpa using hne
  rw [Image.memory_ofFile hwindows] at hb ⊢
  obtain ⟨window, hfind, hb⟩ := Option.bind_eq_some_iff.mp hb
  have hsize : window.offsetOf a < file.size := (Array.getElem?_eq_some_iff.mp hb).1
  have hplaces := (window.places_iff file a).mp
    (List.find?_some (p := (Window.places · file a)) hfind)
  -- the window still places a byte at the address, and no other one can
  have hlonger : window.places (file ++ more) a = true := by
    rw [Window.places_iff, Array.size_append]
    omega
  obtain ⟨other, hother⟩ : ∃ other, layout.windows.find? (·.places (file ++ more) a) = some other :=
    Option.isSome_iff_exists.mp (List.find?_isSome.mpr
      ⟨window, List.mem_of_find?_eq_some hfind, hlonger⟩)
  have hsame : other = window := by
    have hplaces' := (other.places_iff (file ++ more) a).mp
      (List.find?_some (p := (Window.places · (file ++ more) a)) hother)
    exact layout.window_unique hapart (List.mem_of_find?_eq_some hother)
      (List.mem_of_find?_eq_some hfind) ⟨hplaces'.1, hplaces'.2.1⟩ ⟨hplaces.1, hplaces.2.1⟩
  rw [hother, Option.bind_some, hsame, Array.getElem?_append_left hsize]
  exact hb

/-! ## Records -/

/-- What a listing without the column of words shows of a record: all but its words. -/
def Record.shown (record : Record) : Record :=
  { record with words := [] }

def Pass.shown (pass : Pass) : Pass :=
  { pass with records := pass.records.map Record.shown }

@[simp]
theorem Record.shown_size (record : Record) : record.shown.size = record.size := rfl

@[simp]
theorem Record.shown_stop (record : Record) : record.shown.stop = record.stop := rfl

@[simp]
theorem Record.shown_line (bias : UInt32) (record : Record) :
    record.shown.line bias = record.line bias := rfl

@[simp]
theorem Pass.shown_size (pass : Pass) : pass.shown.size = pass.size := by
  simp only [size, shown, List.foldr_map, Record.shown_size]

theorem Pass.size_eq_of_shown_eq {pass pass' : Pass} (h : pass'.shown = pass.shown) :
    pass'.size = pass.size := by
  rw [← shown_size, h, shown_size]

/-- Without the column of words, a line does not depend on them. -/
theorem Style.line_words {style : Style} (hwords : style.rawWords = false)
    (words words' : List UInt16) (mnemonic operands : String) (comment : Option String) :
    style.line words mnemonic operands comment = style.line words' mnemonic operands comment := by
  simp only [line, hwords, Bool.false_eq_true, if_false]

namespace Decoder

theorem datumRecord_shown {decoder : Decoder} (hwords : decoder.style.rawWords = false)
    {words words' : List UInt16} (hlength : words.length = words'.length) {pc : UInt32}
    {mnemonic operands : String} {comment : Option String} {flow : Option Flow} :
    (decoder.datumRecord pc words mnemonic operands comment flow).shown =
      (decoder.datumRecord pc words' mnemonic operands comment flow).shown := by
  simp only [datumRecord, Record.shown, hlength, Style.line_words hwords words words']

/-- How many words a string takes depends on its characters alone. -/
theorem length_stringWords (memory memory' : Memory) (pc : UInt32) (characters : Array UInt8) :
    (Word.pairBytes (stringBytes memory pc characters)).length =
      (Word.pairBytes (stringBytes memory' pc characters)).length := by
  have hsize : (stringBytes memory pc characters).size =
      (stringBytes memory' pc characters).size := by
    rw [← Array.length_toList, ← Array.length_toList, toList_stringBytes, toList_stringBytes,
      List.length_append, List.length_append, List.length_cons, List.length_cons, length_padding,
      length_padding]
  rw [Word.pairBytes, Word.pairBytes, List.length_map, List.length_map, List.length_range,
    List.length_range, hsize]

variable {decoder : Decoder} {memory memory' : Memory} (h : memory.ExtendedBy memory')

include h

theorem code_continues (decoder : Decoder) (pc : UInt32) :
    Continues id (decoder.code memory pc) (decoder.code memory' pc) := by
  refine (h.fetch pc).bind ?_
  rintro first _ rfl
  refine (h.fetchMany _ _).bind ?_
  rintro rest _ rfl
  exact .ok rfl

/-- A string has the same characters, and so the same length; the byte that fills it up may be
another one. -/
theorem string_continues (hwords : decoder.style.rawWords = false) (pc : UInt32) :
    Continues Record.shown (decoder.string memory pc) (decoder.string memory' pc) := by
  intro record hrecord
  unfold string at hrecord ⊢
  split at hrecord
  · cases hrecord
  · next characters hscan =>
      cases hrecord
      rw [h.beforeZero? hscan]
      exact ⟨_, rfl, datumRecord_shown hwords (length_stringWords ..)⟩

theorem datum_continues (hwords : decoder.style.rawWords = false) (origin : UInt32)
    (kind : DataKind) (pc : UInt32) :
    Continues Record.shown (decoder.datum memory origin kind pc)
      (decoder.datum memory' origin kind pc) := by
  cases kind with
  | long | vector =>
      refine (h.fetch pc).bind ?_
      rintro hi _ rfl
      refine (h.fetch (pc + 2)).bind ?_
      rintro lo _ rfl
      exact .ok rfl
  | word | bytes =>
      refine (h.fetch pc).bind ?_
      rintro w _ rfl
      exact .ok rfl
  | string => exact string_continues h hwords pc

theorem data_continues (hwords : decoder.style.rawWords = false) (origin : UInt32)
    (kinds : List DataKind) (pc : UInt32) :
    Continues (List.map Record.shown) (decoder.data memory origin kinds pc)
      (decoder.data memory' origin kinds pc) := by
  induction kinds generalizing pc with
  | nil => exact .ok rfl
  | cons kind kinds ih =>
      refine (datum_continues h hwords origin kind pc).bind ?_
      intro record record' hrecord
      have hstop : record'.stop = record.stop := by
        rw [← Record.shown_stop, hrecord, Record.shown_stop]
      rw [hstop]
      refine (ih record.stop).bind ?_
      intro records records' hrecords
      exact .ok (by rw [List.map_cons, List.map_cons, hrecord, hrecords])

theorem pass_continues (hwords : decoder.style.rawWords = false) (content : Content)
    (origin pc : UInt32) :
    Continues Pass.shown (decoder.pass memory content origin pc)
      (decoder.pass memory' content origin pc) := by
  cases content with
  | code =>
      refine (code_continues h decoder pc).bind ?_
      rintro record _ rfl
      exact .ok rfl
  | data kinds =>
      refine (data_continues h hwords origin _ pc).bind ?_
      intro records records' hrecords
      exact .ok (congrArg (Pass.mk pc) hrecords)

end Decoder

/-! ## Walks -/

namespace Trace

variable {next next' : UInt32 → Except DecodeError Pass} {stop pc : UInt32}
  {passes passes' : List Pass} {failure failure' : Option Failure}

/-- A walk below the end that is given a pass makes it, and goes on behind it if it can. -/
theorem Walks.of_ok (hwalks : Walks next stop pc passes failure) (hlt : pc < stop) {pass : Pass}
    (hpass : next pc = .ok pass) :
    (¬ (pc.toNat < pc.toNat + pass.size % 0x100000000 ∧
        pc.toNat + pass.size % 0x100000000 < 0x100000000) ∧ passes = [pass] ∧ failure = none) ∨
      ∃ after rest, after.toNat = pc.toNat + pass.size % 0x100000000 ∧ pc < after ∧
        passes = pass :: rest ∧ Walks next stop after rest failure := by
  cases hwalks with
  | reached hle => exact absurd hlt (UInt32.not_lt.mpr hle)
  | failed _ herror =>
      rw [hpass] at herror
      cases herror
  | wrapped _ hpass' hwrap =>
      obtain rfl := Except.ok.inj (hpass.symm.trans hpass')
      exact .inl ⟨hwrap, rfl, rfl⟩
  | advanced _ hpass' hafter hlater hrest =>
      obtain rfl := Except.ok.inj (hpass.symm.trans hpass')
      exact .inr ⟨_, _, hafter, hlater, rfl, hrest⟩

theorem Walks.of_le (hwalks : Walks next stop pc passes failure) (hle : stop ≤ pc) :
    passes = [] ∧ failure = none := by
  cases hwalks with
  | reached _ => exact ⟨rfl, rfl⟩
  | failed hlt _ => exact absurd hlt (UInt32.not_lt.mpr hle)
  | wrapped hlt _ _ => exact absurd hlt (UInt32.not_lt.mpr hle)
  | advanced hlt _ _ _ _ => exact absurd hlt (UInt32.not_lt.mpr hle)

/-- A walk makes the passes again that it made with less memory, and when nothing was missing then,
it ends where it ended. -/
theorem Walks.continued (hnext : ∀ pc, Continues Pass.shown (next pc) (next' pc))
    (hwalks : Walks next stop pc passes failure) (hwalks' : Walks next' stop pc passes' failure') :
    passes.map Pass.shown <+: passes'.map Pass.shown ∧
      (failure = none → failure' = none ∧ passes'.map Pass.shown = passes.map Pass.shown) := by
  induction hwalks generalizing passes' failure' with
  | reached hle =>
      obtain ⟨rfl, rfl⟩ := hwalks'.of_le hle
      exact ⟨List.prefix_refl _, fun _ => ⟨rfl, rfl⟩⟩
  | failed _ _ => exact ⟨List.nil_prefix, fun hnone => by cases hnone⟩
  | @wrapped pc pass hlt hpass hwrap =>
      obtain ⟨pass', hpass', hshown⟩ := hnext pc pass hpass
      have hsize := Pass.size_eq_of_shown_eq hshown
      rcases hwalks'.of_ok hlt hpass' with ⟨_, rfl, rfl⟩ | ⟨after, rest, hafter, hlater, _, _⟩
      · rw [List.map_singleton, List.map_singleton, hshown]
        exact ⟨List.prefix_refl _, fun _ => ⟨rfl, rfl⟩⟩
      · -- the passes are of one length, so the other walk cannot go on either
        rw [UInt32.lt_iff_toNat_lt] at hlater
        have hbound := after.toNat_lt
        rw [hsize] at hafter
        omega
  | @advanced pc after pass passes failure hlt hpass hafter hlater _ ih =>
      obtain ⟨pass', hpass', hshown⟩ := hnext pc pass hpass
      have hsize := Pass.size_eq_of_shown_eq hshown
      rcases hwalks'.of_ok hlt hpass' with ⟨hwrap, _, _⟩ | ⟨after', rest, hafter', _, rfl, hrest⟩
      · rw [UInt32.lt_iff_toNat_lt] at hlater
        have hbound := after.toNat_lt
        rw [hsize] at hwrap
        omega
      · obtain rfl : after' = after := by
          rw [← UInt32.toNat_inj, hafter', hafter, hsize]
        obtain ⟨hrepeats, hcomplete⟩ := ih hrest
        rw [List.map_cons, List.map_cons, hshown]
        refine ⟨List.cons_prefix_cons.mpr ⟨rfl, hrepeats⟩, ?_⟩
        intro hnone
        obtain ⟨hnone', hsame⟩ := hcomplete hnone
        exact ⟨hnone', congrArg _ hsame⟩

/-- The lines of a trace are read off what its passes show. -/
theorem lines_eq (trace : Trace) (bias : UInt32) :
    trace.records.map (Record.line bias) =
      (trace.passes.map Pass.shown).flatMap fun pass => pass.records.map (Record.line bias) := by
  simp only [records, List.map_flatMap, List.flatMap_map, Pass.shown, List.map_map,
    Function.comp_def, Record.shown_line]

end Trace

/-! ## Sections -/

namespace Section

/-- The second section is for the same request, and it goes on where the first one was cut short: it
repeats its lines, and if there was nothing to add, it is the same section with the same text. -/
structure ContinuedBy (s s' : Section) : Prop where
  request : s'.request = s.request
  unbacked : s'.ending = .unbacked ↔ s.ending = .unbacked
  lines : s.records.map (Record.line s.bias) <+: s'.records.map (Record.line s'.bias)
  complete : s.ending = .complete → s'.ending = .complete ∧ s'.region = s.region ∧
    s'.textWith s'.lines = s.textWith s.lines

theorem ContinuedBy.refl (s : Section) : s.ContinuedBy s :=
  ⟨rfl, Iff.rfl, List.prefix_refl _, fun hcomplete => ⟨hcomplete, rfl, rfl⟩⟩

theorem ending_backed_eq_complete_iff (request file : Region) (trace : Trace) :
    (backed request file trace).ending = .complete ↔ trace.failure = none := by
  cases hfailure : trace.failure <;> simp [ending, hfailure]

theorem ending_backed_ne_unbacked (request file : Region) (trace : Trace) :
    (backed request file trace).ending ≠ .unbacked := by
  cases hfailure : trace.failure <;> simp [ending, hfailure]

theorem continuedBy_backed (request file : Region) {trace trace' : Trace}
    (hrepeats : trace.passes.map Pass.shown <+: trace'.passes.map Pass.shown)
    (hcomplete : trace.failure = none →
      trace'.failure = none ∧ trace'.passes.map Pass.shown = trace.passes.map Pass.shown) :
    (backed request file trace).ContinuedBy (backed request file trace') := by
  refine ⟨rfl, ?_, ?_, ?_⟩
  · exact iff_of_false (ending_backed_ne_unbacked _ _ _) (ending_backed_ne_unbacked _ _ _)
  · show trace.records.map (Record.line file.bias) <+: trace'.records.map (Record.line file.bias)
    rw [Trace.lines_eq, Trace.lines_eq]
    exact hrepeats.flatMap _
  · intro hending
    rw [ending_backed_eq_complete_iff] at hending ⊢
    obtain ⟨hending', hsame⟩ := hcomplete hending
    refine ⟨hending', ?_, ?_⟩
    · simp only [region, hending, hending']
    · have hlines : (backed request file trace').lines = (backed request file trace).lines := by
        show String.join (trace'.records.map (Record.line file.bias)) =
          String.join (trace.records.map (Record.line file.bias))
        rw [Trace.lines_eq, Trace.lines_eq, hsame]
      rw [hlines]
      rfl

/-- A section is continued in a memory that knows more. -/
theorem decode_continued {decoder : Decoder} (hwords : decoder.style.rawWords = false)
    {memory memory' : Memory} {layout : Layout} {request : Region}
    (h : layout.backing? request ≠ none → memory.ExtendedBy memory') :
    (decode decoder memory layout request).ContinuedBy
      (decode decoder memory' layout request) := by
  unfold decode
  cases hbacking : layout.backing? request with
  | none => exact .refl _
  | some file =>
      have hextended : memory.ExtendedBy memory' := h (by simp [hbacking])
      obtain ⟨hrepeats, hcomplete⟩ := (Trace.walk_nil_walks _ _ _).continued
        (Decoder.pass_continues hextended hwords request.content (evenDown request.start))
        (Trace.walk_nil_walks _ (evenUp request.stop) _)
      exact continuedBy_backed request file hrepeats hcomplete

end Section

/-- Without an outline, every section is written in the order of decoding. -/
theorem Job.sectionText_run {job : Job} (houtline : job.flags.outline = false) (s : Section) :
    job.run.sectionText s = s.textWith s.lines := by
  simp only [Listing.sectionText, run, houtline, Bool.false_eq_true, if_false]

/-- **Longer files.** Whatever is declared, as long as no address lies in two file regions, and
whatever the flags are, but without outline and without the column of words: bytes at the end of the
input file never take back what a listing showed without them. The sections correspond one by one;
the lines of each are the first lines of the one with the longer file; and a section that was
complete stays complete, with the same region and the same text. -/
theorem longer_file_continues_listing (layout : Layout)
    (hapart : layout.files.regions.Pairwise Region.Apart) (symbols : Symbols) (flags : OutputFlags)
    (houtline : flags.outline = false) (hwords : flags.rawWords = false)
    (file more : Array UInt8) :
    let run (bytes : Array UInt8) : Listing :=
      Job.run { memory := (Image.ofFile bytes layout.windows).memory, layout, symbols, flags }
    List.Forall₂
      (fun s s' => s.ContinuedBy s' ∧ (s.ending = .complete →
        (run (file ++ more)).sectionText s' = (run file).sectionText s))
      (run file).sections (run (file ++ more)).sections := by
  intro run
  show List.Forall₂ _ (layout.requests.map _) (layout.requests.map _)
  rw [List.forall₂_map_left_iff, List.forall₂_map_right_iff, List.forall₂_same]
  intro request _
  have hstyle : (Decoder.standard flags.style symbols).style.rawWords = false := hwords
  have hcontinued := Section.decode_continued hstyle
    fun hbacked : layout.backing? request ≠ none =>
      layout.extendedBy_append (layout.files_ne_nil hbacked) hapart file more
  refine ⟨hcontinued, ?_⟩
  intro hcomplete
  rw [Job.sectionText_run houtline, Job.sectionText_run houtline]
  exact (hcontinued.complete hcomplete).2.2

/-- Two file regions show the same bytes, as code and as a string. The file ends within the third
instruction and behind the terminator of the string; three more bytes continue the code, and change
the byte that fills the string up. -/
theorem longer_file_continues_listing_padding :
    let first : Region := { start := 0x100, stop := 0x110 }
    let second : Region := { start := 0x200, stop := 0x210 }
    let layout : Layout :=
      { files := .ofList [first, second]
        contents := .ofList [{ start := 0x100, stop := 0x108 },
          { start := 0x202, stop := 0x206, content := .data [.string] }] }
    let run (bytes : Array UInt8) : Listing :=
      Job.run { memory := (Image.ofFile bytes layout.windows).memory, layout, symbols := ∅
                flags := {} }
    let file : Array UInt8 := #[0x9F, 0xA0, 0x41, 0x42, 0x00]
    let more : Array UInt8 := #[0xFF, 0x97, 0x20]
    layout.files.regions.Pairwise Region.Apart ∧
      (run file).sections.map Section.ending =
        [.cutShort ⟨0x104, .outOfImage 0x104⟩, .complete] ∧
      (run (file ++ more)).sections.map Section.ending = [.complete, .complete] ∧
      List.Forall₂
        (fun s s' => s.ContinuedBy s' ∧ (s.ending = .complete →
          (run (file ++ more)).sectionText s' = (run file).sectionText s))
        (run file).sections (run (file ++ more)).sections := by
  intro first second layout run file more
  have hregions : layout.files.regions = [first, second] := by decide
  have hapart : layout.files.regions.Pairwise Region.Apart := by
    rw [hregions]
    exact List.pairwise_pair.mpr (Region.apart_of_not_overlaps (by decide))
  refine ⟨hapart, ?_, ?_, longer_file_continues_listing layout hapart ∅ {} rfl rfl file more⟩
  · show (Job.sections _).map _ = _
    rw [Job.sections, Job.decoder, Decoder.standard_eq]
    decide +kernel
  · show (Job.sections _).map _ = _
    rw [Job.sections, Job.decoder, Decoder.standard_eq]
    decide +kernel

end Disassembly
