import Disassembly.Proofs.DeclarationOrder
import Disassembly.Proofs.FunctionExtents
import Disassembly.Proofs.InstructionReads
import Disassembly.Proofs.VectorFunctions

/-!
# The end of the address space

Addresses wrap around silently at the end of the address space, but nothing that is decoded from an
image does. The last address holds no byte in any image, so whatever is read byte by byte from an
address on ends before it:

* **records** — an instruction, and every datum but a string, is read word by word
  (`Decoder.code_words`, `Decoder.datum_words`), and so ends at the last address at the latest
  (`Memory.end_le_last`);
* **walks** — a walk over code always finds an address for the next pass: it ends only at the end of
  the request or where decoding fails (`Trace.Walks.advances`);
* **functions** — the records that a function takes up ascend, so it never ends before its entry
  (`Outline.tiled_of_function`).
-/

namespace Disassembly

/-! ## Records -/

namespace Memory

variable {memory : Memory} {n : Nat} {a : UInt32}

theorem fetchMany_cons {w : UInt16} {ws : List UInt16} (hfirst : memory.fetch a = .ok w)
    (hrest : memory.fetchMany n (a + 2) = .ok ws) : memory.fetchMany (n + 1) a = .ok (w :: ws) := by
  rw [fetchMany, hfirst, hrest]
  rfl

/-- Words that can be read end before the last address, where that one holds no byte. -/
theorem end_le_last (hlast : memory 0xFFFFFFFF = none) {ws : List UInt16}
    (h : memory.fetchMany n a = .ok ws) : a.toNat + 2 * n ≤ 0xFFFFFFFF := by
  by_contra hpast
  have ha := a.toNat_lt
  have hmissing : memory.bytes? (2 * n) a = none := by
    refine (bytes?_eq_none_iff memory a (2 * n)).mpr ⟨0xFFFFFFFF - a.toNat, by omega, ?_⟩
    rw [add_ofNat_last, hlast]
  rw [bytes?_eq_of_fetchMany h] at hmissing
  cases hmissing

end Memory

namespace Decoder

variable {decoder : Decoder} {memory : Memory} {origin pc : UInt32} {record : Record}

/-- The words of an instruction are those in memory. -/
theorem code_words (h : decoder.code memory pc = .ok record) :
    memory.fetchMany record.words.length pc = .ok record.words := by
  obtain ⟨first, rest, hfirst, hrest, rfl⟩ := code_eq_ok h
  show memory.fetchMany (rest.length + 1) pc = .ok (first :: rest)
  rw [Memory.fetchMany_length hrest]
  exact Memory.fetchMany_cons hfirst hrest

/-- The words of a datum are those in memory. Only a string may have a byte of its own at the
end. -/
theorem datum_words {kind : DataKind} (hkind : kind ≠ .string)
    (h : decoder.datum memory origin kind pc = .ok record) :
    memory.fetchMany record.words.length pc = .ok record.words := by
  cases kind with
  | long | vector =>
      obtain ⟨hi, hhi, h⟩ := bind_eq_ok_iff.mp h
      obtain ⟨lo, hlo, h⟩ := bind_eq_ok_iff.mp h
      cases h
      exact Memory.fetchMany_cons hhi (Memory.fetchMany_cons hlo rfl)
  | word | bytes =>
      obtain ⟨w, hw, h⟩ := bind_eq_ok_iff.mp h
      cases h
      exact Memory.fetchMany_cons hw rfl
  | string => exact absurd rfl hkind

end Decoder

/-- A record whose words are those in memory ends within the address space. -/
theorem Record.LiesAt.end_le_last {memory : Memory} (hlast : memory 0xFFFFFFFF = none)
    {record : Record} {pc : UInt32} (hlies : record.LiesAt pc)
    (hwords : memory.fetchMany record.words.length pc = .ok record.words) :
    pc.toNat + record.size ≤ 0xFFFFFFFF := by
  rw [hlies.size]
  exact Memory.end_le_last hlast hwords

namespace Decoder

variable {decoder : Decoder} {image : Image} {origin pc : UInt32} {record : Record}

theorem code_end_le (h : decoder.code image.memory pc = .ok record) :
    pc.toNat + record.size ≤ 0xFFFFFFFF :=
  (code_shape h).end_le_last image.memory_last (code_words h)

theorem datum_end_le {kind : DataKind} (hkind : kind ≠ .string)
    (h : decoder.datum image.memory origin kind pc = .ok record) :
    pc.toNat + record.size ≤ 0xFFFFFFFF :=
  (datum_shape h).end_le_last image.memory_last (datum_words hkind h)

theorem pass_code_end_le {pass : Pass} (h : decoder.pass image.memory .code origin pc = .ok pass) :
    pc.toNat + pass.size ≤ 0xFFFFFFFF := by
  obtain ⟨record, hrecord, hrecords⟩ := pass_code h
  rw [Pass.size, hrecords]
  exact code_end_le hrecord

end Decoder

/-! ## Walks -/

/-- The course of a walk that finds an address after every pass: it ends only at the end of the
region or where the decoder fails. -/
inductive Trace.Advances (next : UInt32 → Except DecodeError Pass) (stop : UInt32) :
    UInt32 → List Pass → Option Trace.Failure → Prop
  | reached {pc : UInt32} : stop ≤ pc → Advances next stop pc [] none
  | failed {pc : UInt32} {error : DecodeError} : pc < stop → next pc = .error error →
      Advances next stop pc [] (some { address := pc, error })
  | advanced {pc after : UInt32} {pass : Pass} {passes : List Pass}
      {failure : Option Trace.Failure} : pc < stop → next pc = .ok pass →
      after.toNat = pc.toNat + pass.size → Advances next stop after passes failure →
      Advances next stop pc (pass :: passes) failure

/-- Where no pass runs off the address space, a walk always finds the next address. -/
theorem Trace.Walks.advances {next : UInt32 → Except DecodeError Pass} (hnext : GetsOn next)
    (hwithin : ∀ {pc pass}, next pc = .ok pass → pc.toNat + pass.size ≤ 0xFFFFFFFF)
    {stop pc : UInt32} {passes : List Pass} {failure : Option Failure}
    (hwalks : Walks next stop pc passes failure) : Advances next stop pc passes failure := by
  induction hwalks with
  | reached hle => exact .reached hle
  | failed hlt herror => exact .failed hlt herror
  | @wrapped pc pass hlt hpass hwrap =>
      have hpos := (hnext.size hpass).1
      have hend := hwithin hpass
      omega
  | @advanced pc after pass passes failure hlt hpass hafter _ _ ih =>
      have hend := hwithin hpass
      exact .advanced hlt hpass (by omega) ih

/-- The walk over a request for code. -/
theorem Section.advances_of_backed {decoder : Decoder} {image : Image} {layout : Layout}
    {request asked file : Region} {trace : Trace} (hcode : request.content = .code)
    (h : decode decoder image.memory layout asked = backed request file trace) :
    Trace.Advances (decoder.pass image.memory .code (evenDown request.start))
      (evenUp request.stop) (evenDown request.start) trace.passes trace.failure := by
  unfold decode at h
  split at h
  · cases h
  · cases h
    have hwalks := Trace.walk_nil_walks (decoder.pass image.memory request.content
      (evenDown request.start)) (evenUp request.stop) (evenDown request.start)
    rw [hcode] at hwalks ⊢
    exact hwalks.advances (Decoder.pass_getsOn ..) Decoder.pass_code_end_le

/-- Every pass of such a walk ends within the address space. -/
theorem Trace.Advances.end_le {next : UInt32 → Except DecodeError Pass} {stop pc : UInt32}
    {passes : List Pass} {failure : Option Failure} (h : Advances next stop pc passes failure)
    (hnext : GetsOn next) {pass : Pass} (hmem : pass ∈ passes) :
    pass.start.toNat + pass.size ≤ 0xFFFFFFFF := by
  induction h with
  | reached _ => cases hmem
  | failed _ _ => cases hmem
  | @advanced pc after pass passes failure _ hpass hafter _ ih =>
      rcases List.mem_cons.mp hmem with rfl | hmem
      · have hlt := after.toNat_lt
        rw [hnext.start hpass]
        omega
      · exact ih hmem

/-! ## Functions -/

/-- All code of a job over an image ends within the address space. -/
theorem Job.codeRecords_fit {image : Image} {job : Job} (hmemory : job.memory = image.memory)
    {record : Record} (h : record ∈ job.codeRecords) : record.Fits := by
  have hcode := code_of_mem_codeRecords h
  rw [hmemory] at hcode
  exact Nat.lt_succ_of_le (Decoder.code_end_le hcode)

/-- No function of a job over an image ends before its entry. -/
theorem Job.entry_le_stop {image : Image} {job : Job} (hmemory : job.memory = image.memory)
    {outline : Outline} (houtline : job.run.outline = some outline) {a : UInt32} {f : Function}
    (hf : outline.functions[a]? = some f) : f.entry = a ∧ f.entry ≤ f.stop := by
  have hflag : job.flags.outline = true := by
    by_contra hnone
    simp [run, hnone] at houtline
  rw [outline_run hflag] at houtline
  cases houtline
  have hfits : ∀ r ∈ (Code.ofRecords job.codeRecords).records, r.Fits := by
    intro r hr
    obtain ⟨_, hr⟩ := (Code.mem_records _ r).mp hr
    exact codeRecords_fit hmemory (Code.address_of_getElem?_ofRecords hr).2
  obtain rfl := (Outline.mem_functionsAt_of_function hf).1
  obtain ⟨⟨_, _, htiles⟩, _⟩ := Outline.tiled_of_function hfits hf
  exact ⟨rfl, UInt32.le_iff_toNat_le.mpr htiles.le⟩

/-- **The end of the address space.** Whatever the image, the layout, the declared names and the
output flags: an instruction ends at the last address at the latest, and so does every datum that is
not a string, also in a run of data. So every pass over code has an address after it, the walk over
a request for code ends only where the request ends or where decoding fails, and no function ends
before its entry. -/
theorem code_never_wraps (image : Image) (layout : Layout) (symbols : Symbols)
    (flags : OutputFlags) :
    let decoder := Decoder.standard flags.style symbols
    let job : Job := { memory := image.memory, layout, symbols, flags }
    (∀ pc record, decoder.code image.memory pc = .ok record →
      record.address = pc ∧ pc.toNat + record.size ≤ 2 ^ 32 - 1) ∧
    (∀ origin kind pc record, kind ≠ .string →
      decoder.datum image.memory origin kind pc = .ok record →
      record.address = pc ∧ pc.toNat + record.size ≤ 2 ^ 32 - 1) ∧
    (∀ origin kinds pc records, decoder.data image.memory origin kinds pc = .ok records →
      List.Forall₂ (fun kind record => kind ≠ .string →
        record.address.toNat + record.size ≤ 2 ^ 32 - 1) kinds records) ∧
    (∀ request file trace, .backed request file trace ∈ job.run.sections →
      request.content.isCode = true →
      (∀ pass ∈ trace.passes, pass.start.toNat + pass.size ≤ 2 ^ 32 - 1) ∧
      Trace.Advances (decoder.pass image.memory .code (evenDown request.start))
        (evenUp request.stop) (evenDown request.start) trace.passes trace.failure) ∧
    ∀ outline, job.run.outline = some outline → ∀ (a : UInt32) (f : Function),
      outline.functions[a]? = some f → f.entry = a ∧ f.entry ≤ f.stop := by
  intro decoder job
  refine ⟨?_, ?_, ?_, ?_, ?_⟩
  · intro pc record h
    exact ⟨(Decoder.code_shape h).address, Decoder.code_end_le h⟩
  · intro origin kind pc record hkind h
    exact ⟨(Decoder.datum_shape h).address, Decoder.datum_end_le hkind h⟩
  · intro origin kinds pc records h
    exact (Decoder.data_items h).imp fun _ _ h hkind => Decoder.datum_end_le hkind h
  · intro request file trace hsection hcode
    obtain ⟨asked, _, hdecode⟩ := List.mem_map.mp hsection
    have hadvances := Section.advances_of_backed (Content.eq_code_of_isCode hcode) hdecode
    exact ⟨fun pass hpass => hadvances.end_le (Decoder.pass_getsOn ..) hpass, hadvances⟩
  · intro outline houtline a f hf
    exact Job.entry_le_stop rfl houtline hf

/-- A call and a return at the very end of an image that reaches as far as an image can, and half an
instruction behind them: the walk fails one address before the last, and the function that is called
ends there. -/
theorem code_never_wraps_last :
    let image := Image.ofBytes 0xFFFFFFFA #[0xD0, 0x00, 0x97, 0x20, 0x9F]
    let request : Region := { start := 0xFFFFFFFA, stop := 0xFFFFFFFF }
    let job : Job :=
      { memory := image.memory, layout := { files := .ofList [request] }, symbols := ∅
        flags := { outline := true } }
    ∃ trace outline f, job.run.sections = [.backed request request trace] ∧
      trace.failure = some ⟨0xFFFFFFFE, .outOfImage 0xFFFFFFFE⟩ ∧ trace.passes.length = 2 ∧
      (∀ pass ∈ trace.passes, pass.start.toNat + pass.size ≤ 2 ^ 32 - 1) ∧
      job.run.outline = some outline ∧ outline.functions[(0xFFFFFFFC : UInt32)]? = some f ∧
      f.stop = 0xFFFFFFFE ∧ f.entry ≤ f.stop := by
  intro image request job
  let call : Record :=
    { address := 0xFFFFFFFA, words := [0xD000], size := 2, text := "CALL    0xFFFFFFFC"
      isCode := true
      flow := some
        { kind := .call, target := some 0xFFFFFFFC, unconditional := false, delayed := false } }
  let ret : Record :=
    { address := 0xFFFFFFFC, words := [0x9720], size := 2, text := "RET", isCode := true
      flow := some { kind := .ret, target := none, unconditional := true, delayed := false } }
  let trace : Trace :=
    { passes := [⟨0xFFFFFFFA, [call]⟩, ⟨0xFFFFFFFC, [ret]⟩]
      failure := some ⟨0xFFFFFFFE, .outOfImage 0xFFFFFFFE⟩ }
  have hsections : job.sections = [.backed request request trace] := by
    rw [Job.sections, Job.decoder, Decoder.standard_eq]
    decide +kernel
  have houtline : job.run.outline = some (job.outlineOf [.backed request request trace]) := by
    rw [← hsections]
    rfl
  have hf : (job.outlineOf [.backed request request trace]).functions[(0xFFFFFFFC : UInt32)]? =
      some { entry := 0xFFFFFFFC, stop := 0xFFFFFFFE, name := "function_FFFFFFFC" } := by
    decide +kernel
  obtain ⟨_, _, _, hwalks, hfunctions⟩ :=
    code_never_wraps image job.layout job.symbols job.flags
  have hmem : .backed request request trace ∈ job.run.sections := by
    show .backed request request trace ∈ job.sections
    rw [hsections]
    exact List.mem_singleton_self _
  exact ⟨trace, _, _, hsections, rfl, rfl, (hwalks _ _ _ hmem rfl).1, houtline, hf, rfl,
    (hfunctions _ houtline _ _ hf).2⟩

end Disassembly
