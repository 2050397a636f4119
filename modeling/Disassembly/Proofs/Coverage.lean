import Disassembly.Listing
import Disassembly.Proofs.Addresses
import Disassembly.Proofs.Decoding

/-!
# Coverage of a request

Decoding a request leaves no gap and visits nothing twice:

* **the walk** — `Trace.Walks` says what one round of the walk can do, and `Trace.walk_walks` that
  the walk does nothing else;
* **the chain** — passes of positive even length that stay below `2 ^ 32` bytes form a
  `Trace.Chain`: each one starts where the one before it has ended (`Trace.Walks.chain`);
* **the end** — a walk without failure has passed the end of the region, and one with a failure has
  come exactly up to the address where the decoder fails (`Trace.Walks.finish`).

`run_sections_traverse` puts this together for all sections of a listing.
-/

namespace Disassembly

/-! ## The rounds of a walk -/

/-- The course of a walk from `pc` on: the passes it makes and the failure that ends it. -/
inductive Trace.Walks (next : UInt32 → Except DecodeError Pass) (stop : UInt32) :
    UInt32 → List Pass → Option Trace.Failure → Prop
  | reached {pc : UInt32} : stop ≤ pc → Walks next stop pc [] none
  | failed {pc : UInt32} {error : DecodeError} : pc < stop → next pc = .error error →
      Walks next stop pc [] (some { address := pc, error })
  | wrapped {pc : UInt32} {pass : Pass} : pc < stop → next pc = .ok pass →
      ¬ (pc.toNat < pc.toNat + pass.size % 0x100000000 ∧
        pc.toNat + pass.size % 0x100000000 < 0x100000000) →
      Walks next stop pc [pass] none
  | advanced {pc after : UInt32} {pass : Pass} {passes : List Pass}
      {failure : Option Trace.Failure} : pc < stop → next pc = .ok pass →
      after.toNat = pc.toNat + pass.size % 0x100000000 → pc < after →
      Walks next stop after passes failure → Walks next stop pc (pass :: passes) failure

namespace Trace

theorem walk_walks (next : UInt32 → Except DecodeError Pass) (stop : UInt32)
    (done : Array Pass) (pc : UInt32) :
    ∃ passes, (walk next stop done pc).passes = done.toList ++ passes ∧
      Walks next stop pc passes (walk next stop done pc).failure := by
  fun_induction walk next stop done pc with
  | case1 done pc hlt error herror =>
      exact ⟨[], (List.append_nil _).symm, .failed hlt herror⟩
  | case2 done pc hlt pass hpass after h ih =>
      obtain ⟨passes, hpasses, hwalks⟩ := ih
      have hafter : (UInt32.ofNat after).toNat = after := UInt32.toNat_ofNat_of_lt' h.2
      have hlater : pc < UInt32.ofNat after := by
        rw [UInt32.lt_iff_toNat_lt, hafter]
        exact h.1
      refine ⟨pass :: passes, ?_, .advanced hlt hpass hafter hlater hwalks⟩
      rw [hpasses, Array.toList_push, List.append_assoc, List.singleton_append]
  | case3 done pc hlt pass hpass after h =>
      exact ⟨[pass], Array.toList_push .., .wrapped hlt hpass h⟩
  | case4 done pc hle =>
      exact ⟨[], (List.append_nil _).symm, .reached (UInt32.not_lt.mp hle)⟩

/-- The walk that starts without passes. -/
theorem walk_nil_walks (next : UInt32 → Except DecodeError Pass) (stop pc : UInt32) :
    Walks next stop pc (walk next stop #[] pc).passes (walk next stop #[] pc).failure := by
  obtain ⟨passes, hpasses, hwalks⟩ := walk_walks next stop #[] pc
  rw [hpasses]
  exact hwalks

/-- Every pass of a walk was given by the decoder at an address below the end. -/
theorem Walks.exists_next {next : UInt32 → Except DecodeError Pass} {stop pc : UInt32}
    {passes : List Pass} {failure : Option Failure} (hwalks : Walks next stop pc passes failure)
    {pass : Pass} (hmem : pass ∈ passes) : ∃ a, a < stop ∧ next a = .ok pass := by
  induction hwalks with
  | reached _ => exact absurd hmem List.not_mem_nil
  | failed _ _ => exact absurd hmem List.not_mem_nil
  | wrapped hlt hpass _ =>
      rw [List.mem_singleton.mp hmem]
      exact ⟨_, hlt, hpass⟩
  | advanced hlt hpass _ _ _ ih =>
      rcases List.mem_cons.mp hmem with rfl | hmem
      · exact ⟨_, hlt, hpass⟩
      · exact ih hmem

/-! ## Chains of passes -/

/-- A chain of passes from an address on, without gap and without overlap: every pass is what the
decoder gives at an even address below `stop`, it has a positive even length, and the next one
starts where it ends. -/
inductive Chain (next : UInt32 → Except DecodeError Pass) (stop : Nat) : Nat → List Pass → Prop
  | nil {a : Nat} : Chain next stop a []
  | cons {pass : Pass} {passes : List Pass} : next pass.start = .ok pass →
      pass.start.toNat % 2 = 0 → pass.start.toNat < stop → 0 < pass.size → pass.size % 2 = 0 →
      Chain next stop (pass.start.toNat + pass.size) passes →
      Chain next stop pass.start.toNat (pass :: passes)

/-- The length in bytes of a list of passes. -/
def totalSize (passes : List Pass) : Nat :=
  passes.foldr (fun pass n => pass.size + n) 0

@[simp]
theorem totalSize_nil : totalSize [] = 0 := rfl

@[simp]
theorem totalSize_cons (pass : Pass) (passes : List Pass) :
    totalSize (pass :: passes) = pass.size + totalSize passes := rfl

/-- A pass of a chain lies between the start of the chain and the address it has come to. -/
theorem Chain.bounds {next : UInt32 → Except DecodeError Pass} {stop a : Nat}
    {passes : List Pass} (hchain : Chain next stop a passes) {pass : Pass} (hmem : pass ∈ passes) :
    a ≤ pass.start.toNat ∧ pass.start.toNat < stop ∧
      pass.start.toNat < a + totalSize passes := by
  induction hchain with
  | nil => exact absurd hmem List.not_mem_nil
  | cons _ _ hstop hpos _ _ ih =>
      rw [totalSize_cons]
      rcases List.mem_cons.mp hmem with rfl | hmem
      · omega
      · have hrest := ih hmem
        omega

/-- The passes of a chain start at ascending addresses. -/
theorem Chain.ascending {next : UInt32 → Except DecodeError Pass} {stop a : Nat}
    {passes : List Pass} (hchain : Chain next stop a passes) :
    passes.Pairwise fun p q => p.start < q.start := by
  induction hchain with
  | nil => exact List.Pairwise.nil
  | cons _ _ _ hpos _ hrest ih =>
      refine List.pairwise_cons.mpr ⟨?_, ih⟩
      intro later hlater
      have hbounds := hrest.bounds hlater
      rw [UInt32.lt_iff_toNat_lt]
      omega

/-- A decoder that gets on: its passes start where they are asked for and have a positive even
length. -/
structure GetsOn (next : UInt32 → Except DecodeError Pass) : Prop where
  start : ∀ {pc pass}, next pc = .ok pass → pass.start = pc
  size : ∀ {pc pass}, next pc = .ok pass → 0 < pass.size ∧ pass.size % 2 = 0

variable {next : UInt32 → Except DecodeError Pass} {stop pc : UInt32} {passes : List Pass}
  {failure : Option Failure}

/-- The passes of a walk from an even address form a chain. -/
theorem Walks.chain (hnext : GetsOn next) (hwalks : Walks next stop pc passes failure)
    (heven : pc.toNat % 2 = 0) (hshort : ∀ pass ∈ passes, pass.size < 0x100000000) :
    Chain next stop.toNat pc.toNat passes := by
  induction hwalks with
  | reached _ => exact .nil
  | failed _ _ => exact .nil
  | @wrapped pc pass hlt hpass _ =>
      obtain ⟨hpos, hsize⟩ := hnext.size hpass
      obtain rfl := hnext.start hpass
      exact .cons hpass heven (UInt32.lt_iff_toNat_lt.mp hlt) hpos hsize .nil
  | @advanced pc after pass passes failure hlt hpass hafter _ _ ih =>
      obtain ⟨hpos, hsize⟩ := hnext.size hpass
      obtain rfl := hnext.start hpass
      rw [Nat.mod_eq_of_lt (hshort pass List.mem_cons_self)] at hafter
      have hrest := ih (by omega) fun p hp => hshort p (List.mem_cons_of_mem pass hp)
      rw [hafter] at hrest
      exact .cons hpass heven (UInt32.lt_iff_toNat_lt.mp hlt) hpos hsize hrest

/-- What the end of a walk that has come up to `reached` means: it is past `stop`, or it is where
the decoder fails. -/
def EndsAt (next : UInt32 → Except DecodeError Pass) (stop : UInt32) (reached : Nat) :
    Option Failure → Prop
  | none => stop.toNat ≤ reached
  | some f => f.address.toNat = reached ∧ f.address < stop ∧ next f.address = .error f.error

/-- A walk ends where its passes have come to. -/
theorem Walks.finish (hnext : GetsOn next) (hwalks : Walks next stop pc passes failure)
    (hshort : ∀ pass ∈ passes, pass.size < 0x100000000) :
    EndsAt next stop (pc.toNat + totalSize passes) failure := by
  induction hwalks with
  | reached hle => exact UInt32.le_iff_toNat_le.mp hle
  | failed hlt herror => exact ⟨rfl, hlt, herror⟩
  | @wrapped pc pass hlt hpass hwrap =>
      -- a short pass that does not advance the walk runs off the address space
      have hpos := (hnext.size hpass).1
      rw [Nat.mod_eq_of_lt (hshort pass List.mem_cons_self)] at hwrap
      have hstop := stop.toNat_lt
      simp only [EndsAt, totalSize_cons, totalSize_nil]
      omega
  | @advanced pc after pass passes failure _ hpass hafter _ _ ih =>
      have hrest := ih fun p hp => hshort p (List.mem_cons_of_mem pass hp)
      rw [Nat.mod_eq_of_lt (hshort pass List.mem_cons_self)] at hafter
      rw [totalSize_cons, ← Nat.add_assoc, ← hafter]
      exact hrest

end Trace

/-! ## Sections -/

namespace Section

/-- The passes that were made for a section. -/
def passes : Section → List Pass
  | unbacked _ => []
  | backed _ _ trace => trace.passes

/-- The section accounts for its request: its passes are a chain from the even address at or before
the start of the request, and it ends where the chain has come to. -/
structure Traverses (next : UInt32 → Except DecodeError Pass) (start stop : Nat) (s : Section) :
    Prop where
  chain : Trace.Chain next stop start s.passes
  complete : s.ending = .complete → s.region.start.toNat = start ∧ s.region.stop.toNat = stop ∧
    stop ≤ start + Trace.totalSize s.passes
  cutShort : ∀ failure, s.ending = .cutShort failure → s.region.start.toNat = start ∧
    s.region.stop = failure.address ∧
    failure.address.toNat = start + Trace.totalSize s.passes ∧ failure.address.toNat < stop ∧
    next failure.address = .error failure.error

/-- A section over a file region traverses its request, when the decoder gets on and its passes are
short. -/
theorem traverses_backed {next : UInt32 → Except DecodeError Pass} (hnext : Trace.GetsOn next)
    (request file : Region)
    (hshort : ∀ pass ∈ (Trace.walk next (evenUp request.stop) #[] (evenDown request.start)).passes,
      pass.size < 0x100000000) :
    Traverses next (request.start.toNat / 2 * 2)
      (min ((request.stop.toNat + 1) / 2 * 2) 0xFFFFFFFF)
      (backed request file
        (Trace.walk next (evenUp request.stop) #[] (evenDown request.start))) := by
  have hwalks := Trace.walk_nil_walks next (evenUp request.stop) (evenDown request.start)
  generalize Trace.walk next (evenUp request.stop) #[] (evenDown request.start) = trace at *
  have hfinish := hwalks.finish hnext hshort
  rw [← toNat_evenDown, ← toNat_evenUp]
  refine ⟨?_, ?_, ?_⟩
  · apply hwalks.chain hnext _ hshort
    rw [toNat_evenDown]
    omega
  · intro hending
    cases hfailure : trace.failure with
    | some failure => simp [ending, hfailure] at hending
    | none =>
        rw [hfailure] at hfinish
        simp only [region, hfailure, widened, passes]
        exact ⟨trivial, trivial, hfinish⟩
  · intro failure hending
    cases hfailure : trace.failure with
    | none => simp [ending, hfailure] at hending
    | some f =>
        obtain rfl : f = failure := by simpa [ending, hfailure] using hending
        rw [hfailure] at hfinish
        obtain ⟨haddress, hlt, herror⟩ := hfinish
        -- the failing address is not below the start, so the region ends exactly there
        have hmax : max f.address (evenDown request.start) = f.address := by
          rw [← UInt32.toNat_inj, toNat_max]
          omega
        simp only [region, hfailure, widened, passes, hmax]
        exact ⟨trivial, trivial, haddress, UInt32.lt_iff_toNat_lt.mp hlt, herror⟩

/-- The section of a request is made for that request. -/
@[simp]
theorem request_decode (decoder : Decoder) (memory : Memory) (layout : Layout)
    (request : Region) : (decode decoder memory layout request).request = request := by
  unfold decode
  split <;> rfl

theorem region_start_backed (request file : Region) (trace : Trace) :
    (backed request file trace).region.start = evenDown request.start := by
  simp only [region]
  split <;> rfl

theorem ending_decode_eq_unbacked_iff (decoder : Decoder) (memory : Memory) (layout : Layout)
    (request : Region) :
    (decode decoder memory layout request).ending = .unbacked ↔
      layout.backing? request = none := by
  unfold decode
  split
  · next h => simp [ending, h]
  · next file h =>
      simp only [ending, h]
      split <;> simp

end Section

/-! ## Listings -/

theorem Decoder.pass_getsOn (decoder : Decoder) (memory : Memory) (content : Content)
    (origin : UInt32) : Trace.GetsOn (decoder.pass memory content origin) :=
  ⟨Decoder.pass_start, Decoder.pass_size⟩

/-- The section of a request that a file region lies behind. Passes over code are always short, so
only those over data have to be. -/
theorem Section.traverses_decode {style : Style} {symbols : Symbols} {memory : Memory}
    {layout : Layout} {request : Region} (hbacked : layout.backing? request ≠ none)
    (hshort : request.content.isCode = false →
      ∀ pass ∈ (decode (.standard style symbols) memory layout request).passes,
        pass.size < 0x100000000) :
    Traverses
      ((Decoder.standard style symbols).pass memory request.content (evenDown request.start))
      (request.start.toNat / 2 * 2) (min ((request.stop.toNat + 1) / 2 * 2) 0xFFFFFFFF)
      (decode (.standard style symbols) memory layout request) := by
  obtain ⟨file, hfile⟩ := Option.ne_none_iff_exists'.mp hbacked
  simp only [decode, hfile] at hshort ⊢
  apply traverses_backed (Decoder.pass_getsOn ..)
  cases hcontent : request.content with
  | data kinds =>
      rw [hcontent] at hshort
      exact hshort rfl
  | code =>
      intro pass hmem
      obtain ⟨_, _, hpass⟩ := (Trace.walk_nil_walks _ _ _).exists_next hmem
      have hle := Decoder.standard_code_pass_size_le hpass
      omega

/-- **Coverage.** A listing has one section for each request of the layout, in the same order. The
sections of requests without a file region are marked so; every other one is decoded in a chain of
passes that starts at the even address at or before the start of the request. The section is
complete when the chain has reached the even address at or after the end of the request, and is cut
short exactly where the decoder fails otherwise. Nothing is assumed but that no pass over data
spans the whole address space. -/
theorem run_sections_traverse (job : Job)
    (hshort : ∀ s ∈ job.run.sections, s.content.isCode = false →
      ∀ pass ∈ s.passes, pass.size < 0x100000000) :
    job.run.sections.map Section.request = job.layout.requests ∧
      ∀ s ∈ job.run.sections,
        (s.ending = .unbacked ↔ job.layout.backing? s.request = none) ∧
        (job.layout.backing? s.request ≠ none →
          s.Traverses (job.decoder.pass job.memory s.content (evenDown s.request.start))
            (s.request.start.toNat / 2 * 2)
            (min ((s.request.stop.toNat + 1) / 2 * 2) 0xFFFFFFFF)) := by
  refine ⟨?_, ?_⟩
  · show (job.layout.requests.map _).map Section.request = _
    rw [List.map_map]
    exact List.map_id'' (fun request => Section.request_decode _ _ _ request) _
  · intro s hs
    obtain ⟨request, hrequest, rfl⟩ := List.mem_map.mp hs
    have hshort := hshort _ hs
    rw [Section.ending_decode_eq_unbacked_iff, Section.content, Section.request_decode] at *
    exact ⟨Iff.rfl, fun hbacked => Section.traverses_decode hbacked hshort⟩

/-- Both ends of a request are odd, and a string that the memory does not end cuts it short. -/
theorem run_sections_traverse_odd_string :
    let request : Region := { start := 1, stop := 7, content := .data [.word, .string] }
    let job : Job :=
      { memory := (Image.ofBytes 0 #[0x12, 0x34, 0x41, 0x00, 0x56, 0x78, 0x42]).memory
        layout := { files := .ofList [{ start := 0, stop := 16 }], contents := .ofList [request] }
        symbols := ∅
        flags := {} }
    (∀ s ∈ job.run.sections, s.content.isCode = false →
      ∀ pass ∈ s.passes, pass.size < 0x100000000) ∧
    (job.run.sections.map Section.request = [request] ∧
      ∀ s ∈ job.run.sections, s.ending = .cutShort ⟨4, .unterminated 6⟩ ∧
        s.Traverses (job.decoder.pass job.memory s.content 0) 0 8) := by
  intro request job
  have hshort : ∀ s ∈ job.run.sections, s.content.isCode = false →
      ∀ pass ∈ s.passes, pass.size < 0x100000000 := by decide +kernel
  have hending : ∀ s ∈ job.run.sections, s.ending = .cutShort ⟨4, .unterminated 6⟩ := by
    decide +kernel
  obtain ⟨hrequests, htraverses⟩ := run_sections_traverse job hshort
  refine ⟨hshort, hrequests, ?_⟩
  intro s hs
  have hrequest : s.request = request := by
    have hmem : s.request ∈ job.layout.requests := hrequests ▸ List.mem_map_of_mem hs
    exact List.mem_singleton.mp hmem
  have hbacked : job.layout.backing? s.request ≠ none := by
    rw [hrequest]
    decide
  have horigin : evenDown request.start = 0 := by decide
  have hstart : request.start.toNat / 2 * 2 = 0 := by decide
  have hstop : min ((request.stop.toNat + 1) / 2 * 2) 0xFFFFFFFF = 8 := by decide
  have htraverse := (htraverses s hs).2 hbacked
  rw [hrequest, horigin, hstart, hstop] at htraverse
  exact ⟨hending s hs, htraverse⟩

end Disassembly
