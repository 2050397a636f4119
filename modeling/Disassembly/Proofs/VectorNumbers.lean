import Disassembly.Proofs.OutlineNames
import Disassembly.Proofs.Requests

/-!
# The numbers of interrupt vectors

The vectors of a table are numbered from its start downwards, both where the listing shows them and
in the names of the functions that they declare. What counts as the start is where the section
starts, and that is the start of the table only if the section was not cut out of it.

* **cuts** — every request is a base region or the part of one that a selected region covers
  (`Layout.requests_eq`);
* **records** — the vectors of a section lie four bytes apart from its start on, and each is decoded
  with that start as its origin (`Section.vector_of_mem_records`);
* **names** — a vector declares its target under its number, unless one before it has declared it
  (`Section.declaration?_eq`).
-/

namespace Disassembly

/-! ## Vectors -/

/-- The number of the vector at an address, in a table that starts at `origin`. -/
def vectorNumber (origin a : UInt32) : Nat :=
  (0x3FC - (a.toNat - origin.toNat)) / 4

/-- The name of the function that a vector declares. -/
def interruptName (n : Nat) : String :=
  "interrupt_0x" ++ Text.hexPadded 2 n ++ "_"

/-- A vector has a number as long as it lies in the table; its offset wraps around. -/
theorem interruptNumber?_eq_ite (origin a : UInt32) :
    interruptNumber? origin a =
      if (a - origin).toNat ≤ 0x3FC then some ((0x3FC - (a - origin).toNat) / 4) else none := by
  have hzero : interruptZero.toNat = 0x3FC := rfl
  have htop : a - origin ≤ interruptZero ↔ (a - origin).toNat ≤ 0x3FC := by
    rw [UInt32.le_iff_toNat_le, hzero]
  unfold interruptNumber?
  dsimp only
  by_cases hbelow : a - origin ≤ interruptZero
  · rw [if_pos hbelow, if_pos (htop.mp hbelow), UInt32.toNat_sub_of_le _ _ hbelow, hzero]
  · rw [if_neg hbelow, if_neg (mt htop.mpr hbelow)]

theorem interruptNumber?_eq {origin a : UInt32} (hle : origin.toNat ≤ a.toNat)
    (htop : a.toNat - origin.toNat ≤ 0x3FC) :
    interruptNumber? origin a = some (vectorNumber origin a) := by
  have hoffset : (a - origin).toNat = a.toNat - origin.toNat :=
    UInt32.toNat_sub_of_le _ _ (UInt32.le_iff_toNat_le.mpr hle)
  rw [interruptNumber?_eq_ite, hoffset, if_pos htop, vectorNumber]

theorem Memory.half?_of_fetch {memory : Memory} {a : UInt32} {w : UInt16}
    (h : memory.fetch a = .ok w) : memory.half? a = some w := by
  unfold fetch at h
  split at h
  · next hhalf =>
      cases h
      exact hhalf
  · cases h

namespace Decoder

variable {decoder : Decoder} {memory : Memory} {origin pc : UInt32} {record : Record}

/-- What a vector is made of: its target is the word in memory. -/
theorem vector_eq_ok (h : decoder.vector memory origin pc = .ok record) :
    ∃ target, memory.word? pc = some target ∧ record.address = pc ∧ record.size = 4 ∧
      record.flow.bind Flow.callTarget? = some target ∧
      record.text = decoder.style.line record.words "dl"
        (decoder.style.address decoder.symbols target).1
        (decoder.vectorComment origin pc (decoder.style.address decoder.symbols target).2) := by
  obtain ⟨hi, hhi, h⟩ := bind_eq_ok_iff.mp h
  obtain ⟨lo, hlo, h⟩ := bind_eq_ok_iff.mp h
  cases h
  refine ⟨Word.ofHalves hi lo, ?_, rfl, rfl, rfl, rfl⟩
  rw [Memory.word?, Memory.half?_of_fetch hhi, Memory.half?_of_fetch hlo]
  rfl

theorem vectorComment_eq {n : Nat} (h : interruptNumber? origin pc = some n)
    (comment : Option String) : decoder.vectorComment origin pc comment =
      some ("interrupt " ++ decoder.style.numberWide 2 n
        ++ (comment.map (" " ++ ·)).getD "") := by
  cases comment with
  | none => simp [vectorComment, h]
  | some c => simp [vectorComment, h, String.append_assoc]

theorem pass_vector {pass : Pass} (h : decoder.pass memory (.data [.vector]) origin pc = .ok pass) :
    ∃ record, decoder.vector memory origin pc = .ok record ∧ pass.records = [record] := by
  obtain ⟨records, hrecords, h⟩ := bind_eq_ok_iff.mp h
  cases h
  obtain ⟨record, hrecord, hrest⟩ := bind_eq_ok_iff.mp hrecords
  obtain ⟨nothing, hnothing, hrecords⟩ := bind_eq_ok_iff.mp hrest
  cases hnothing
  cases hrecords
  exact ⟨record, hrecord, rfl⟩

theorem pass_vector_size {pass : Pass}
    (h : decoder.pass memory (.data [.vector]) origin pc = .ok pass) : pass.size = 4 := by
  obtain ⟨record, hrecord, hrecords⟩ := pass_vector h
  obtain ⟨_, _, _, hsize, _⟩ := vector_eq_ok hrecord
  rw [Pass.size, hrecords, List.foldr_cons, hsize]
  rfl

end Decoder

/-- Passes of one size lie at multiples of it. -/
theorem Trace.Walks.exists_multiple {next : UInt32 → Except DecodeError Pass} {stop pc : UInt32}
    {passes : List Pass} {failure : Option Failure} (hwalks : Walks next stop pc passes failure)
    (hsize : ∀ a pass, next a = .ok pass → pass.size = 4) {pass : Pass} (hmem : pass ∈ passes) :
    ∃ a k, next a = .ok pass ∧ a.toNat = pc.toNat + 4 * k := by
  induction hwalks with
  | reached _ => exact absurd hmem List.not_mem_nil
  | failed _ _ => exact absurd hmem List.not_mem_nil
  | @wrapped pc _ _ hpass _ =>
      rw [List.mem_singleton.mp hmem]
      exact ⟨pc, 0, hpass, rfl⟩
  | @advanced pc after first _ _ _ hpass hafter _ _ ih =>
      rcases List.mem_cons.mp hmem with rfl | hmem
      · exact ⟨pc, 0, hpass, rfl⟩
      · obtain ⟨a, k, ha, hk⟩ := ih hmem
        have hfour := hsize pc first hpass
        exact ⟨a, k + 1, ha, by omega⟩

namespace Section

variable {decoder : Decoder} {memory : Memory} {layout : Layout} {request : Region}
  {record : Record}

theorem vector_of_mem_records (hcontent : request.content = .data [.vector])
    (h : record ∈ (decode decoder memory layout request).records) :
    (decode decoder memory layout request).region.start = evenDown request.start ∧
      decoder.vector memory (evenDown request.start) record.address = .ok record ∧
      ∃ k, record.address.toNat = (evenDown request.start).toNat + 4 * k := by
  unfold decode at h ⊢
  cases hfile : layout.backing? request with
  | none =>
      rw [hfile] at h
      cases h
  | some file =>
      rw [hfile] at h
      refine ⟨region_start_backed _ _ _, ?_⟩
      dsimp only at h
      rw [hcontent] at h
      obtain ⟨pass, hpass, hrecord⟩ := List.mem_flatMap.mp h
      have hwalks := Trace.walk_nil_walks
        (decoder.pass memory (.data [.vector]) (evenDown request.start)) (evenUp request.stop)
        (evenDown request.start)
      obtain ⟨a, k, hnext, hk⟩ :=
        hwalks.exists_multiple (fun _ _ => Decoder.pass_vector_size) hpass
      obtain ⟨vector, hvector, hrecords⟩ := Decoder.pass_vector hnext
      rw [hrecords] at hrecord
      obtain rfl := List.mem_singleton.mp hrecord
      obtain ⟨_, _, haddress, _⟩ := Decoder.vector_eq_ok hvector
      rw [haddress]
      exact ⟨hvector, k, hk⟩

/-- The function that one record of the section declares. -/
def declaration? (s : Section) (record : Record) : Option (UInt32 × String) := do
  let target ← record.flow.bind Flow.callTarget?
  let number ← interruptNumber? s.region.start record.address
  if target = 0 then none else some (target, interruptName number)

theorem vectorEntries_eq {s : Section} (h : s.content.isCode = false) :
    s.vectorEntries = s.records.filterMap s.declaration? := by
  rw [vectorEntries, h, if_neg Bool.false_ne_true]
  congr 1
  funext record
  cases hflow : record.flow with
  | none => simp [declaration?, hflow]
  | some flow => simp [declaration?, hflow, interruptName]

theorem declaration?_eq {s : Section} {target : UInt32} {n : Nat}
    (hflow : record.flow.bind Flow.callTarget? = some target)
    (hnumber : interruptNumber? s.region.start record.address = some n) (hne : target ≠ 0) :
    s.declaration? record = some (target, interruptName n) := by
  simp [declaration?, hflow, hnumber, hne]

end Section

namespace Job

/-! ## Listings -/

/-- The record is written as an interrupt vector with a number. -/
def ShowsVector (job : Job) (n : Nat) (record : Record) : Prop :=
  ∃ target, job.memory.word? record.address = some target ∧
    record.text = job.flags.style.line record.words "dl"
      (job.flags.style.address job.symbols target).1
      (some ("interrupt " ++ job.flags.style.numberWide 2 n
        ++ ((job.flags.style.address job.symbols target).2.map (" " ++ ·)).getD ""))

/-- The target of the vector at an address is a function and a label named after a number, unless it
is zero, or the user or one of the `earlier` declarations has named it. -/
def NamesVector (job : Job) (n : Nat) (earlier : List (UInt32 × String)) (a : UInt32) : Prop :=
  ∀ target, job.memory.word? a = some target → target ≠ 0 → job.symbols[target]? = none →
    (∀ d ∈ earlier, d.1 ≠ target) → job.flags.outline = true →
      ∃ outline f, job.run.outline = some outline ∧
        outline.labels[target]? = some (interruptName n) ∧
        outline.functions[target]? = some f ∧ f.name = interruptName n

variable {job : Job} {before after : List Section} {s : Section} {done rest : List Record}
  {record : Record} {n : Nat} {target : UInt32}

/-- The vectors of a section that was cut out of a table. -/
theorem vector_of_cut {m : Region} (hs : s ∈ job.sections) (hcut : s.request ∈ job.layout.cuts m)
    (hcontent : m.content = .data [.vector]) (hrecord : record ∈ s.records) :
    s.content = .data [.vector] ∧ s.region.start = evenDown s.request.start ∧
      job.decoder.vector job.memory s.region.start record.address = .ok record ∧
      ∃ k, record.address.toNat = s.region.start.toNat + 4 * k := by
  obtain ⟨request, _, rfl⟩ := List.mem_map.mp hs
  rw [Section.request_decode] at hcut ⊢
  have hrequest : request.content = .data [.vector] :=
    (Layout.of_mem_cuts hcut).1.trans hcontent
  obtain ⟨hstart, hvector, hk⟩ := Section.vector_of_mem_records hrequest hrecord
  rw [Section.content, Section.request_decode, hstart]
  exact ⟨hrequest, rfl, hvector, hk⟩

/-- A vector declares its target after the sections and the records before it. -/
theorem vectorEntries_split (hsections : job.sections = before ++ s :: after)
    (hdata : s.content.isCode = false) (hrecords : s.records = done ++ record :: rest)
    (hentry : s.declaration? record = some (target, interruptName n)) :
    ∃ later, job.vectorEntries =
      (before.flatMap Section.vectorEntries ++ done.filterMap s.declaration?) ++
        (target, interruptName n) :: later := by
  rw [vectorEntries, hsections, List.flatMap_append, List.flatMap_cons,
    Section.vectorEntries_eq hdata, hrecords, List.filterMap_append,
    List.filterMap_cons_some hentry]
  exact ⟨rest.filterMap s.declaration? ++ after.flatMap Section.vectorEntries, by simp⟩

theorem showsVector_of_vector {origin : UInt32}
    (hvector : job.decoder.vector job.memory origin record.address = .ok record)
    (hnumber : interruptNumber? origin record.address = some n) : job.ShowsVector n record := by
  obtain ⟨target, hword, _, _, _, htext⟩ := Decoder.vector_eq_ok hvector
  refine ⟨target, hword, ?_⟩
  rw [htext, Decoder.vectorComment_eq hnumber]
  rfl

theorem namesVector_of_vector (hsections : job.sections = before ++ s :: after)
    (hdata : s.content.isCode = false) (hrecords : s.records = done ++ record :: rest)
    (hvector : job.decoder.vector job.memory s.region.start record.address = .ok record)
    (hnumber : interruptNumber? s.region.start record.address = some n) :
    job.NamesVector n
      (before.flatMap Section.vectorEntries ++ done.filterMap s.declaration?)
      record.address := by
  intro target hword hne hsymbol hfirst hflag
  obtain ⟨target', hword', _, _, hflow, _⟩ := Decoder.vector_eq_ok hvector
  obtain rfl : target' = target := Option.some.inj (hword'.symm.trans hword)
  have hentry := Section.declaration?_eq hflow hnumber hne
  have hdeclared : (Entries.ofDeclarations job.vectorEntries)[target']? =
      some (interruptName n) := by
    obtain ⟨later, hentries⟩ := vectorEntries_split hsections hdata hrecords hentry
    rw [hentries, Entries.getElem?_ofDeclarations_first hfirst]
  obtain ⟨hlabel, f, hf, hname⟩ := Outline.named_of_declared hdeclared hsymbol
  exact ⟨_, f, outline_run hflag, hlabel, hf, hname⟩

end Job

/-- Interrupt vectors are numbered from the start of the section that they are decoded in, in the
listing and in the names of their targets. That is the number in their table if and only if the
section starts where the table does, as it always does when nothing is selected. -/
theorem vectors_numbered_from_section_start (job : Job) :
    job.layout.requests = job.layout.base.flatMap job.layout.cuts ∧
    ∀ m : Region, m.start.toNat % 2 = 0 → m.content = .data [.vector] →
    ∀ before s after, job.run.sections = before ++ s :: after → s.request ∈ job.layout.cuts m →
    ∀ done record rest, s.records = done ++ record :: rest →
      m.start ≤ s.region.start ∧ s.region.start ≤ record.address ∧
      (job.layout.selected.isEmpty = true → s.region.start = m.start) ∧
      (record.address.toNat - s.region.start.toNat ≤ 0x3FC →
        job.ShowsVector (vectorNumber s.region.start record.address) record ∧
        job.NamesVector (vectorNumber s.region.start record.address)
          (before.flatMap Section.vectorEntries ++ done.filterMap s.declaration?)
          record.address) ∧
      (record.address.toNat - m.start.toNat ≤ 0x3FC →
        (vectorNumber s.region.start record.address = vectorNumber m.start record.address ↔
          s.region.start = m.start)) := by
  refine ⟨job.layout.requests_eq, ?_⟩
  intro m heven hcontent before s after hsections hcut done record rest hrecords
  have hs : s ∈ job.sections := by
    rw [show job.sections = _ from hsections]
    exact List.mem_append_right _ List.mem_cons_self
  have hrecord : record ∈ s.records := by
    rw [hrecords]
    exact List.mem_append_right _ List.mem_cons_self
  obtain ⟨hvectors, hstart, hvector, k, hk⟩ := Job.vector_of_cut hs hcut hcontent hrecord
  obtain ⟨_, hcutStart, hwhole⟩ := Layout.of_mem_cuts hcut
  have horigin : s.region.start.toNat = s.request.start.toNat / 2 * 2 := by
    rw [hstart, toNat_evenDown]
  have hle : m.start.toNat ≤ s.region.start.toNat := by omega
  refine ⟨UInt32.le_iff_toNat_le.mpr hle, ?_, ?_, ?_, ?_⟩
  · rw [UInt32.le_iff_toNat_le]
    omega
  · intro hempty
    rw [← UInt32.toNat_inj, horigin, hwhole hempty]
    omega
  · intro htop
    have hnumber := interruptNumber?_eq (by omega) htop
    have hdata : s.content.isCode = false := by
      rw [hvectors]
      rfl
    exact ⟨Job.showsVector_of_vector hvector hnumber,
      Job.namesVector_of_vector hsections hdata hrecords hvector hnumber⟩
  · intro htop
    -- vectors lie four bytes apart, so a later start always gives another number
    rw [← UInt32.toNat_inj, vectorNumber, vectorNumber]
    omega

/-- A selected region that starts one byte into the table: the section still starts with the table,
and its second vector has the number that it has there. -/
theorem vectors_numbered_from_section_start_odd_cut :
    let m : Region := { start := 0, stop := 0x400, content := .data [.vector] }
    let job : Job :=
      { memory := (Image.ofBytes 0 #[0, 0, 0, 0x20, 0, 0, 0, 0x10]).memory
        layout :=
          { files := .ofList [{ start := 0, stop := 8 }]
            contents := .ofList [m]
            selected := .ofList [{ start := 1, stop := 8 }] }
        symbols := ∅
        flags := { outline := true } }
    ∃ s first record, job.run.sections = [s] ∧ s.records = [first, record] ∧
      record.address = 4 ∧ job.ShowsVector 0xFE record ∧
      job.NamesVector 0xFE [(0x20, "interrupt_0xFF_")] 4 := by
  intro m job
  obtain ⟨s, hsections⟩ : ∃ s, job.run.sections = [s] := by
    have hlength : job.run.sections.length = 1 := by decide +kernel
    exact List.length_eq_one_iff.mp hlength
  have hs : s ∈ job.run.sections := by
    rw [hsections]
    exact List.mem_cons_self
  have hall : ∀ s ∈ job.run.sections, s.request ∈ job.layout.cuts m ∧ s.region.start = 0 ∧
      s.records.map (·.address) = [0, 4] ∧
      (s.records.take 1).filterMap s.declaration? = [(0x20, "interrupt_0xFF_")] := by
    decide +kernel
  obtain ⟨hcut, hstart, haddresses, hentries⟩ := hall s hs
  obtain ⟨first, others, hfirst, _, hothers⟩ := List.map_eq_cons_iff.mp haddresses
  obtain ⟨record, rest, rfl, haddress, hrest⟩ := List.map_eq_cons_iff.mp hothers
  obtain rfl := List.map_eq_nil_iff.mp hrest
  obtain ⟨_, hvectors⟩ := vectors_numbered_from_section_start job
  obtain ⟨_, _, _, hnumbers, _⟩ :=
    hvectors m (by decide) rfl [] s [] hsections hcut [first] record [] hfirst
  rw [hstart, haddress] at hnumbers
  obtain ⟨hshows, hnames⟩ := hnumbers (by decide)
  rw [hfirst] at hentries
  refine ⟨s, first, record, hsections, hfirst, haddress, hshows, ?_⟩
  rw [← hentries]
  exact hnames

/-- A selected region that starts at the third vector of a table: that vector is shown and named as
if it were the first. -/
theorem vectors_renumbered_by_selection :
    let m : Region := { start := 0, stop := 0x400, content := .data [.vector] }
    let job : Job :=
      { memory := (Image.ofBytes 0 #[0, 0, 0, 0, 0, 0, 0, 0, 0, 0, 0, 0x10, 0, 0, 0, 0]).memory
        layout :=
          { files := .ofList [{ start := 0, stop := 16 }]
            contents := .ofList [m]
            selected := .ofList [{ start := 8, stop := 12 }] }
        symbols := ∅
        flags := { outline := true } }
    job.layout.base = [m] ∧ vectorNumber m.start 8 = 0xFD ∧
      (∃ s ∈ job.run.sections, s.request ∈ job.layout.cuts m ∧ ∃ record ∈ s.records,
        record.address = 8 ∧ record.text = "dl      0x00000010  ; interrupt 0xFF" ∧
        ¬ job.ShowsVector 0xFD record) ∧
      ¬ job.NamesVector 0xFD [] 8 := by
  intro m job
  have hword : job.memory.word? 8 = some 0x10 := by decide +kernel
  refine ⟨by decide +kernel, by decide, ?_, ?_⟩
  · have hrecord : ∃ s ∈ job.run.sections, s.request ∈ job.layout.cuts m ∧
        ∃ record ∈ s.records, record.address = 8 ∧ record.words = [0, 0x10] ∧
          record.text = "dl      0x00000010  ; interrupt 0xFF" := by
      decide +kernel
    obtain ⟨s, hs, hcut, record, hmem, haddress, hwords, htext⟩ := hrecord
    refine ⟨s, hs, hcut, record, hmem, haddress, htext, ?_⟩
    rintro ⟨target, htarget, hshown⟩
    rw [haddress, hword] at htarget
    cases htarget
    rw [htext, hwords] at hshown
    revert hshown
    decide +kernel
  · intro hnames
    obtain ⟨outline, _, hrun, hlabel, _⟩ :=
      hnames 0x10 hword (by decide) (by decide +kernel) (by simp) rfl
    have hactual : job.run.outline.bind (·.labels[(0x10 : UInt32)]?) =
        some "interrupt_0xFF_" := by decide +kernel
    rw [hrun, Option.bind_some, hlabel] at hactual
    revert hactual
    decide +kernel

end Disassembly
