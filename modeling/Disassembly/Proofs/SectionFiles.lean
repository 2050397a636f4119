import Mathlib.Data.List.Nodup
import Disassembly.ListingFile
import Disassembly.Proofs.Coverage
import Disassembly.Proofs.FileSets
import Disassembly.Proofs.Numerals

/-!
# The files of sections

A section that is written to a file of its own is known there by its start alone.

* **names** — the files of all sections lie in one directory (`components_sectionPath`), and two of
  them are the same file only for the same start (`sectionPath_inj`);
* **starts** — a section starts where it was asked for, or at the even address before that if a file
  region lies behind it (`Section.region_start_decode`). So two sections can start together although
  their regions are apart, or because one region is declared or selected twice;
* **contents** — of the sections that start together, the file has the one that was written last
  (`readText_last`).
-/

namespace Disassembly

/-! ## File names -/

namespace Path

variable {path : List Char}

/-- What stands before a name that is added to a path. -/
def IsLead (lead : List Char) : Prop :=
  lead = [] ∨ ∃ before, lead = before ++ ['/']

theorem push_eq (path : List Char) :
    ∃ lead, IsLead lead ∧ ∀ name, push path name = lead ++ name := by
  unfold push
  split
  · exact ⟨[], .inl rfl, fun name => rfl⟩
  · next hlast =>
      obtain ⟨before, rfl⟩ := List.getLast?_eq_some_iff.mp hlast
      exact ⟨before ++ ['/'], .inr ⟨before, rfl⟩, fun name => rfl⟩
  · refine ⟨path ++ ['/'], .inr ⟨path, rfl⟩, ?_⟩
    intro name
    rw [List.append_assoc]
    rfl

theorem withFileName_eq (path : List Char) :
    ∃ lead, IsLead lead ∧ ∀ name, withFileName path name = lead ++ name := by
  unfold withFileName
  split
  · exact push_eq _
  · exact push_eq _

theorem mem_pieces_of_mem_split {piece : List Char} (h : piece ∈ (split path).2) :
    piece ∈ Text.pieces '/' path := by
  unfold split at h
  split at h
  · next hpieces =>
      rw [hpieces]
      exact .tail _ h
  · next hpieces =>
      rw [hpieces]
      exact .tail _ h
  · exact h

theorem slash_not_mem_fileName {name : List Char} (h : fileName? path = some name) :
    '/' ∉ name := by
  obtain ⟨hlast, _⟩ := Option.filter_eq_some_iff.mp h
  have hmem : name ∈ dropIdle (split path).2 := List.mem_of_getLast? hlast
  have hpiece : name ∈ (split path).2 := by
    rw [dropIdle, List.mem_reverse] at hmem
    exact List.mem_reverse.mp ((List.dropWhile_sublist _).mem hmem)
  exact Text.not_mem_of_mem_pieces (mem_pieces_of_mem_split hpiece)

theorem mem_of_mem_stem {name : List Char} {c : Char} (h : c ∈ stem name) : c ∈ name := by
  unfold stem at h
  split at h
  · exact h
  · next first before hdrop =>
      split at h
      · exact h
      · have hmem : c ∈ name.reverse.dropWhile (· ≠ '.') := by
          rw [hdrop]
          exact .tail _ (List.mem_reverse.mp h)
        exact List.mem_reverse.mp ((List.dropWhile_sublist _).mem hmem)

end Path

theorem FileSet.components_lead {lead : List Char} (h : Path.IsLead lead) :
    ∃ front, ∀ name : String, '/' ∉ name.toList →
      components (String.ofList (lead ++ name.toList)) = front ++ [name] := by
  rcases h with rfl | ⟨before, rfl⟩
  · refine ⟨[], ?_⟩
    intro name hname
    rw [components, String.toList_ofList, List.nil_append, Text.pieces_of_not_mem hname]
    simp
  · refine ⟨(Text.pieces '/' before).map String.ofList, ?_⟩
    intro name hname
    rw [components, String.toList_ofList, List.append_assoc]
    show (Text.pieces '/' (before ++ '/' :: name.toList)).map String.ofList = _
    rw [Text.pieces_append, Text.pieces_of_not_mem hname]
    simp

namespace ListingFile

variable {base : String} {a b : UInt32}

/-- The name of a section's file, without its directory. -/
def sectionName (base : String) (start : UInt32) : String :=
  String.ofList (((Path.fileName? base.toList).map Path.stem).getD []) ++ "_"
    ++ Text.hexPadded 8 start.toNat ++ suffix

theorem slash_not_mem_sectionName : '/' ∉ (sectionName base a).toList := by
  have hstem : '/' ∉ ((Path.fileName? base.toList).map Path.stem).getD [] := by
    cases hname : Path.fileName? base.toList with
    | none => simp
    | some name => exact fun h => Path.slash_not_mem_fileName hname (Path.mem_of_mem_stem h)
  have hdigits : '/' ∉ (Text.hexPadded 8 a.toNat).toList := by
    intro h
    have hhex := Text.mem_hexPadded h
    revert hhex
    decide
  have hrest : '/' ∉ suffix.toList := by decide
  simp [sectionName, hstem, hdigits, hrest]

theorem sectionName_isName : FileSet.IsName (sectionName base a) := by
  have hne : ∀ text : String, '_' ∉ text.toList → sectionName base a ≠ text := by
    intro text htext h
    apply htext
    rw [← h]
    simp [sectionName]
  exact ⟨hne _ (by decide), hne _ (by decide), hne _ (by decide)⟩

theorem sectionName_inj (h : sectionName base a = sectionName base b) : a = b := by
  have hlist := congrArg String.toList h
  simp only [sectionName, String.toList_append, List.append_cancel_right_eq,
    List.append_cancel_left_eq] at hlist
  exact UInt32.toNat_inj.mp (Text.hexPadded_inj (String.toList_inj.mp hlist))

/-- The files of all sections lie behind the same components. -/
theorem components_sectionPath (base : String) :
    ∃ front, ∀ start, FileSet.components (sectionPath base start) =
      front ++ [sectionName base start] := by
  obtain ⟨lead, hlead, heq⟩ := Path.withFileName_eq base.toList
  obtain ⟨front, hfront⟩ := FileSet.components_lead hlead
  refine ⟨front, ?_⟩
  intro start
  rw [← hfront _ slash_not_mem_sectionName, ← heq]
  rfl

theorem sectionPath_inj (h : sectionPath base a = sectionPath base b) : a = b := by
  obtain ⟨front, hfront⟩ := components_sectionPath base
  have hnames : front ++ [sectionName base a] = front ++ [sectionName base b] := by
    rw [← hfront, ← hfront, h]
  exact sectionName_inj (by simpa using hnames)

end ListingFile

/-! ## Starts -/

/-- Where the section of a request starts. -/
def Layout.sectionStart (layout : Layout) (request : Region) : UInt32 :=
  if layout.backing? request = none then request.start else evenDown request.start

theorem Section.region_start_decode (decoder : Decoder) (memory : Memory) (layout : Layout)
    (request : Region) :
    (Section.decode decoder memory layout request).region.start = layout.sectionStart request := by
  unfold decode Layout.sectionStart
  cases layout.backing? request with
  | none => rfl
  | some file => exact region_start_backed request file _

theorem Job.starts_run (job : Job) : job.run.sections.map (·.region.start) =
    job.layout.requests.map job.layout.sectionStart := by
  show (job.layout.requests.map _).map _ = _
  rw [List.map_map]
  apply List.map_congr_left
  intro request _
  exact Section.region_start_decode _ _ _ request

/-! ## What the files hold -/

theorem exists_last {α : Type} {p : α → Prop} {l : List α} (h : ∃ x ∈ l, p x) :
    ∃ before x after, l = before ++ x :: after ∧ p x ∧ ∀ y ∈ after, ¬ p y := by
  induction l with
  | nil =>
      obtain ⟨x, hx, _⟩ := h
      cases hx
  | cons first l ih =>
      by_cases hrest : ∃ x ∈ l, p x
      · obtain ⟨before, x, after, rfl, hx, hafter⟩ := ih hrest
        exact ⟨first :: before, x, after, rfl, hx, hafter⟩
      · obtain ⟨x, hx, hp⟩ := h
        rcases List.mem_cons.mp hx with rfl | hx
        · exact ⟨[], x, l, rfl, hp, fun y hy hpy => hrest ⟨y, hy, hpy⟩⟩
        · exact absurd ⟨x, hx, hp⟩ hrest

namespace ListingFile

variable {listing : Listing} {input : String} {output : Option String} {set set' : FileSet}

/-- Of the sections that start together, the file has the last one. -/
theorem readText_last {before after : List Section} {s : Section}
    (hsections : listing.sections = before ++ s :: after)
    (hlast : ∀ t ∈ after, t.region.start ≠ s.region.start)
    (h : set.writeAll (all listing input output true) = (set', none)) :
    set'.look.readText (sectionPath (path input output) s.region.start) =
      .ok (header input output ++ listing.sectionText s) := by
  obtain ⟨front, hfront⟩ := components_sectionPath (path input output)
  have hfiles : all listing input output true = listing.sections.map fun s =>
      (sectionPath (path input output) s.region.start,
        header input output ++ listing.sectionText s) := rfl
  have hbehind : ∀ w ∈ all listing input output true, FileSet.IsBehind front w.1 := by
    intro w hw
    obtain ⟨t, _, rfl⟩ := List.mem_map.mp hw
    exact ⟨_, sectionName_isName, hfront t.region.start⟩
  rw [hfiles, hsections, List.map_append, List.map_cons] at h hbehind
  refine Lookup.readText_of_file (FileSet.look_writeAll hbehind ?_ h)
  intro w hw
  obtain ⟨t, ht, rfl⟩ := List.mem_map.mp hw
  exact fun heq => hlast t ht (sectionPath_inj heq)

/-- Nothing is lost if and only if the sections that start together have the same text. -/
theorem readText_all_iff (h : set.writeAll (all listing input output true) = (set', none)) :
    (∀ s ∈ listing.sections,
        set'.look.readText (sectionPath (path input output) s.region.start) =
          .ok (header input output ++ listing.sectionText s)) ↔
      ∀ s ∈ listing.sections, ∀ t ∈ listing.sections, s.region.start = t.region.start →
        listing.sectionText s = listing.sectionText t := by
  constructor
  · intro hheld s hs t ht hstart
    have hs' := hheld s hs
    rw [hstart, hheld t ht] at hs'
    have htext := congrArg String.toList (Except.ok.inj hs')
    rw [String.toList_append, String.toList_append, List.append_cancel_left_eq] at htext
    exact (String.toList_inj.mp htext).symm
  · intro hsame s hs
    have hsome : ∃ t ∈ listing.sections, t.region.start = s.region.start := ⟨s, hs, rfl⟩
    obtain ⟨before, t, after, hsections, hstart, hlast⟩ := exists_last hsome
    have ht : t ∈ listing.sections := by
      rw [hsections]
      exact List.mem_append_right _ List.mem_cons_self
    rw [hsame s hs t ht hstart.symm, ← hstart]
    refine readText_last hsections ?_ h
    rw [hstart]
    exact hlast

theorem nodup_paths_iff (job : Job) (input : String) (output : Option String) :
    ((all job.run input output true).map Prod.fst).Nodup ↔
      (job.layout.requests.map job.layout.sectionStart).Nodup := by
  have hpaths : (all job.run input output true).map Prod.fst =
      (job.run.sections.map (·.region.start)).map (sectionPath (path input output)) := by
    rw [List.map_map]
    exact List.map_map
  rw [hpaths, job.starts_run]
  exact List.nodup_map_iff fun a b => sectionPath_inj

/-- Sections are written to the same file if and only if they start together, so the files are apart
if and only if the starts are. Every file has the last section that was written to it; nothing is
lost if and only if the sections that start together have the same text. -/
theorem section_files_hold (job : Job) (input : String) (output : Option String) :
    let listing := job.run
    let base := path input output
    let files := all listing input output true
    (∀ a b, sectionPath base a = sectionPath base b ↔ a = b) ∧
    ((files.map Prod.fst).Nodup ↔
      (job.layout.requests.map job.layout.sectionStart).Nodup) ∧
    ∀ set set' : FileSet, set.writeAll files = (set', none) →
      (∀ before s after, listing.sections = before ++ s :: after →
        (∀ t ∈ after, t.region.start ≠ s.region.start) →
        set'.look.readText (sectionPath base s.region.start) =
          .ok (header input output ++ listing.sectionText s)) ∧
      ((∀ s ∈ listing.sections, set'.look.readText (sectionPath base s.region.start) =
          .ok (header input output ++ listing.sectionText s)) ↔
        ∀ s ∈ listing.sections, ∀ t ∈ listing.sections, s.region.start = t.region.start →
          listing.sectionText s = listing.sectionText t) := by
  intro listing base files
  refine ⟨?_, nodup_paths_iff job input output, ?_⟩
  · intro a b
    exact ⟨sectionPath_inj, fun h => h ▸ rfl⟩
  · intro set set' hwrite
    refine ⟨?_, readText_all_iff hwrite⟩
    intro before s after hsections hlast
    exact readText_last hsections hlast hwrite

/-- An odd start is moved down, but only to an address where no other section starts. -/
theorem section_files_hold_odd_start :
    let job : Job :=
      { memory := (Image.ofBytes 0 #[0x9F, 0xA0, 0x12, 0x34]).memory
        layout :=
          { files := .ofList [{ start := 0, stop := 4 }]
            contents := .ofList
              [{ start := 0, stop := 2, content := .data [.word] },
                { start := 3, stop := 4, content := .data [.word] }] }
        symbols := ∅
        flags := {} }
    let output := some "out/fw.lst"
    let files := all job.run "fw.bin" output true
    let set : FileSet := .ofList [("out/old.asm", #[])]
    files.map Prod.fst = ["out/fw_00000000.asm", "out/fw_00000002.asm"] ∧
      (set.writeAll files).2 = none ∧
      ∀ s ∈ job.run.sections, (set.writeAll files).1.look.readText
        (sectionPath (path "fw.bin" output) s.region.start) =
          .ok (header "fw.bin" output ++ job.run.sectionText s) := by
  intro job output files set
  have hnone : (set.writeAll files).2 = none := by decide +kernel
  have hapart : ∀ s ∈ job.run.sections, ∀ t ∈ job.run.sections, s.region.start = t.region.start →
      s = t := by decide +kernel
  refine ⟨by decide +kernel, hnone, ?_⟩
  obtain ⟨_, _, hwritten⟩ := section_files_hold job "fw.bin" output
  generalize hafter : set.writeAll files = after at hnone ⊢
  obtain ⟨_, hheld⟩ := hwritten set after.1 (hafter.trans (Prod.ext rfl hnone))
  apply hheld.mpr
  intro s hs t ht hstart
  rw [hapart s hs t ht hstart]

/-- Two regions that are apart and lie in order, of which the second has an odd start: both sections
are written to one file, and the first of them is lost. -/
theorem section_files_collide :
    let job : Job :=
      { memory := (Image.ofBytes 0 #[0x9F, 0xA0, 0x9F, 0xA0]).memory
        layout :=
          { files := .ofList [{ start := 0, stop := 4 }]
            contents := .ofList
              [{ start := 0, stop := 1, content := .data [.word] },
                { start := 1, stop := 4, content := .data [.long] }] }
        symbols := ∅
        flags := {} }
    let files := all job.run "fw.bin" none true
    let after := ({} : FileSet).writeAll files
    (∀ r ∈ job.layout.contents.regions, r.start ≤ r.stop) ∧
      job.layout.contents.overlaps = [] ∧ after.2 = none ∧
      ¬ (files.map Prod.fst).Nodup ∧
      ¬ ∀ s ∈ job.run.sections, after.1.look.readText
        (sectionPath (path "fw.bin" none) s.region.start) =
          .ok (header "fw.bin" none ++ job.run.sectionText s) := by
  decide +kernel

end ListingFile

end Disassembly
