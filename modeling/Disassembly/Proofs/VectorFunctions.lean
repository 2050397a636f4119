import Disassembly.Proofs.DeclarationOrder
import Disassembly.Proofs.LineTexts
import Disassembly.Proofs.OutlineMembers
import Disassembly.Proofs.VectorNumbers

/-!
# Functions that vectors declare

The functions of a job are those that its code calls and those that its interrupt vectors declare.
Vectors may stand among data of other kinds, and several of them may have the same target:

* **items** — every item of data is the datum of its kind at its own address
  (`Decoder.data_items`), and only vectors transfer control (`Decoder.datum_flow`), so the
  declarations of a section are those of its vectors (`Section.vectorEntries_eq_vectors`);
* **declarations** — a vector declares its target, unless that is zero or the vector lies too far
  from the start of the section, under the number that its own line shows
  (`Job.declarationOf?_eq_some_iff`);
* **precedence** — of several declarations of one target the first one counts
  (`Job.getElem?_entries`);
* **lines** — the text of a vector ends with its number (`Job.vector_text`), and its line stands in
  the text of its section behind its address (`Job.line_of_mem_records`).
-/

namespace Disassembly

/-! ## Items of data -/

namespace Decoder

variable {decoder : Decoder} {memory : Memory} {origin pc : UInt32} {record : Record}

/-- A run of data holds one datum of each kind, decoded at its own address. -/
theorem data_items {kinds : List DataKind} {records : List Record}
    (h : decoder.data memory origin kinds pc = .ok records) :
    List.Forall₂ (fun kind record => decoder.datum memory origin kind record.address = .ok record)
      kinds records := by
  induction kinds generalizing pc records with
  | nil =>
      cases h
      exact .nil
  | cons kind kinds ih =>
      rw [data, bind_eq_ok_iff] at h
      obtain ⟨record, hrecord, h⟩ := h
      obtain ⟨rest, hrest, h⟩ := bind_eq_ok_iff.mp h
      cases h
      refine .cons ?_ (ih hrest)
      rw [(datum_shape hrecord).address]
      exact hrecord

/-- Of all data only vectors transfer control. -/
theorem datum_flow {kind : DataKind} (hkind : kind ≠ .vector)
    (h : decoder.datum memory origin kind pc = .ok record) : record.flow = none := by
  cases kind with
  | long =>
      obtain ⟨hi, _, h⟩ := bind_eq_ok_iff.mp h
      obtain ⟨lo, _, h⟩ := bind_eq_ok_iff.mp h
      cases h
      rfl
  | word =>
      obtain ⟨w, _, h⟩ := bind_eq_ok_iff.mp h
      cases h
      rfl
  | bytes =>
      obtain ⟨w, _, h⟩ := bind_eq_ok_iff.mp h
      cases h
      rfl
  | string =>
      replace h : decoder.string memory pc = .ok record := h
      unfold string at h
      split at h
      · cases h
      · cases h
        rfl
  | vector => exact absurd rfl hkind

end Decoder

namespace Section

/-- The data of a section, each with its kind, in the order of decoding. -/
def items (s : Section) : List (DataKind × Record) :=
  s.passes.flatMap fun pass => s.content.kinds.zip pass.records

/-- An item of data, if it is an interrupt vector. -/
def vectorOf? (item : DataKind × Record) : Option Record :=
  if item.1 = .vector then some item.2 else none

/-- The interrupt vectors among the data of a section, in the order of decoding. -/
def vectors (s : Section) : List Record :=
  if s.content.isCode then [] else s.items.filterMap vectorOf?

theorem records_eq_passes (s : Section) : s.records = s.passes.flatMap Pass.records := by
  cases s <;> rfl

variable {decoder : Decoder} {memory : Memory} {layout : Layout} {request : Region}

/-- The items of every pass over data are decoded with the even start of the request as origin. -/
theorem pass_items (hdata : request.content.isCode = false) {pass : Pass}
    (hpass : pass ∈ (decode decoder memory layout request).passes) :
    List.Forall₂ (fun kind record =>
        decoder.datum memory (evenDown request.start) kind record.address = .ok record)
      request.content.kinds pass.records := by
  unfold decode at hpass
  cases hfile : layout.backing? request with
  | none =>
      rw [hfile] at hpass
      cases hpass
  | some file =>
      rw [hfile] at hpass
      obtain ⟨pc, _, hnext⟩ := (Trace.walk_nil_walks _ _ _).exists_next hpass
      cases hcontent : request.content with
      | code =>
          rw [hcontent] at hdata
          cases hdata
      | data kinds =>
          rw [hcontent] at hnext
          obtain ⟨records, hrecords, h⟩ := bind_eq_ok_iff.mp hnext
          cases h
          exact Decoder.data_items hrecords

/-- A vector of a section is one of its records, decoded with the even start of the request as
origin. -/
theorem of_mem_vectors {v : Record} (h : v ∈ (decode decoder memory layout request).vectors) :
    request.content.isCode = false ∧ v ∈ (decode decoder memory layout request).records ∧
      decoder.vector memory (evenDown request.start) v.address = .ok v := by
  unfold vectors at h
  split at h
  · cases h
  · next hdata =>
      rw [content, request_decode, Bool.not_eq_true] at hdata
      obtain ⟨⟨kind, record⟩, hitem, hvector⟩ := List.mem_filterMap.mp h
      obtain ⟨pass, hpass, hzip⟩ := List.mem_flatMap.mp hitem
      rw [content, request_decode] at hzip
      have hdatum := (List.forall₂_iff_zip.mp (pass_items hdata hpass)).2 hzip
      unfold vectorOf? at hvector
      split at hvector
      · next hkind =>
          obtain rfl : kind = .vector := hkind
          obtain rfl : record = v := Option.some.inj hvector
          rw [records_eq_passes]
          exact ⟨hdata, List.mem_flatMap.mpr ⟨pass, hpass, (List.of_mem_zip hzip).2⟩, hdatum⟩
      · cases hvector

/-- What is read off records is read off the vectors among them, if there is nothing to read off
other data. -/
theorem filterMap_vectorOf? {α : Type} {f : Record → Option α} {kinds : List DataKind}
    {records : List Record}
    (h : List.Forall₂ (fun kind record => kind ≠ DataKind.vector → f record = none) kinds records) :
    ((kinds.zip records).filterMap vectorOf?).filterMap f = records.filterMap f := by
  induction h with
  | nil => rfl
  | @cons kind record kinds records hfirst _ ih =>
      rw [List.zip_cons_cons]
      by_cases hkind : kind = .vector
      · have hvector : vectorOf? (kind, record) = some record := if_pos hkind
        rw [List.filterMap_cons_some hvector, List.filterMap_cons, ih, List.filterMap_cons]
      · have hother : vectorOf? (kind, record) = none := if_neg hkind
        rw [List.filterMap_cons_none hother, ih, List.filterMap_cons_none (hfirst hkind)]

/-- Only the vectors of a section declare functions. -/
theorem vectorEntries_eq_vectors :
    (decode decoder memory layout request).vectorEntries =
      (decode decoder memory layout request).vectors.filterMap
        (decode decoder memory layout request).declaration? := by
  have hcontent : (decode decoder memory layout request).content = request.content := by
    rw [content, request_decode]
  cases hcode : request.content.isCode with
  | true => rw [vectorEntries, vectors, hcontent, hcode, if_pos rfl, if_pos rfl, List.filterMap_nil]
  | false =>
      rw [vectorEntries_eq (hcontent ▸ hcode), vectors, hcontent, hcode, if_neg Bool.false_ne_true,
        records_eq_passes, items, hcontent, List.filterMap_flatMap, List.filterMap_flatMap,
        List.filterMap_flatMap]
      refine List.flatMap_congr ?_
      intro pass hpass
      refine (filterMap_vectorOf? ((pass_items hcode hpass).imp ?_)).symm
      intro kind record hdatum hkind
      rw [declaration?, Decoder.datum_flow hkind hdatum]
      rfl

/-- How far a record lies behind the even start of its section, modulo the size of the address
space. -/
def offset (s : Section) (record : Record) : Nat :=
  (record.address - evenDown s.request.start).toNat

/-- The number of the interrupt that a vector of the section belongs to. -/
def numberOf (s : Section) (record : Record) : Nat :=
  (0x3FC - s.offset record) / 4

end Section

namespace Job

/-! ## Declarations -/

/-- The interrupt vectors of all sections, each with its section, in the order of decoding. -/
def vectorItems (job : Job) : List (Section × Record) :=
  job.sections.flatMap fun s => s.vectors.map (s, ·)

/-- The vector holds a target that is not zero, and lies within the length of a table from the start
of its section on. -/
def Declares (job : Job) (item : Section × Record) (target : UInt32) : Prop :=
  target ≠ 0 ∧ job.memory.word? item.2.address = some target ∧ item.1.offset item.2 ≤ 0x3FC

instance (job : Job) (item : Section × Record) (target : UInt32) :
    Decidable (job.Declares item target) :=
  inferInstanceAs (Decidable (_ ∧ _))

variable {job : Job} {s : Section} {v : Record} {t : UInt32}

theorem of_mem_vectorItems (h : (s, v) ∈ job.vectorItems) :
    s.content.isCode = false ∧ v ∈ s.records ∧ s.region.start = evenDown s.request.start ∧
      job.decoder.vector job.memory (evenDown s.request.start) v.address = .ok v := by
  obtain ⟨s', hs, hv⟩ := List.mem_flatMap.mp h
  obtain ⟨v', hv, hpair⟩ := List.mem_map.mp hv
  cases hpair
  obtain ⟨request, _, rfl⟩ := List.mem_map.mp hs
  obtain ⟨hdata, hrecord, hvector⟩ := Section.of_mem_vectors hv
  rw [Section.content, Section.request_decode]
  refine ⟨hdata, hrecord, ?_, hvector⟩
  unfold Section.decode at hrecord ⊢
  split
  · next hnone =>
      rw [hnone] at hrecord
      cases hrecord
  · exact Section.region_start_backed ..

theorem interruptNumber?_of_offset (h : s.offset v ≤ 0x3FC) :
    interruptNumber? (evenDown s.request.start) v.address = some (s.numberOf v) := by
  rw [interruptNumber?_eq_ite]
  exact if_pos h

/-- The function that a vector declares. -/
def declarationOf? (item : Section × Record) : Option (UInt32 × String) :=
  item.1.declaration? item.2

/-- A vector declares its target under its own number. -/
theorem declarationOf?_eq_some_iff (hitem : (s, v) ∈ job.vectorItems) (name : String) :
    declarationOf? (s, v) = some (t, name) ↔
      job.Declares (s, v) t ∧ name = interruptName (s.numberOf v) := by
  obtain ⟨_, _, hstart, hvector⟩ := of_mem_vectorItems hitem
  obtain ⟨target, hword, _, _, hflow, _⟩ := Decoder.vector_eq_ok hvector
  unfold declarationOf? Section.declaration? Declares
  rw [hflow, hstart, hword]
  by_cases hoffset : s.offset v ≤ 0x3FC
  · rw [interruptNumber?_of_offset hoffset]
    show (if target = 0 then none else some (target, interruptName (s.numberOf v))) =
      some (t, name) ↔ _
    grind
  · have hnone : interruptNumber? (evenDown s.request.start) v.address = none := by
      rw [interruptNumber?_eq_ite]
      exact if_neg hoffset
    simp [hnone, hoffset]

theorem vectorEntries_eq_items (job : Job) :
    job.vectorEntries = job.vectorItems.filterMap declarationOf? := by
  rw [vectorEntries, vectorItems, List.filterMap_flatMap]
  refine List.flatMap_congr ?_
  intro s hs
  obtain ⟨request, _, rfl⟩ := List.mem_map.mp hs
  rw [Section.vectorEntries_eq_vectors, List.filterMap_map]
  rfl

theorem mem_entries_iff :
    t ∈ Entries.ofDeclarations job.vectorEntries ↔
      ∃ item ∈ job.vectorItems, job.Declares item t := by
  rw [Entries.mem_ofDeclarations, vectorEntries_eq_items]
  constructor
  · rintro ⟨⟨target, name⟩, hd, rfl⟩
    obtain ⟨⟨s, v⟩, hitem, hdeclaration⟩ := List.mem_filterMap.mp hd
    exact ⟨(s, v), hitem, ((declarationOf?_eq_some_iff hitem name).mp hdeclaration).1⟩
  · rintro ⟨⟨s, v⟩, hitem, hdeclares⟩
    exact ⟨(t, interruptName (s.numberOf v)), List.mem_filterMap.mpr ⟨(s, v), hitem,
      (declarationOf?_eq_some_iff hitem _).mpr ⟨hdeclares, rfl⟩⟩, rfl⟩

/-- The first vector with a target gives it its name. -/
theorem getElem?_entries {before after : List (Section × Record)}
    (hitems : job.vectorItems = before ++ (s, v) :: after) (hdeclares : job.Declares (s, v) t)
    (hfirst : ∀ item ∈ before, ¬ job.Declares item t) :
    (Entries.ofDeclarations job.vectorEntries)[t]? = some (interruptName (s.numberOf v)) := by
  have hitem : (s, v) ∈ job.vectorItems := by
    rw [hitems]
    simp
  have hentry := (declarationOf?_eq_some_iff hitem _).mpr ⟨hdeclares, rfl⟩
  have hearlier : ∀ d ∈ before.filterMap declarationOf?, d.1 ≠ t := by
    rintro ⟨target, name⟩ hd rfl
    obtain ⟨⟨s', v'⟩, hbefore, hdeclaration⟩ := List.mem_filterMap.mp hd
    have hitem' : (s', v') ∈ job.vectorItems := by
      rw [hitems]
      exact List.mem_append_left _ hbefore
    exact hfirst _ hbefore ((declarationOf?_eq_some_iff hitem' name).mp hdeclaration).1
  rw [vectorEntries_eq_items, hitems, List.filterMap_append, List.filterMap_cons_some hentry,
    Entries.getElem?_ofDeclarations_first hearlier]

/-! ## Listings -/

/-- The code of a job calls a target directly. -/
def Calls (job : Job) (target : UInt32) : Prop :=
  ∃ r ∈ job.codeRecords, ∃ flow, r.flow = some flow ∧ flow.kind = .call ∧
    flow.target = some target

/-- All code that was decoded is in the table. -/
theorem leads_call_iff : (Code.ofRecords job.codeRecords).Leads .call t ↔ job.Calls t := by
  have hmem : ∀ r, r ∈ (Code.ofRecords job.codeRecords).records ↔ r ∈ job.codeRecords := by
    intro r
    rw [Code.mem_records]
    simp [Code.getElem?_ofRecords_eq_some_iff job.codeRecords_single]
  simp only [Code.leads_iff, hmem, Calls]

/-- The line of a record of data stands in the text of its section. -/
theorem line_of_mem_records (hdata : s.content.isCode = false) (hv : v ∈ s.records) :
    ∃ front back, job.run.sectionText s = front ++ v.line s.bias ++ back := by
  have hbody : job.run.sectionText s = s.textWith s.lines := by
    unfold Listing.sectionText
    cases job.run.outline with
    | none => rfl
    | some outline =>
        dsimp only
        rw [if_neg (by simp [hdata])]
  obtain ⟨before, after, hrecords⟩ := List.append_of_mem hv
  have hlines : s.lines = String.join (before.map (Record.line s.bias)) ++ v.line s.bias ++
      String.join (after.map (Record.line s.bias)) := by
    rw [Section.lines, hrecords, List.map_append, List.map_cons, String.join_append,
      String.join_cons, String.append_assoc]
  refine ⟨s.heading ++ "\n\n" ++ String.join (before.map (Record.line s.bias)),
    String.join (after.map (Record.line s.bias)) ++ "\n", ?_⟩
  rw [hbody, hlines]
  cases s with
  | unbacked _ => cases hv
  | backed request file trace => simp only [Section.textWith, String.append_assoc]

/-- What stands before a hexadecimal number in the listing of a job. -/
def mark (job : Job) : String :=
  if job.flags.dollar then "$" else "0x"

/-- The text of a vector whose target has no name: the words of the vector if they are asked for,
the target, and the number of the interrupt as comment. -/
theorem vector_text {origin : UInt32} {n : Nat}
    (hvector : job.decoder.vector job.memory origin v.address = .ok v)
    (hnumber : interruptNumber? origin v.address = some n)
    (htarget : job.memory.word? v.address = some t) (hsymbol : job.symbols[t]? = none) :
    v.text = (if job.flags.rawWords then String.ofList (Style.wordColumn v.words) else "") ++
      "dl      " ++ job.mark ++ Text.hexPadded 8 t.toNat ++
      "  ; interrupt " ++ job.mark ++ Text.hexPadded 2 n := by
  obtain ⟨target, hword, htext⟩ := showsVector_of_vector hvector hnumber
  obtain rfl : target = t := Option.some.inj (hword.symm.trans htarget)
  have hplain : job.flags.style.address job.symbols target =
      (job.mark ++ Text.hexPadded 8 target.toNat, none) := by
    rw [Style.address, hsymbol]
    rfl
  have hmark : job.mark ≠ "" := by
    unfold mark
    split <;> decide
  have hoperands : job.mark ++ Text.hexPadded 8 target.toNat ≠ "" := by
    simp [hmark]
  have hmnemonic : String.ofList ("dl".toList.rightpad 8 ' ') = "dl      " := by decide
  rw [htext, hplain, Style.line, if_neg hoperands, hmnemonic]
  simp only [String.append_assoc, Style.numberWide, Option.map_none, Option.getD_none,
    String.append_empty]
  rfl

end Job

/-- **Functions of vectors.** With an outline, the functions of a job are the direct targets of the
calls in its code and the targets, other than zero, of the interrupt vectors within the length of a
table from the start of their sections on. Where the user has given no name, the first vector with a
target names the function there after its own number. That number also stands at the end of the
vector's text, and this, behind the address column and before a line break, in the text of its
section. -/
theorem vector_targets_become_functions (job : Job) (hflag : job.flags.outline = true) :
    ∃ outline, job.run.outline = some outline ∧
      (∀ t : UInt32, t ∈ outline.functions ↔
        job.Calls t ∨ ∃ item ∈ job.vectorItems, job.Declares item t) ∧
      ∀ t before s v after, job.vectorItems = before ++ (s, v) :: after →
        job.Declares (s, v) t → (∀ item ∈ before, ¬ job.Declares item t) →
        job.symbols[t]? = none →
          (∃ f, outline.functions[t]? = some f ∧
            f.name = "interrupt_0x" ++ Text.hexPadded 2 (s.numberOf v) ++ "_") ∧
          job.ShowsVector (s.numberOf v) v ∧
          v.text =
            (if job.flags.rawWords then String.ofList (Style.wordColumn v.words) else "") ++
              "dl      " ++ job.mark ++ Text.hexPadded 8 t.toNat ++
              "  ; interrupt " ++ job.mark ++ Text.hexPadded 2 (s.numberOf v) ∧
          ∃ front back, job.run.sectionText s = front ++
            (Text.hexPadded 8 v.address.toNat ++
              (if (v.address - s.bias).toNat = v.address.toNat then " "
                else " (" ++ Text.hexPadded 8 (v.address - s.bias).toNat ++ ") ") ++
              v.text ++ "\n") ++ back := by
  refine ⟨_, Job.outline_run hflag, ?_, ?_⟩
  · intro t
    rw [Outline.mem_functions_iff, Job.leads_call_iff, Job.mem_entries_iff]
  · intro t before s v after hitems hdeclares hfirst hsymbol
    have hitem : (s, v) ∈ job.vectorItems := by
      rw [hitems]
      simp
    obtain ⟨hdata, hrecord, _, hvector⟩ := Job.of_mem_vectorItems hitem
    have hdeclared := Job.getElem?_entries hitems hdeclares hfirst
    have hnumber := Job.interruptNumber?_of_offset hdeclares.2.2
    obtain ⟨front, back, htext⟩ := Job.line_of_mem_records hdata hrecord
    rw [v.line_eq_printed] at htext
    exact ⟨(Outline.named_of_declared hdeclared hsymbol).2,
      Job.showsVector_of_vector hvector hnumber,
      Job.vector_text hvector hnumber hdeclares.2.1 hsymbol, front, back, htext⟩

/-- Vectors between other data, from an odd start on: two of them have the same target, which the
first one names. -/
theorem vector_targets_become_functions_mixed :
    let job : Job :=
      { memory := (Image.ofBytes 0 #[0x12, 0x34, 0, 0, 0, 0x20, 0x12, 0x34, 0, 0, 0, 0x20]).memory
        layout :=
          { files := .ofList [{ start := 0, stop := 12 }]
            contents := .ofList [{ start := 1, stop := 12, content := .data [.word, .vector] }] }
        symbols := ∅
        flags := { outline := true } }
    ∃ s v later outline f, job.vectorItems = [(s, v), later] ∧ job.Declares later 0x20 ∧
      job.run.outline = some outline ∧ outline.functions[(0x20 : UInt32)]? = some f ∧
      f.name = "interrupt_0xFE_" ∧ job.ShowsVector 0xFE v ∧
      v.text = "dl      0x00000020  ; interrupt 0xFE" ∧
      ∃ front back, job.run.sectionText s =
        front ++ "00000002 dl      0x00000020  ; interrupt 0xFE\n" ++ back := by
  intro job
  obtain ⟨⟨s, v⟩, later, hitems⟩ : ∃ item later, job.vectorItems = [item, later] := by
    have hlength : job.vectorItems.length = 2 := by decide +kernel
    exact List.length_eq_two.mp hlength
  have hall : ∀ item ∈ job.vectorItems, job.Declares item 0x20 := by decide +kernel
  have hnumbers : job.vectorItems.map (fun item =>
      (item.1.numberOf item.2, item.2.address, item.1.bias)) = [(0xFE, 2, 0), (0xFD, 8, 0)] := by
    decide +kernel
  rw [hitems] at hnumbers
  obtain ⟨hnumber, haddress, hbias⟩ : s.numberOf v = 0xFE ∧ v.address = 2 ∧ s.bias = 0 := by
    simpa using (List.cons.inj hnumbers).1
  obtain ⟨outline, houtline, _, hnames⟩ := vector_targets_become_functions job rfl
  obtain ⟨⟨f, hf, hname⟩, hshows, htext, front, back, hsection⟩ :=
    hnames 0x20 [] s v [later] hitems (hall _ (by simp [hitems])) (by simp) (by decide +kernel)
  have hcolumn : ¬ job.flags.rawWords = true := by decide
  rw [hnumber] at hname hshows htext
  rw [if_neg hcolumn] at htext
  replace htext : v.text = "dl      0x00000020  ; interrupt 0xFE" :=
    htext.trans (by decide +kernel)
  have hline : Text.hexPadded 8 (2 : UInt32).toNat ++
      (if ((2 : UInt32) - 0).toNat = (2 : UInt32).toNat then " "
        else " (" ++ Text.hexPadded 8 ((2 : UInt32) - 0).toNat ++ ") ") ++
      "dl      0x00000020  ; interrupt 0xFE" ++ "\n" =
        "00000002 dl      0x00000020  ; interrupt 0xFE\n" := by
    decide +kernel
  rw [haddress, hbias, htext, hline] at hsection
  exact ⟨s, v, later, outline, f, hitems, hall _ (by simp [hitems]), houtline, hf,
    hname.trans (by decide +kernel), hshows, htext, front, back, hsection⟩

end Disassembly
