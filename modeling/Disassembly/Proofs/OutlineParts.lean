import Disassembly.Proofs.AnnotatedListing
import Disassembly.Proofs.BareRecords
import Disassembly.Proofs.CodeTable

/-!
# What an outline depends on

An outline is made from a table of code, the declared names and the declared functions. Its parts
other than names are fixed by less than that:

* **entry points** — by the bare code and by the addresses, not the names, of the declared functions
  (`Outline.entryPoints_congr`);
* **spans and returns** — by the same; where a function ends is not affected by how its records are
  written (`Outline.endFrom_map_bare`, `Outline.map_span_functionsAt`);
* **labels** — the declared names add their own addresses to a set that is fixed by the same
  (`Outline.mem_labels_ofCode`).

`Outline.ofCode_congr` compares two outlines whose bare code is the same, and `Job.outline_run` says
what the outline of a job is made from.
-/

namespace Disassembly

/-- From where to where a function runs. -/
def Function.span (f : Function) : UInt32 × UInt32 :=
  (f.entry, f.stop)

/-- The spans of all functions, in ascending order of their entries. -/
def Outline.spans (outline : Outline) : List (UInt32 × UInt32) :=
  outline.functions.toList.map fun p => p.2.span

/-! ## Tables of bare code -/

namespace Code

/-- The table with bare records. -/
def bare (code : Code) : Code :=
  code.map fun _ => Record.bare

theorem records_bare (code : Code) : code.bare.records = code.records.map Record.bare := by
  rw [records, records, bare, Std.ExtTreeMap.toList_map, List.map_map, List.map_map]
  rfl

theorem bare_ofRecords (records : List Record) :
    (ofRecords records).bare = ofRecords (records.map Record.bare) := by
  unfold bare ofRecords
  rw [Table.map_foldl_insert Record.address fun record => record, List.foldl_map]
  rfl

theorem getElem?_bare (code : Code) (a : UInt32) :
    code.bare[a]? = code[a]?.map Record.bare :=
  Std.ExtTreeMap.getElem?_map

end Code

theorem Entries.mem_ofDeclarations (declarations : List (UInt32 × String)) (a : UInt32) :
    a ∈ ofDeclarations declarations ↔ ∃ d ∈ declarations, d.1 = a := by
  have hfold : ∀ entries : Entries,
      a ∈ declarations.foldl (fun entries d => entries.insertIfNew d.1 d.2) entries ↔
        (∃ d ∈ declarations, d.1 = a) ∨ a ∈ entries := by
    induction declarations with
    | nil => simp
    | cons d declarations ih =>
        intro entries
        rw [List.foldl_cons, ih, Std.ExtTreeMap.mem_insertIfNew]
        simp only [Std.compare_eq_iff_eq, List.mem_cons, exists_eq_or_imp]
        rw [or_assoc, or_left_comm]
  simp [ofDeclarations, hfold]

namespace Outline

/-! ## Entry points and functions -/

theorem mem_entryPoints (records : List Record) (entries : Entries) (a : UInt32) :
    a ∈ entryPoints records entries ↔
      (∃ r ∈ records, r.flow.bind Flow.callTarget? = some a) ∨ a ∈ entries := by
  simp [entryPoints, Std.ExtTreeSet.mem_ofList]

theorem entryPoints_congr {records records' : List Record} {entries entries' : Entries}
    (hrecords : records.map Record.bare = records'.map Record.bare)
    (hentries : ∀ a, a ∈ entries ↔ a ∈ entries') :
    entryPoints records entries = entryPoints records' entries' := by
  have hbare : ∀ (records : List Record) (a : UInt32),
      (∃ r ∈ records, r.flow.bind Flow.callTarget? = some a) ↔
        ∃ r ∈ records.map Record.bare, r.flow.bind Flow.callTarget? = some a := by
    intro records a
    simp
  apply Std.ExtTreeSet.ext_mem
  intro a
  rw [mem_entryPoints, mem_entryPoints, hbare records, hbare records', hrecords, hentries]

theorem endFrom_map_bare (limit stop reach : UInt32) (lastSlot : Bool) (records : List Record) :
    endFrom limit stop reach lastSlot (records.map Record.bare) =
      endFrom limit stop reach lastSlot records := by
  induction records generalizing stop reach lastSlot with
  | nil => rfl
  | cons record records ih =>
      rw [List.map_cons, endFrom, endFrom]
      simp only [Record.bare_address, Record.bare_stop, Record.bare_flow, ih]
      rfl

/-- The spans of functions depend neither on their names nor on the text of the records. -/
theorem map_span_functionsAt (name name' : UInt32 → String) (entries : List UInt32)
    (records : List Record) :
    (functionsAt name entries (records.map Record.bare)).map Function.span =
      (functionsAt name' entries records).map Function.span := by
  induction entries generalizing records with
  | nil => rfl
  | cons entry entries ih =>
      have hahead : (records.map Record.bare).dropWhile (fun r => decide (r.address < entry)) =
          (records.dropWhile fun r => decide (r.address < entry)).map Record.bare := by
        rw [List.dropWhile_map]
        rfl
      simp only [functionsAt, List.map_cons, hahead, ih, Function.span, functionEnd,
        endFrom_map_bare]

theorem map_span_functionsAt_congr (name name' : UInt32 → String) (entries : List UInt32)
    {records records' : List Record}
    (hrecords : records.map Record.bare = records'.map Record.bare) :
    (functionsAt name entries records).map Function.span =
      (functionsAt name' entries records').map Function.span := by
  rw [← map_span_functionsAt name, ← map_span_functionsAt name name', hrecords]

/-- The spans of a table of functions that was made from a list. -/
theorem map_span_ofList (functions : List Function) :
    (Std.ExtTreeMap.ofList (functions.map fun f => (f.entry, f)) compare).map
        (fun _ => Function.span) =
      (functions.map Function.span).foldl (fun table span => table.insert span.1 span) ∅ := by
  rw [Table.ofList_eq_foldl, List.foldl_map,
    Table.map_foldl_insert Function.entry (fun f => f) Function.span, List.foldl_map]
  rfl

theorem spans_eq (outline : Outline) :
    outline.spans = (outline.functions.map fun _ => Function.span).toList.map Prod.snd := by
  rw [spans, Std.ExtTreeMap.toList_map, List.map_map]
  rfl

/-! ## Labels and returns -/

/-- The targets of branches and calls, and the entry points. -/
def reached (records : List Record) (points : Std.ExtTreeSet UInt32) : Std.ExtTreeSet UInt32 :=
  .ofList (records.filterMap (fun r => r.flow.bind Flow.labelTarget?) ++ points.toList)

theorem reached_map_bare (records : List Record) (points : Std.ExtTreeSet UInt32) :
    reached (records.map Record.bare) points = reached records points := by
  rw [reached, reached, List.filterMap_map]
  rfl

/-- Every label is a declared name or leads somewhere. -/
theorem mem_labels_ofCode (code : Code) (symbols : Symbols) (entries : Entries) (a : UInt32) :
    a ∈ (ofCode code symbols entries).labels ↔
      a ∈ reached code.records (entryPoints code.records entries) ∨ a ∈ symbols := by
  simp only [ofCode, labelled, reached, Std.ExtTreeMap.mem_ofList, Std.ExtTreeSet.mem_ofList,
    List.map_map, List.contains_eq_mem, decide_eq_true_eq, List.mem_append, List.mem_map,
    Function.comp_apply, exists_eq_right, Std.ExtTreeSet.mem_toList, Std.ExtTreeMap.mem_keys]
  tauto

theorem returns_map_bare (records : List Record) :
    ((records.map Record.bare).filter Record.isReturn).map Record.address =
      (records.filter Record.isReturn).map Record.address := by
  rw [List.filter_map, List.map_map]
  rfl

/-! ## Two outlines -/

/-- Two outlines of the same bare code, with functions declared at the same addresses, have the same
returns and spans, and the same labels apart from the declared names. -/
theorem ofCode_congr {code code' : Code} (symbols symbols' : Symbols) {entries entries' : Entries}
    (hcode : code.bare = code'.bare) (hentries : ∀ a, a ∈ entries ↔ a ∈ entries') :
    (ofCode code symbols entries).returns = (ofCode code' symbols' entries').returns ∧
      (ofCode code symbols entries).spans = (ofCode code' symbols' entries').spans ∧
      ∃ common : Std.ExtTreeSet UInt32,
        (∀ a, a ∈ (ofCode code symbols entries).labels ↔ a ∈ common ∨ a ∈ symbols) ∧
        (∀ a, a ∈ (ofCode code' symbols' entries').labels ↔ a ∈ common ∨ a ∈ symbols') := by
  have hrecords : code.records.map Record.bare = code'.records.map Record.bare := by
    rw [← Code.records_bare, ← Code.records_bare, hcode]
  have hpoints := entryPoints_congr hrecords hentries
  refine ⟨?_, ?_, reached code.records (entryPoints code.records entries),
    mem_labels_ofCode code symbols entries, ?_⟩
  · simp only [ofCode]
    rw [← returns_map_bare, hrecords, returns_map_bare]
  · rw [spans_eq, spans_eq]
    simp only [ofCode]
    rw [map_span_ofList, map_span_ofList, hpoints, map_span_functionsAt_congr _ _ _ hrecords]
  · intro a
    rw [mem_labels_ofCode, ← hpoints, ← reached_map_bare, ← hrecords, reached_map_bare]

end Outline

namespace Job

/-- The functions that the vectors of all sections declare, in the order of decoding. -/
def vectorEntries (job : Job) : List (UInt32 × String) :=
  job.sections.flatMap Section.vectorEntries

theorem outline_run {job : Job} (hflag : job.flags.outline = true) :
    job.run.outline = some (Outline.ofCode (Code.ofRecords job.codeRecords) job.symbols
      (Entries.ofDeclarations job.vectorEntries)) := by
  simp only [run, hflag, if_true]
  rfl

end Job

end Disassembly
