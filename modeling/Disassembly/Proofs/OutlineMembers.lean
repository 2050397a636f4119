import Disassembly.Proofs.OutlineNames

/-!
# What is in an outline

An outline is found in several passes over a table of code, and declared names and functions are
merged into each of its parts. What comes out can be said address by address:

* **code** — the table holds at each address the record that was entered last
  (`Code.getElem?_ofRecords_iff`);
* **returns** — the addresses of its returns (`Outline.mem_returns`);
* **functions** — the direct targets of its calls and the declared functions
  (`Outline.mem_functions_iff`);
* **labels** — the direct targets of its branches and calls and all that is declared
  (`Outline.mem_labels_iff`);
* **names** — one rule of precedence for labels and functions, `Outline.NamedBy`
  (`Outline.labelName_namedBy`).
-/

namespace Disassembly

/-! ## Transfers of control -/

theorem Flow.callTarget?_eq_some_iff (flow : Flow) (t : UInt32) :
    flow.callTarget? = some t ↔ flow.kind = .call ∧ flow.target = some t := by
  unfold callTarget?
  cases flow.kind <;> simp

theorem Flow.labelTarget?_eq_some_iff (flow : Flow) (t : UInt32) :
    flow.labelTarget? = some t ↔
      (flow.kind = .branch ∨ flow.kind = .call) ∧ flow.target = some t := by
  unfold labelTarget?
  cases flow.kind <;> simp

theorem Record.isReturn_iff (record : Record) :
    record.isReturn = true ↔ ∃ flow, record.flow = some flow ∧ flow.kind = .ret := by
  unfold isReturn
  cases record.flow <;> simp

namespace Code

/-- The record is the last one in the list at its address. -/
def EntersLast (records : List Record) (a : UInt32) (record : Record) : Prop :=
  ∃ before after, records = before ++ record :: after ∧ record.address = a ∧
    ∀ other ∈ after, other.address ≠ a

/-- A table holds what was entered last. -/
theorem getElem?_ofRecords_iff (records : List Record) (a : UInt32) (record : Record) :
    (ofRecords records)[a]? = some record ↔ EntersLast records a record := by
  rw [getElem?_ofRecords, List.find?_eq_some_iff_append, beq_iff_eq]
  constructor
  · rintro ⟨haddress, later, earlier, hreverse, hlater⟩
    refine ⟨earlier.reverse, later.reverse, ?_, haddress, ?_⟩
    · rw [← List.reverse_reverse records, hreverse]
      simp
    · intro other hother
      simpa using hlater other (List.mem_reverse.mp hother)
  · rintro ⟨before, after, rfl, haddress, hafter⟩
    refine ⟨haddress, after.reverse, before.reverse, by simp, ?_⟩
    intro other hother
    simpa using hafter other (List.mem_reverse.mp hother)

/-- An instruction of the table transfers control to `target` directly, in a given way. -/
def Leads (code : Code) (kind : FlowKind) (target : UInt32) : Prop :=
  ∃ (a : UInt32) (record : Record) (flow : Flow), code[a]? = some record ∧
    record.flow = some flow ∧ flow.kind = kind ∧ flow.target = some target

theorem leads_iff (code : Code) (kind : FlowKind) (target : UInt32) :
    code.Leads kind target ↔ ∃ r ∈ code.records, ∃ flow, r.flow = some flow ∧
      flow.kind = kind ∧ flow.target = some target := by
  simp only [Leads, mem_records]
  constructor
  · rintro ⟨a, record, flow, hrecord, h⟩
    exact ⟨record, ⟨a, hrecord⟩, flow, h⟩
  · rintro ⟨record, ⟨a, hrecord⟩, flow, h⟩
    exact ⟨a, record, flow, hrecord, h⟩

theorem exists_callTarget_iff (code : Code) (t : UInt32) :
    (∃ r ∈ code.records, r.flow.bind Flow.callTarget? = some t) ↔ code.Leads .call t := by
  simp only [leads_iff, Option.bind_eq_some_iff, Flow.callTarget?_eq_some_iff]

theorem exists_labelTarget_iff (code : Code) (t : UInt32) :
    (∃ r ∈ code.records, r.flow.bind Flow.labelTarget? = some t) ↔
      code.Leads .branch t ∨ code.Leads .call t := by
  simp only [leads_iff, Option.bind_eq_some_iff, Flow.labelTarget?_eq_some_iff, or_and_right,
    and_or_left, exists_or]

end Code

/-! ## The parts -/

namespace Outline

variable {code : Code} {records : List Record} {symbols : Symbols} {entries : Entries}
  {a : UInt32}

theorem mem_functions_iff :
    a ∈ (ofCode code symbols entries).functions ↔ code.Leads .call a ∨ a ∈ entries := by
  rw [mem_functions, mem_entryPoints, Code.exists_callTarget_iff]

theorem mem_labels_iff :
    a ∈ (ofCode code symbols entries).labels ↔
      a ∈ symbols ∨ (code.Leads .branch a ∨ code.Leads .call a) ∨ a ∈ entries := by
  rw [mem_labels_ofCode, reached, Std.ExtTreeSet.mem_ofList, List.contains_iff_mem,
    List.mem_append, List.mem_filterMap, Code.exists_labelTarget_iff, Std.ExtTreeSet.mem_toList,
    mem_entryPoints, Code.exists_callTarget_iff]
  tauto

/-- The returns of a table stand under their own addresses. -/
theorem mem_returns :
    a ∈ (ofCode (Code.ofRecords records) symbols entries).returns ↔
      ∃ record, (Code.ofRecords records)[a]? = some record ∧ record.isReturn = true := by
  simp only [ofCode, Std.ExtTreeSet.mem_ofList, List.contains_iff_mem, List.mem_map,
    List.mem_filter, Code.mem_records]
  constructor
  · rintro ⟨record, ⟨⟨b, hrecord⟩, hreturn⟩, rfl⟩
    obtain rfl := (Code.address_of_getElem?_ofRecords hrecord).1
    exact ⟨record, hrecord, hreturn⟩
  · rintro ⟨record, hrecord, hreturn⟩
    exact ⟨record, ⟨⟨a, hrecord⟩, hreturn⟩, (Code.address_of_getElem?_ofRecords hrecord).1⟩

/-- The name of an address: the one that the user has given it, or else that of the function
declared there, or else one made of the address, which tells functions from other labels. -/
inductive NamedBy (symbols : Symbols) (entries : Entries) (isFunction : Prop) (a : UInt32) :
    String → Prop
  | symbol {name : String} : symbols[a]? = some name → NamedBy symbols entries isFunction a name
  | entry {name : String} : symbols[a]? = none → entries[a]? = some name →
      NamedBy symbols entries isFunction a name
  | function : symbols[a]? = none → entries[a]? = none → isFunction →
      NamedBy symbols entries isFunction a ("function_" ++ Text.hexPadded 8 a.toNat)
  | label : symbols[a]? = none → entries[a]? = none → ¬ isFunction →
      NamedBy symbols entries isFunction a ("label_" ++ Text.hexPadded 8 a.toNat)

theorem labelName_namedBy (symbols : Symbols) (entries : Entries)
    (points : Std.ExtTreeSet UInt32) (a : UInt32) :
    NamedBy symbols entries (a ∈ points) a (labelName symbols entries points a) := by
  unfold labelName
  cases hsymbol : symbols[a]? with
  | some name => exact .symbol hsymbol
  | none =>
      cases hentry : entries[a]? with
      | some name => exact .entry hsymbol hentry
      | none =>
          by_cases hpoint : a ∈ points
          · simp only [if_pos hpoint]
            exact .function hsymbol hentry hpoint
          · simp only [if_neg hpoint]
            exact .label hsymbol hentry hpoint

/-- A function has the name of the label at its entry. -/
theorem label_of_function {f : Function}
    (h : (ofCode code symbols entries).functions[a]? = some f) :
    f.entry = a ∧ (ofCode code symbols entries).labels[a]? = some f.name := by
  obtain ⟨hentry, hmem⟩ := mem_functionsAt_of_function h
  have hfunction : a ∈ (ofCode code symbols entries).functions := by
    rw [Std.ExtTreeMap.mem_iff_isSome_getElem?, h]
    rfl
  have hlabel : a ∈ (ofCode code symbols entries).labels := by
    rw [mem_functions_iff] at hfunction
    rw [mem_labels_iff]
    tauto
  rw [getElem?_labels hlabel, name_of_mem_functionsAt hmem, hentry]
  exact ⟨rfl, rfl⟩

/-- **The parts of an outline.** Let records be entered in any order, some of them perhaps at the
same address, and let any names and functions be declared. The table holds the last record at each
address. Returns are the addresses of the returns of the table; functions start at the direct
targets of its calls and where they are declared; labels are the declared names, the direct targets
of branches and calls and the declared functions, so every function has a label. The name of a label
is the one given by the user, or else that of the declared function, or else one made of the address
and of whether a function starts there; and the function there has the same name. -/
theorem outline_members_and_names (records : List Record) (symbols : Symbols) (entries : Entries) :
    let outline := ofCode (Code.ofRecords records) symbols entries
    (∀ (a : UInt32) (r : Record), outline.code[a]? = some r ↔ Code.EntersLast records a r) ∧
    (∀ a : UInt32, a ∈ outline.returns ↔
      ∃ r flow, outline.code[a]? = some r ∧ r.flow = some flow ∧ flow.kind = .ret) ∧
    (∀ a : UInt32, a ∈ outline.functions ↔ outline.code.Leads .call a ∨ a ∈ entries) ∧
    (∀ a : UInt32, a ∈ outline.labels ↔
      a ∈ symbols ∨ (outline.code.Leads .branch a ∨ outline.code.Leads .call a) ∨ a ∈ entries) ∧
    (∀ a ∈ outline.functions, a ∈ outline.labels) ∧
    (∀ a ∈ outline.labels, ∃ name, outline.labels[a]? = some name ∧
      NamedBy symbols entries (a ∈ outline.functions) a name) ∧
    (∀ (a : UInt32) (f : Function), outline.functions[a]? = some f →
      f.entry = a ∧ outline.labels[a]? = some f.name) := by
  intro outline
  refine ⟨Code.getElem?_ofRecords_iff records, ?_, fun _ => mem_functions_iff,
    fun _ => mem_labels_iff, ?_, ?_, fun _ _ => label_of_function⟩
  · intro a
    rw [mem_returns]
    simp only [Record.isReturn_iff, exists_and_left]
    rfl
  · intro a ha
    rw [mem_functions_iff] at ha
    rw [mem_labels_iff]
    tauto
  · intro a ha
    have hfunction : a ∈ outline.functions ↔ _ := mem_functions
    rw [hfunction]
    exact ⟨_, getElem?_labels ha, labelName_namedBy ..⟩

/-- A branch that a call at the same address replaces, and a function that is called, declared and
named by the user. -/
theorem outline_members_and_names_replaced :
    let plain (a : UInt32) (kind : FlowKind) (target : Option UInt32) : Record :=
      { address := a, words := [0], size := 2, text := "", isCode := true
        flow := some { kind, target, unconditional := false, delayed := false } }
    let records := [plain 0x100 .branch (some 0x200), plain 0x102 .ret none,
      plain 0x100 .call (some 0x106)]
    let symbols := Symbols.ofList [(0x106, "callee")]
    let entries := Entries.ofDeclarations [(0x106, "a"), (0x300, "b")]
    let outline := ofCode (Code.ofRecords records) symbols entries
    outline.code.records.map Record.address = [0x100, 0x102] ∧
      ¬ outline.code.Leads .branch 0x200 ∧ 0x300 ∈ outline.labels ∧
      ∃ f, outline.functions[(0x106 : UInt32)]? = some f ∧ f.entry = 0x106 ∧
        outline.labels[(0x106 : UInt32)]? = some f.name ∧ f.name = "callee" := by
  intro plain records symbols entries outline
  obtain ⟨_, _, hfunctions, hlabels, hlabelled, _, hsame⟩ :=
    outline_members_and_names records symbols entries
  have hf : outline.functions[(0x106 : UInt32)]? =
      some { entry := 0x106, stop := 0x106, name := "callee" } := by decide +kernel
  have hno : (0x200 : UInt32) ∉ outline.labels := by
    rw [Std.ExtTreeMap.mem_iff_isSome_getElem?]
    decide +kernel
  have hdeclared : (0x300 : UInt32) ∈ entries := by
    rw [Std.ExtTreeMap.mem_iff_isSome_getElem?]
    decide +kernel
  obtain ⟨hentry, hlabel⟩ := hsame 0x106 _ hf
  refine ⟨by decide +kernel, ?_, hlabelled _ ((hfunctions _).mpr (.inr hdeclared)), _, hf, hentry,
    hlabel, rfl⟩
  intro hleads
  exact hno ((hlabels _).mpr (.inr (.inl (.inl hleads))))

end Outline

end Disassembly
