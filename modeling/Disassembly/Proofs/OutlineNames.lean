import Disassembly.Proofs.OutlineParts

/-!
# Names in an outline

The functions of an outline are those at its entry points (`Outline.mem_functions`), each under its
own entry. Labels and functions take their names from one rule, `Outline.labelName`. What is
declared at an address counts before what is made up for it, and of several declared functions the
first (`Entries.getElem?_ofDeclarations`): `Outline.named_of_declared`.
-/

namespace Disassembly

theorem Entries.getElem?_ofDeclarations (declarations : List (UInt32 × String)) (a : UInt32) :
    (ofDeclarations declarations)[a]? = (declarations.find? (·.1 == a)).map Prod.snd := by
  rw [ofDeclarations, Table.getElem?_foldl_insertIfNew]
  simp

/-- The first declaration at an address stays, whatever is declared there later. -/
theorem Entries.getElem?_ofDeclarations_first {before after : List (UInt32 × String)} {a : UInt32}
    {name : String} (hfirst : ∀ d ∈ before, d.1 ≠ a) :
    (ofDeclarations (before ++ (a, name) :: after))[a]? = some name := by
  have hnone : ∀ d ∈ before, ¬ (d.1 == a) = true := by
    intro d hd
    simpa using hfirst d hd
  rw [getElem?_ofDeclarations, List.find?_append, List.find?_eq_none.mpr hnone]
  simp

namespace Outline

variable {code : Code} {symbols : Symbols} {entries : Entries} {a : UInt32}

theorem getElem?_labels (h : a ∈ (ofCode code symbols entries).labels) :
    (ofCode code symbols entries).labels[a]? =
      some (labelName symbols entries (entryPoints code.records entries) a) := by
  obtain ⟨name, hname⟩ := Option.isSome_iff_exists.mp
    (Std.ExtTreeMap.mem_iff_isSome_getElem?.mp h)
  rw [hname]
  simp only [ofCode] at hname
  rw [Table.ofList_eq_foldl, Table.getElem?_foldl_insert Prod.fst Prod.snd,
    Std.ExtTreeMap.getElem?_empty, Option.or_none] at hname
  obtain ⟨label, hfind, rfl⟩ := Option.map_eq_some_iff.mp hname
  have hkey : label.1 = a := by simpa using List.find?_some hfind
  obtain ⟨b, _, rfl⟩ := List.mem_map.mp (List.mem_reverse.mp (List.mem_of_find?_eq_some hfind))
  rw [← hkey]

theorem map_entry_functionsAt (name : UInt32 → String) (points : List UInt32)
    (records : List Record) :
    (functionsAt name points records).map Function.entry = points := by
  induction points generalizing records with
  | nil => rfl
  | cons point points ih => rw [functionsAt, List.map_cons, ih]

theorem name_of_mem_functionsAt {name : UInt32 → String} {points : List UInt32}
    {records : List Record} {f : Function} (h : f ∈ functionsAt name points records) :
    f.name = name f.entry := by
  induction points generalizing records with
  | nil => cases h
  | cons point points ih =>
      rw [functionsAt] at h
      rcases List.mem_cons.mp h with rfl | h
      · rfl
      · exact ih h

theorem exists_functionsAt {name : UInt32 → String} {points : List UInt32}
    (records : List Record) (h : a ∈ points) :
    ∃ f, (functionsAt name points records).reverse.find? (·.entry == a) = some f ∧
      f.name = name a := by
  have hentry : a ∈ (functionsAt name points records).map Function.entry := by
    rw [map_entry_functionsAt]
    exact h
  obtain ⟨g, hg, hga⟩ := List.mem_map.mp hentry
  have hsome : ((functionsAt name points records).reverse.find? (·.entry == a)).isSome = true :=
    List.find?_isSome.mpr ⟨g, List.mem_reverse.mpr hg, by simpa using hga⟩
  obtain ⟨f, hfind⟩ := Option.isSome_iff_exists.mp hsome
  refine ⟨f, hfind, ?_⟩
  have hkey : f.entry = a := by simpa using List.find?_some hfind
  rw [name_of_mem_functionsAt (List.mem_reverse.mp (List.mem_of_find?_eq_some hfind)), hkey]

theorem getElem?_functions (h : a ∈ entryPoints code.records entries) :
    ∃ f, (ofCode code symbols entries).functions[a]? = some f ∧
      f.name = labelName symbols entries (entryPoints code.records entries) a := by
  obtain ⟨f, hfind, hname⟩ := exists_functionsAt code.records (Std.ExtTreeSet.mem_toList.mpr h)
  refine ⟨f, ?_, hname⟩
  simp only [ofCode]
  rw [Table.ofList_eq_foldl, List.foldl_map,
    Table.getElem?_foldl_insert Function.entry fun f => f, hfind]
  rfl

/-- The functions of an outline are those at its entry points. -/
theorem mem_functions :
    a ∈ (ofCode code symbols entries).functions ↔ a ∈ entryPoints code.records entries := by
  have hentries := map_entry_functionsAt
    (labelName symbols entries (entryPoints code.records entries))
    (entryPoints code.records entries).toList code.records
  rw [← Std.ExtTreeSet.mem_toList, ← hentries]
  simp [ofCode, Std.ExtTreeMap.mem_ofList, List.mem_map]

/-- A function is found under its own entry. -/
theorem mem_functionsAt_of_function {f : Function}
    (h : (ofCode code symbols entries).functions[a]? = some f) :
    f.entry = a ∧ f ∈ functionsAt (labelName symbols entries (entryPoints code.records entries))
      (entryPoints code.records entries).toList code.records := by
  simp only [ofCode] at h
  rw [Table.ofList_eq_foldl, List.foldl_map,
    Table.getElem?_foldl_insert Function.entry fun f => f, Std.ExtTreeMap.getElem?_empty,
    Option.or_none, Option.map_id'] at h
  exact ⟨by simpa using List.find?_some h, List.mem_reverse.mp (List.mem_of_find?_eq_some h)⟩

/-- A declared function has its own name where the user has not given another. -/
theorem named_of_declared {name : String} (hdeclared : entries[a]? = some name)
    (hsymbol : symbols[a]? = none) :
    (ofCode code symbols entries).labels[a]? = some name ∧
      ∃ f, (ofCode code symbols entries).functions[a]? = some f ∧ f.name = name := by
  have hname : labelName symbols entries (entryPoints code.records entries) a = name := by
    simp only [labelName, hsymbol, hdeclared]
  have hpoint : a ∈ entryPoints code.records entries := by
    rw [mem_entryPoints]
    right
    rw [Std.ExtTreeMap.mem_iff_isSome_getElem?, hdeclared]
    rfl
  have hlabel : a ∈ (ofCode code symbols entries).labels := by
    rw [mem_labels_ofCode]
    left
    rw [reached, Std.ExtTreeSet.mem_ofList]
    simp [hpoint]
  rw [← hname]
  exact ⟨getElem?_labels hlabel, getElem?_functions hpoint⟩

end Outline

end Disassembly
