import Disassembly.Proofs.FunctionEnds

/-!
# The extents of functions

Every function is followed on its own, and only the entry of the next one holds it back. Here the
extents are seen together, in code that does not run around the end of the address space and whose
records nowhere have a function start in their middle:

* **tilings** — a function ends with one of the records of its run (`exists_front_endAt`), so the
  records up to there tile its extent without gap or overlap (`exists_tiles_extent`);
* **limits** — a tiling by whole records never passes the limit (`Tiles.le_limit`);
* **disjointness** — the limit of a function is the next entry, and all later entries lie beyond it
  (`stop_le_of_lt`).

`Outline.functions_tiled_and_disjoint` puts these together for all functions of an outline.
-/

namespace Disassembly

/-- An address belongs to the extent of a function. -/
def Function.Covers (f : Function) (a : UInt32) : Prop :=
  f.entry ≤ a ∧ a < f.stop

theorem Function.Covers.not_covers {f g : Function} {a : UInt32} (h : f.Covers a)
    (hends : f.stop ≤ g.entry) : ¬ g.Covers a := by
  intro hg
  exact UInt32.not_lt.mpr hg.1 (UInt32.lt_of_lt_of_le h.2 hends)

/-- The record ends within the address space. -/
def Record.Fits (record : Record) : Prop :=
  record.address.toNat + record.size < 0x100000000

instance (record : Record) : Decidable record.Fits :=
  inferInstanceAs (Decidable (_ < _))

theorem Record.Fits.toNat_stop {record : Record} (h : record.Fits) :
    record.stop.toNat = record.address.toNat + record.size := by
  have hsize : record.size < 4294967296 := Nat.lt_of_le_of_lt (Nat.le_add_left _ _) h
  rw [Record.stop, UInt32.toNat_add, UInt32.toNat_ofNat_of_lt' hsize, Nat.mod_eq_of_lt h]

namespace Outline

/-! ## Tilings -/

/-- The records lie one after another from a first address up to an end, without gap or overlap. -/
def Tiles (first stop : Nat) : List Record → Prop
  | [] => first = stop
  | record :: records => record.address.toNat = first ∧ Tiles (first + record.size) stop records

theorem Tiles.le {first stop : Nat} {run : List Record} (h : Tiles first stop run) :
    first ≤ stop := by
  induction run generalizing first with
  | nil => exact Nat.le_of_eq h
  | cons record run ih =>
      have hrest := ih h.2
      omega

/-- A tiling by records that do not pass a limit does not pass it either. -/
theorem Tiles.le_limit {first stop : Nat} {limit : UInt32} {run : List Record}
    (h : Tiles first stop run) (hfirst : first ≤ limit.toNat) (hfits : ∀ r ∈ run, r.Fits)
    (hstop : ∀ r ∈ run, r.stop ≤ limit) : stop ≤ limit.toNat := by
  induction run generalizing first with
  | nil => exact h ▸ hfirst
  | cons record run ih =>
      simp only [List.forall_mem_cons] at hfits hstop
      obtain ⟨hrecord, hrest⟩ := hstop
      rw [UInt32.le_iff_toNat_le, hfits.1.toNat_stop, h.1] at hrecord
      exact ih h.2 hrecord hfits.2 hrest

theorem Contiguous.front {a : UInt32} {run front : List Record} (h : Contiguous a run)
    (hfront : front <+: run) : Contiguous a front := by
  induction front generalizing a run with
  | nil => trivial
  | cons record front ih =>
      obtain ⟨rest, rfl⟩ := hfront
      exact ⟨h.1, ih h.2 (List.prefix_append front rest)⟩

/-- A contiguous run tiles what lies between its first address and its end. -/
theorem Contiguous.tiles {a : UInt32} {run : List Record} (h : Contiguous a run)
    (hfits : ∀ r ∈ run, r.Fits) : Tiles a.toNat (endAt a run none).toNat run := by
  induction run generalizing a with
  | nil => rfl
  | cons record run ih =>
      simp only [List.forall_mem_cons] at hfits
      have hlast : endAt a (record :: run) none = endAt record.stop run none :=
        @endAt_cons a record run none nofun
      refine ⟨congrArg UInt32.toNat h.1, ?_⟩
      rw [hlast, ← h.1, ← hfits.1.toNat_stop]
      exact ih h.2 hfits.2

/-! ## One function -/

/-- Wherever a run is closed, it ends with one of its records. -/
theorem exists_front_endAt (entry limit : UInt32) (run : List Record) :
    ∃ front, front <+: run ∧ (run ≠ [] → front ≠ []) ∧
      endAt entry run (closing? limit run) = endAt entry front none := by
  cases hclosing : closing? limit run with
  | none => exact ⟨run, List.prefix_rfl, id, rfl⟩
  | some k =>
      have hlt : k < run.length := List.mem_range.mp (List.mem_of_find?_eq_some hclosing)
      have hk := List.getElem?_eq_getElem hlt
      cases hslot : run[k + 1]? with
      | none =>
          refine ⟨run.take (k + 1), List.take_prefix _ _, by simp, ?_⟩
          simp [endAt, hk, hslot, List.getLast?_take]
      | some slot =>
          by_cases hdelayed : run[k].isDelayed
          · refine ⟨run.take (k + 2), List.take_prefix _ _, by simp, ?_⟩
            simp [endAt, hk, hslot, hdelayed, List.getLast?_take]
          · refine ⟨run.take (k + 1), List.take_prefix _ _, by simp, ?_⟩
            simp [endAt, hk, hslot, hdelayed, List.getLast?_take]

/-- The record at the entry is the first one that a function can take up. -/
theorem singleton_prefix_between {records : List Record} {entry limit : UInt32} {record : Record}
    (h : (Code.ofRecords records)[entry]? = some record) (hlimit : entry < limit) :
    [record] <+: (Code.ofRecords records).between entry limit := by
  obtain rfl := (Code.address_of_getElem?_ofRecords h).1
  have hmem : record ∈ (Code.ofRecords records).between record.address limit := by
    rw [Code.between, List.mem_filter]
    exact ⟨(Code.mem_records _ _).mpr ⟨_, h⟩, by simpa using hlimit⟩
  obtain ⟨before, after, hsplit⟩ := List.append_of_mem hmem
  cases before with
  | nil => exact ⟨after, hsplit.symm⟩
  | cons first before =>
      -- a record before this one would start ahead of the entry
      have hascending : ((Code.ofRecords records).between record.address limit).Pairwise
          Record.Before := (Code.records_ascending records).filter _
      have hfirst : first ∈ (Code.ofRecords records).between record.address limit := by
        simp [hsplit]
      have hle : record.address ≤ first.address := by
        simpa using (Bool.and_eq_true_iff.mp (List.mem_filter.mp hfirst).2).1
      rw [hsplit, List.cons_append, List.pairwise_cons] at hascending
      exact absurd (hascending.1 record (by simp)) (UInt32.not_lt.mpr hle)

/-- The records that a function takes up follow one another in the table, start below the limit and
tile the extent. The record at the entry is one of them. -/
theorem exists_tiles_extent {records : List Record} (entry limit : UInt32)
    (hfits : ∀ r ∈ (Code.ofRecords records).records, r.Fits) :
    ∃ run, run <:+: (Code.ofRecords records).records ∧ (∀ r ∈ run, r.address < limit) ∧
      Tiles entry.toNat (extent (Code.ofRecords records) entry limit).toNat run ∧
      ∀ record, (Code.ofRecords records)[entry]? = some record → entry < limit →
        [record] <+: run := by
  obtain ⟨hrun, hcontiguous, hlongest⟩ :=
    runFrom_longest entry ((Code.ofRecords records).between entry limit)
  rw [extent_eq_endAt]
  obtain ⟨front, hfront, hnonempty, hend⟩ := exists_front_endAt entry limit
    (runFrom entry ((Code.ofRecords records).between entry limit))
  have hbetween := hfront.trans hrun
  have hpart : front <:+: (Code.ofRecords records).records := by
    rw [between_eq] at hbetween
    have hahead := hbetween.trans <| List.takeWhile_prefix _
    exact hahead.isInfix.trans (List.dropWhile_suffix _).isInfix
  refine ⟨front, hpart, ?_, ?_, ?_⟩
  · intro r hr
    simpa using (Bool.and_eq_true_iff.mp (List.mem_filter.mp (hbetween.subset hr)).2).2
  · rw [hend]
    exact (hcontiguous.front hfront).tiles fun r hr => hfits r (hpart.subset hr)
  · intro record hrecord hlimit
    have haddress := (Code.address_of_getElem?_ofRecords hrecord).1
    have hfirst := hlongest _ (singleton_prefix_between hrecord hlimit) ⟨haddress, trivial⟩
    refine List.prefix_of_prefix_length_le hfirst hfront ?_
    exact List.length_pos_iff.mpr
      (hnonempty (List.ne_nil_of_mem (hfirst.subset (List.mem_singleton_self record))))

/-! ## All functions -/

variable {records : List Record} {symbols : Symbols} {entries : Entries} {a b : UInt32}
  {f g : Function}

/-- Where a later function is known, the limit of a function is the entry of the next one. -/
theorem stop_of_function_of_lt {code : Code}
    (hf : (ofCode code symbols entries).functions[a]? = some f)
    (hb : b ∈ (ofCode code symbols entries).functions) (hlt : a < b) :
    ∃ next ∈ (ofCode code symbols entries).functions,
      a < next ∧ next ≤ b ∧ f.stop = extent code a next := by
  obtain ⟨before, after, hpoints, hstop⟩ := stop_of_function hf
  have hascending := entryPoints_ascending code.records entries
  simp only [mem_functions, ← Std.ExtTreeSet.mem_toList, hpoints] at hb ⊢
  rw [hpoints, List.pairwise_append, List.pairwise_cons] at hascending
  obtain ⟨_, ⟨hafter, hsorted⟩, hbefore⟩ := hascending
  have hb : b ∈ after := by
    rcases List.mem_append.mp hb with hmem | hmem
    · exact absurd (hbefore b hmem a List.mem_cons_self) (UInt32.lt_asymm hlt)
    · rcases List.mem_cons.mp hmem with rfl | hmem
      · exact absurd hlt (UInt32.lt_irrefl b)
      · exact hmem
  cases after with
  | nil => cases hb
  | cons next after =>
      refine ⟨next, by simp, hafter next List.mem_cons_self, ?_, hstop⟩
      rcases List.mem_cons.mp hb with rfl | hmem
      · exact UInt32.le_refl b
      · exact UInt32.le_of_lt ((List.pairwise_cons.mp hsorted).1 b hmem)

/-- A function ends before any later one starts. -/
theorem stop_le_of_lt (hfits : ∀ r ∈ (Code.ofRecords records).records, r.Fits)
    (hwhole : ∀ r ∈ (Code.ofRecords records).records,
      ∀ e ∈ (ofCode (Code.ofRecords records) symbols entries).functions,
        ¬ (r.address < e ∧ e < r.stop))
    (hf : (ofCode (Code.ofRecords records) symbols entries).functions[a]? = some f)
    (hg : (ofCode (Code.ofRecords records) symbols entries).functions[b]? = some g)
    (hlt : a < b) : f.stop ≤ b := by
  have hb := Std.ExtTreeMap.mem_iff_isSome_getElem?.mpr (Option.isSome_of_eq_some hg)
  obtain ⟨next, hnext, hahead, hle, hstop⟩ := stop_of_function_of_lt hf hb hlt
  obtain ⟨run, hrun, hbelow, htiles, _⟩ := exists_tiles_extent a next hfits
  -- a record that starts below the next entry does not have it in its middle
  have hwithin : ∀ r ∈ run, r.stop ≤ next := by
    intro r hr
    exact UInt32.not_lt.mp fun hpast => hwhole r (hrun.subset hr) next hnext ⟨hbelow r hr, hpast⟩
  have hlimit := htiles.le_limit (UInt32.le_iff_toNat_le.mp (UInt32.le_of_lt hahead))
    (fun r hr => hfits r (hrun.subset hr)) hwithin
  rw [hstop]
  exact UInt32.le_trans (UInt32.le_iff_toNat_le.mpr hlimit) hle

/-- A limit is an entry further on, and else the last address of the space. -/
theorem lt_limit_or_eq_last {points before after : List UInt32}
    (hascending : points.Pairwise (· < ·)) (hpoints : points = before ++ a :: after) :
    a < after.head?.getD 0xFFFFFFFF ∨ a = 0xFFFFFFFF := by
  cases after with
  | nil =>
      have hlt := a.toNat_lt
      simp only [List.head?_nil, Option.getD_none, UInt32.lt_iff_toNat_lt, ← UInt32.toNat_inj]
      change a.toNat < 4294967295 ∨ a.toNat = 4294967295
      omega
  | cons next after =>
      rw [hpoints, List.pairwise_append, List.pairwise_cons] at hascending
      exact .inl (hascending.2.1.1 next List.mem_cons_self)

/-- The extent of a function is tiled by records that follow one another in the table, and takes in
the record at its entry. -/
theorem tiled_of_function (hfits : ∀ r ∈ (Code.ofRecords records).records, r.Fits)
    (hf : (ofCode (Code.ofRecords records) symbols entries).functions[a]? = some f) :
    (∃ run, run <:+: (Code.ofRecords records).records ∧ Tiles a.toNat f.stop.toNat run) ∧
      ∀ r, (Code.ofRecords records)[a]? = some r → r.stop ≤ f.stop := by
  obtain ⟨before, after, hpoints, hstop⟩ := stop_of_function hf
  obtain ⟨run, hrun, _, htiles, hfirst⟩ :=
    exists_tiles_extent a (after.head?.getD 0xFFFFFFFF) hfits
  rw [← hstop] at htiles
  refine ⟨⟨run, hrun, htiles⟩, ?_⟩
  intro r hr
  have haddress := (Code.address_of_getElem?_ofRecords hr).1
  have hfit := hfits r ((Code.mem_records _ _).mpr ⟨a, hr⟩)
  rw [UInt32.le_iff_toNat_le, hfit.toNat_stop, haddress]
  rcases lt_limit_or_eq_last (entryPoints_ascending _ _) hpoints with hlimit | hlast
  · obtain ⟨rest, rfl⟩ := hfirst r hr hlimit
    exact htiles.2.le
  · -- a record at the last address has no room for a byte
    have hle := htiles.le
    have hmax : a.toNat = 0xFFFFFFFF := by rw [hlast]; rfl
    rw [Record.Fits, haddress] at hfit
    omega

/-- In code whose records all end within the address space, and where no function starts inside a
record, no two functions have an address in common. Each of them is tiled by records that follow one
another in the table from its entry on, and takes in the record at its entry if there is one. -/
theorem functions_tiled_and_disjoint (records : List Record) (symbols : Symbols)
    (entries : Entries) :
    let outline := ofCode (Code.ofRecords records) symbols entries
    (∀ r ∈ outline.code.records, r.Fits) →
    (∀ r ∈ outline.code.records, ∀ e ∈ outline.functions, ¬ (r.address < e ∧ e < r.stop)) →
    (∀ (a : UInt32) (f : Function), outline.functions[a]? = some f →
      f.entry = a ∧ f.entry ≤ f.stop ∧
      (∃ run, run <:+: outline.code.records ∧ Tiles f.entry.toNat f.stop.toNat run) ∧
      ∀ r, outline.code[a]? = some r → r.stop ≤ f.stop) ∧
    ∀ (a b : UInt32) (f g : Function), outline.functions[a]? = some f →
      outline.functions[b]? = some g → a ≠ b → ∀ x, f.Covers x → ¬ g.Covers x := by
  intro outline hfits hwhole
  constructor
  · intro a f hf
    obtain rfl := (mem_functionsAt_of_function hf).1
    obtain ⟨⟨run, hrun, htiles⟩, hfirst⟩ := tiled_of_function hfits hf
    exact ⟨rfl, UInt32.le_iff_toNat_le.mpr htiles.le, ⟨run, hrun, htiles⟩, hfirst⟩
  · intro a b f g hf hg hne x hfx hgx
    obtain rfl := (mem_functionsAt_of_function hf).1
    obtain rfl := (mem_functionsAt_of_function hg).1
    rcases UInt32.lt_or_lt_of_ne hne with hlt | hlt
    · exact hfx.not_covers (stop_le_of_lt hfits hwhole hf hg hlt) hgx
    · exact hgx.not_covers (stop_le_of_lt hfits hwhole hg hf hlt) hfx

/-- A function that ends with the delay slot of its return, right where the function that it calls
starts, and a declared function that has no code. -/
theorem functions_tiled_and_disjoint_back_to_back :
    let plain (a : UInt32) (flow : Option Flow) : Record :=
      { address := a, words := [0], size := 2, text := "", isCode := true, flow }
    let ret (delayed : Bool) : Flow :=
      { kind := .ret, target := none, unconditional := true, delayed }
    let call : Flow :=
      { kind := .call, target := some 0x106, unconditional := false, delayed := false }
    let records := [plain 0x106 (some (ret false)), plain 0x104 none,
      plain 0x102 (some (ret true)), plain 0x100 (some call)]
    let outline := ofCode (Code.ofRecords records) ∅ (.ofDeclarations [(0x100, "a"), (0x200, "b")])
    (∀ r ∈ outline.code.records, r.Fits) ∧
    (∀ r ∈ outline.code.records, ∀ e ∈ outline.functions, ¬ (r.address < e ∧ e < r.stop)) ∧
    ∃ f g h, outline.functions[(0x100 : UInt32)]? = some f ∧
      outline.functions[(0x106 : UInt32)]? = some g ∧
      outline.functions[(0x200 : UInt32)]? = some h ∧
      f.stop = g.entry ∧ h.stop = h.entry ∧
      (∃ run, run <:+: outline.code.records ∧ Tiles 0x100 0x106 run) ∧
      ∀ x, f.Covers x → ¬ g.Covers x := by
  intro plain ret call records outline
  have hfits : ∀ r ∈ outline.code.records, r.Fits := by decide +kernel
  have hpoints : (entryPoints outline.code.records
      (.ofDeclarations [(0x100, "a"), (0x200, "b")])).toList = [0x100, 0x106, 0x200] := by
    decide +kernel
  have hwhole : ∀ r ∈ outline.code.records, ∀ e ∈ outline.functions,
      ¬ (r.address < e ∧ e < r.stop) := by
    intro r hr e he
    have he : e ∈ [0x100, 0x106, 0x200] :=
      hpoints ▸ Std.ExtTreeSet.mem_toList.mpr (mem_functions.mp he)
    revert r
    rcases List.mem_cons.mp he with rfl | he
    · decide +kernel
    rcases List.mem_cons.mp he with rfl | he
    · decide +kernel
    obtain rfl := List.mem_singleton.mp he
    decide +kernel
  obtain ⟨htiled, hdisjoint⟩ := functions_tiled_and_disjoint records ∅ _ hfits hwhole
  have hf : outline.functions[(0x100 : UInt32)]? =
      some { entry := 0x100, stop := 0x106, name := "a" } := by decide +kernel
  have hg : outline.functions[(0x106 : UInt32)]? =
      some { entry := 0x106, stop := 0x108, name := "function_00000106" } := by decide +kernel
  have hh : outline.functions[(0x200 : UInt32)]? =
      some { entry := 0x200, stop := 0x200, name := "b" } := by decide +kernel
  exact ⟨hfits, hwhole, _, _, _, hf, hg, hh, rfl, rfl, (htiled _ _ hf).2.2.1,
    hdisjoint _ _ _ _ hf hg (by decide)⟩

end Outline

end Disassembly
