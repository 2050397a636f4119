import Disassembly.Proofs.Addresses
import Disassembly.Proofs.OutlineNames

/-!
# Where functions end

The end of a function is found record by record, with the address it has come up to, the furthest
address its branches lead to, and whether the last record was a delay slot. Here it is described by
the run of records as a whole:

* **runs** — `runFrom` is the longest run of records without a gap from an address on
  (`runFrom_longest`);
* **closing records** — a record `closes` a run when control never goes past it and no branch up to
  it leads further. The furthest address is only a means to find it (`foldl_reachAfter_le_iff`);
* **the end** — a function ends after the first closing record of its run, or after the delay slot
  of that record, or with the run (`endFrom_eq_endAt`).

`Outline.stop_of_function` says which table and which limit the functions of an outline are found
with.
-/

namespace Disassembly

/-- The records of a table from an address on and below a limit, in ascending order. -/
def Code.between (code : Code) (first limit : UInt32) : List Record :=
  code.records.filter fun r => decide (first ≤ r.address) && decide (r.address < limit)

namespace Record

/-- Whether control never goes on to the next record. -/
def isUnconditional (record : Record) : Bool :=
  match record.flow with
  | some flow => flow.unconditional
  | none => false

/-- Whether the record is a branch with a direct target that lies ahead of it, below the limit, and
past an address. -/
def leadsPast (limit a : UInt32) (record : Record) : Bool :=
  match record.flow.bind Flow.branchTarget? with
  | some t => decide (record.address < t) && decide (t < limit) && decide (a < t)
  | none => false

end Record

namespace Outline

/-- The end of the function at `entry` in a table of code, when the next one starts at `limit`. -/
def extent (code : Code) (entry limit : UInt32) : UInt32 :=
  functionEnd (code.records.dropWhile fun r => decide (r.address < entry)) entry limit

/-! ## Runs of records -/

/-- The first record starts at an address, and each later one where the one before it ends. -/
def Contiguous (a : UInt32) : List Record → Prop
  | [] => True
  | record :: records => record.address = a ∧ Contiguous record.stop records

/-- The longest contiguous run that the records begin with. -/
structure LongestRun (a : UInt32) (records run : List Record) : Prop where
  front : run <+: records
  contiguous : Contiguous a run
  longest : ∀ other, other <+: records → Contiguous a other → other <+: run

/-- The records from an address on, up to the first gap. -/
def runFrom (a : UInt32) : List Record → List Record
  | [] => []
  | record :: records =>
    if record.address = a then record :: runFrom record.stop records else []

theorem runFrom_longest (a : UInt32) (records : List Record) :
    LongestRun a records (runFrom a records) := by
  induction records generalizing a with
  | nil => exact ⟨List.prefix_rfl, trivial, fun other hother _ => hother⟩
  | cons record records ih =>
      by_cases ha : record.address = a
      · obtain ⟨hfront, hcontiguous, hlongest⟩ := ih record.stop
        rw [runFrom, if_pos ha]
        refine ⟨List.cons_prefix_cons.mpr ⟨rfl, hfront⟩, ⟨ha, hcontiguous⟩, ?_⟩
        intro other hother hrun
        rcases List.prefix_cons_iff.mp hother with rfl | ⟨rest, rfl, hrest⟩
        · exact List.nil_prefix
        · exact List.cons_prefix_cons.mpr ⟨rfl, hlongest rest hrest hrun.2⟩
      · rw [runFrom, if_neg ha]
        refine ⟨List.nil_prefix, trivial, ?_⟩
        intro other hother hrun
        rcases List.prefix_cons_iff.mp hother with rfl | ⟨rest, rfl, _⟩
        · exact List.prefix_rfl
        · exact absurd hrun.1 ha

/-! ## Closing records -/

/-- Whether control never goes past the record at position `k` of a run: it does not go on to the
next record, and no branch of the run up to there leads further. -/
def closes (limit : UInt32) (run : List Record) (k : Nat) : Bool :=
  match run[k]? with
  | some record =>
    record.isUnconditional && !(run.take (k + 1)).any (·.leadsPast limit record.address)
  | none => false

/-- The end of a run that is closed at a position, if any: after the closing record, or after its
delay slot if it has one. A run that is not closed ends with its last record, and one without
records at the entry. -/
def endAt (entry : UInt32) (run : List Record) : Option Nat → UInt32
  | none => (run.getLast?.map Record.stop).getD entry
  | some k =>
    match run[k]?, run[k + 1]? with
    | some record, some slot => if record.isDelayed then slot.stop else record.stop
    | some record, none => record.stop
    | none, _ => entry

/-- The first position that closes a run. -/
def closing? (limit : UInt32) (run : List Record) : Option Nat :=
  (List.range run.length).find? (closes limit run)

theorem reachAfter_le_iff (limit reach a : UInt32) (record : Record) :
    reachAfter limit reach record ≤ a ↔ reach ≤ a ∧ record.leadsPast limit a = false := by
  unfold reachAfter Record.leadsPast
  cases record.flow.bind Flow.branchTarget? with
  | none => simp
  | some t =>
      dsimp only
      by_cases hahead : record.address < t ∧ t < limit
      · rw [if_pos hahead, decide_eq_true hahead.1, decide_eq_true hahead.2,
          UInt32.le_iff_toNat_le, UInt32.le_iff_toNat_le, toNat_max]
        simp only [Bool.true_and, decide_eq_false_iff_not, UInt32.lt_iff_toNat_lt]
        omega
      · rw [if_neg hahead]
        simp only [← Bool.decide_and, hahead, decide_false, Bool.false_and, and_true]

theorem foldl_reachAfter_le_iff (limit reach a : UInt32) (records : List Record) :
    records.foldl (reachAfter limit) reach ≤ a ↔
      reach ≤ a ∧ records.any (·.leadsPast limit a) = false := by
  induction records generalizing reach with
  | nil => simp
  | cons record records ih =>
      rw [List.foldl_cons, ih, reachAfter_le_iff, List.any_cons, Bool.or_eq_false_iff, and_assoc]

/-- The closing record as it is found: control does not go past it, and the furthest address that
branches lead to has been reached. -/
def reaches (limit reach : UInt32) (run : List Record) (k : Nat) : Bool :=
  match run[k]? with
  | some record =>
    record.isUnconditional &&
      decide ((run.take (k + 1)).foldl (reachAfter limit) reach ≤ record.address)
  | none => false

theorem reaches_eq_closes {limit entry : UInt32} {run : List Record}
    (hentry : ∀ record ∈ run, entry ≤ record.address) (k : Nat) :
    reaches limit entry run k = closes limit run k := by
  unfold reaches closes
  cases hrecord : run[k]? with
  | none => rfl
  | some record =>
      have hle := hentry record (List.mem_of_getElem? hrecord)
      rw [Bool.eq_iff_iff]
      simp only [Bool.and_eq_true, decide_eq_true_iff, foldl_reachAfter_le_iff,
        Bool.not_eq_true', hle, true_and]

/-! ## The end of a run -/

/-- A position further down the run is one from the next record on. -/
theorem endAt_cons (entry : UInt32) (record : Record) {run : List Record} {position : Option Nat}
    (hposition : ∀ k, position = some k → k < run.length) :
    endAt entry (record :: run) (position.map Nat.succ) = endAt record.stop run position := by
  cases position with
  | none =>
      simp only [Option.map_none, endAt, List.getLast?_cons, Option.map_some, Option.getD_some]
      cases run.getLast? <;> rfl
  | some k =>
      have hk := List.getElem?_eq_getElem (hposition k rfl)
      simp only [Option.map_some, endAt, Nat.succ_eq_add_one, List.getElem?_cons_succ, hk]
      cases run[k + 1]? <;> rfl

/-- The first record closes a run, or else the first position is one of the remaining records. -/
theorem find?_reaches_cons (limit reach : UInt32) (record : Record) (run : List Record) :
    (List.range (record :: run).length).find? (reaches limit reach (record :: run)) =
      if record.isUnconditional = true ∧ reachAfter limit reach record ≤ record.address then some 0
      else ((List.range run.length).find?
        (reaches limit (reachAfter limit reach record) run)).map Nat.succ := by
  have hfirst : reaches limit reach (record :: run) 0 = true ↔
      record.isUnconditional = true ∧ reachAfter limit reach record ≤ record.address := by
    simp [reaches]
  have hlater : reaches limit reach (record :: run) ∘ Nat.succ =
      reaches limit (reachAfter limit reach record) run := rfl
  rw [List.length_cons, List.range_succ_eq_map]
  by_cases h : reaches limit reach (record :: run) 0 = true
  · rw [List.find?_cons_of_pos h, if_pos (hfirst.mp h)]
  · rw [List.find?_cons_of_neg h, if_neg fun hclosed => h (hfirst.mpr hclosed), List.find?_map,
      hlater]

/-- After a delayed transfer only the delay slot follows. -/
theorem endFrom_lastSlot {limit a : UInt32} (reach : UInt32) {run : List Record}
    (hrun : Contiguous a run) (hlimit : ∀ record ∈ run, record.address < limit) :
    endFrom limit a reach true run = (run.head?.map Record.stop).getD a := by
  cases run with
  | nil => rfl
  | cons slot run =>
      have hbelow := hlimit slot List.mem_cons_self
      have hgo : ¬ (limit ≤ slot.address ∨ slot.address ≠ a) := by
        rintro (hle | hne)
        · exact UInt32.not_le.mpr hbelow hle
        · exact hne hrun.1
      rw [endFrom, if_neg hgo, if_pos rfl]
      rfl

/-- One round of the walk along a contiguous run. -/
theorem endFrom_cons {limit a : UInt32} (reach : UInt32) {record : Record} {run : List Record}
    (hrun : Contiguous a (record :: run))
    (hlimit : ∀ r ∈ record :: run, r.address < limit) :
    endFrom limit a reach false (record :: run) =
      if record.isUnconditional = true ∧ reachAfter limit reach record ≤ record.address then
        if record.isDelayed then (run.head?.map Record.stop).getD record.stop else record.stop
      else endFrom limit record.stop (reachAfter limit reach record) false run := by
  have hbelow := hlimit record List.mem_cons_self
  have hslot := endFrom_lastSlot (reachAfter limit reach record) hrun.2
    fun r hr => hlimit r (List.mem_cons_of_mem record hr)
  have hgo : ¬ (limit ≤ record.address ∨ record.address ≠ a) := by
    rintro (hle | hne)
    · exact UInt32.not_le.mpr hbelow hle
    · exact hne hrun.1
  rw [endFrom, if_neg hgo, if_neg Bool.false_ne_true]
  unfold Record.isUnconditional Record.isDelayed
  cases record.flow with
  | none => simp
  | some flow => simp only [hslot]

/-- The walk along a contiguous run below the limit ends at the first record that closes the run. -/
theorem endFrom_eq_endAt {limit a : UInt32} (reach : UInt32) {run : List Record}
    (hrun : Contiguous a run) (hlimit : ∀ record ∈ run, record.address < limit) :
    endFrom limit a reach false run =
      endAt a run ((List.range run.length).find? (reaches limit reach run)) := by
  induction run generalizing a reach with
  | nil => rfl
  | cons record run ih =>
      rw [endFrom_cons reach hrun hlimit, find?_reaches_cons]
      by_cases hcloses : record.isUnconditional = true ∧
          reachAfter limit reach record ≤ record.address
      · -- nothing but the delay slot can follow
        rw [if_pos hcloses, if_pos hcloses]
        cases run with
        | nil => simp [endAt]
        | cons slot run => simp [endAt]
      · -- the positions in the rest of the run count from the next record
        rw [if_neg hcloses, if_neg hcloses, ih _ hrun.2
          fun r hr => hlimit r (List.mem_cons_of_mem record hr), endAt_cons]
        intro k hk
        exact List.mem_range.mp (List.mem_of_find?_eq_some hk)

/-! ## The run of a function in its table -/

/-- The walk never sees past the limit or past a gap. -/
theorem endFrom_runFrom (limit a reach : UInt32) (lastSlot : Bool) (records : List Record) :
    endFrom limit a reach lastSlot records = endFrom limit a reach lastSlot
      (runFrom a (records.takeWhile fun r => decide (r.address < limit))) := by
  induction records generalizing a reach lastSlot with
  | nil => rfl
  | cons record records ih =>
      by_cases hlimit : record.address < limit
      · rw [List.takeWhile_cons_of_pos (by simpa using hlimit), runFrom]
        by_cases ha : record.address = a
        · rw [if_pos ha, endFrom, endFrom]
          simp only [← ih]
        · rw [if_neg ha]
          exact if_pos (.inr ha)
      · rw [List.takeWhile_cons_of_neg (by simpa using hlimit)]
        exact if_pos (.inl (UInt32.not_lt.mp hlimit))

theorem dropWhile_address_eq {records : List Record} (hascending : records.Pairwise Record.Before)
    (a : UInt32) :
    records.dropWhile (fun r => decide (r.address < a)) =
      records.filter fun r => decide (a ≤ r.address) := by
  induction records with
  | nil => rfl
  | cons record records ih =>
      obtain ⟨hbefore, hrest⟩ := List.pairwise_cons.mp hascending
      by_cases h : record.address < a
      · rw [List.dropWhile_cons_of_pos (by simpa using h), ih hrest,
          List.filter_cons_of_neg (by simpa using UInt32.not_le.mpr h)]
      · have hle : a ≤ record.address := UInt32.not_lt.mp h
        rw [List.dropWhile_cons_of_neg (by simpa using h)]
        symm
        rw [List.filter_eq_self]
        intro r hr
        rcases List.mem_cons.mp hr with rfl | hr
        · exact decide_eq_true hle
        · exact decide_eq_true (UInt32.le_trans hle (UInt32.le_of_lt (hbefore r hr)))

theorem takeWhile_address_eq {records : List Record} (hascending : records.Pairwise Record.Before)
    (limit : UInt32) :
    records.takeWhile (fun r => decide (r.address < limit)) =
      records.filter fun r => decide (r.address < limit) := by
  induction records with
  | nil => rfl
  | cons record records ih =>
      obtain ⟨hbefore, hrest⟩ := List.pairwise_cons.mp hascending
      by_cases h : record.address < limit
      · rw [List.takeWhile_cons_of_pos (by simpa using h), ih hrest,
          List.filter_cons_of_pos (by simpa using h)]
      · rw [List.takeWhile_cons_of_neg (by simpa using h)]
        symm
        rw [List.filter_eq_nil_iff]
        intro r hr hlt
        rcases List.mem_cons.mp hr with rfl | hr
        · exact h (of_decide_eq_true hlt)
        · exact h (UInt32.lt_trans (hbefore r hr) (of_decide_eq_true hlt))

/-- The records that a function can take up are those of the table between its entry and the
limit. -/
theorem between_eq (records : List Record) (entry limit : UInt32) :
    (Code.ofRecords records).between entry limit =
      ((Code.ofRecords records).records.dropWhile fun r => decide (r.address < entry)).takeWhile
        fun r => decide (r.address < limit) := by
  have hascending := Code.records_ascending records
  rw [dropWhile_address_eq hascending, takeWhile_address_eq (hascending.filter _),
    List.filter_filter, Code.between]
  congr 1
  funext r
  exact Bool.and_comm _ _

theorem extent_eq_endAt (records : List Record) (entry limit : UInt32) :
    let run := runFrom entry ((Code.ofRecords records).between entry limit)
    extent (Code.ofRecords records) entry limit = endAt entry run (closing? limit run) := by
  intro run
  have hmem : ∀ r ∈ run, entry ≤ r.address ∧ r.address < limit := by
    intro r hr
    have hr := (runFrom_longest _ _).front.subset hr
    simpa [Code.between] using (List.mem_filter.mp hr).2
  have hreaches : reaches limit entry run = closes limit run :=
    funext (reaches_eq_closes fun r hr => (hmem r hr).1)
  rw [extent, functionEnd, endFrom_runFrom, ← between_eq,
    endFrom_eq_endAt entry (runFrom_longest _ _).contiguous fun r hr => (hmem r hr).2, closing?,
    ← hreaches]

/-! ## The functions of an outline -/

theorem dropWhile_dropWhile_address {a b : UInt32} (hle : a ≤ b) (records : List Record) :
    (records.dropWhile fun r => decide (r.address < a)).dropWhile
        (fun r => decide (r.address < b)) =
      records.dropWhile fun r => decide (r.address < b) := by
  induction records with
  | nil => rfl
  | cons record records ih =>
      by_cases ha : record.address < a
      · have hb := UInt32.lt_of_lt_of_le ha hle
        rw [List.dropWhile_cons_of_pos (by simpa using ha), ih,
          List.dropWhile_cons_of_pos (by simpa using hb)]
      · rw [List.dropWhile_cons_of_neg (by simpa using ha)]

/-- The records before the first entry do not matter. -/
theorem functionsAt_dropWhile (name : UInt32 → String) {points : List UInt32} {a : UInt32}
    (hpoints : ∀ point ∈ points, a < point) (records : List Record) :
    functionsAt name points (records.dropWhile fun r => decide (r.address < a)) =
      functionsAt name points records := by
  cases points with
  | nil => rfl
  | cons point points =>
      have hle := UInt32.le_of_lt (hpoints point List.mem_cons_self)
      rw [functionsAt, functionsAt, dropWhile_dropWhile_address hle]

/-- Each function is looked for in the whole table. -/
theorem functionsAt_cons (name : UInt32 → String) {entry : UInt32} {entries : List UInt32}
    (hascending : (entry :: entries).Pairwise (· < ·)) (code : Code) :
    functionsAt name (entry :: entries) code.records =
      { entry, stop := extent code entry (entries.head?.getD 0xFFFFFFFF), name := name entry }
        :: functionsAt name entries code.records := by
  rw [functionsAt, functionsAt_dropWhile name (List.pairwise_cons.mp hascending).1, extent]

theorem stop_of_mem_functionsAt {name : UInt32 → String} {points : List UInt32}
    (hascending : points.Pairwise (· < ·)) {code : Code} {f : Function}
    (h : f ∈ functionsAt name points code.records) :
    ∃ before after, points = before ++ f.entry :: after ∧
      f.stop = extent code f.entry (after.head?.getD 0xFFFFFFFF) := by
  induction points with
  | nil => cases h
  | cons point points ih =>
      rw [functionsAt_cons name hascending] at h
      rcases List.mem_cons.mp h with rfl | h
      · exact ⟨[], points, rfl, rfl⟩
      · obtain ⟨before, after, hpoints, hstop⟩ := ih (List.pairwise_cons.mp hascending).2 h
        exact ⟨point :: before, after, by rw [hpoints, List.cons_append], hstop⟩

theorem entryPoints_ascending (records : List Record) (entries : Entries) :
    (entryPoints records entries).toList.Pairwise (· < ·) :=
  Std.ExtTreeSet.ordered_toList.imp Std.compare_eq_lt.mp

/-- Every function ends where the table says, and at the latest at the next entry point. -/
theorem stop_of_function {code : Code} {symbols : Symbols} {entries : Entries} {a : UInt32}
    {f : Function} (h : (ofCode code symbols entries).functions[a]? = some f) :
    ∃ before after, (entryPoints code.records entries).toList = before ++ a :: after ∧
      f.stop = extent code a (after.head?.getD 0xFFFFFFFF) := by
  obtain ⟨rfl, hf⟩ := mem_functionsAt_of_function h
  exact stop_of_mem_functionsAt (entryPoints_ascending _ _) hf

/-- The end of a function in any table of code is that of the longest run of records from its entry
on and below the limit: after the first record that closes the run, or after the delay slot of that
record, or after the last record. Every function of an outline ends there, the limit being the next
entry point or else the last address. -/
theorem functions_end_with_closing_record (records : List Record) (entry limit : UInt32) :
    (∃ run, LongestRun entry ((Code.ofRecords records).between entry limit) run ∧
      extent (Code.ofRecords records) entry limit = endAt entry run (closing? limit run)) ∧
    ∀ (symbols : Symbols) (entries : Entries) (f : Function),
      (ofCode (Code.ofRecords records) symbols entries).functions[entry]? = some f →
      ∃ before after,
        (entryPoints (Code.ofRecords records).records entries).toList
          = before ++ entry :: after ∧
        f.stop = extent (Code.ofRecords records) entry (after.head?.getD 0xFFFFFFFF) := by
  refine ⟨⟨_, runFrom_longest _ _, extent_eq_endAt records entry limit⟩, ?_⟩
  intro symbols entries f hf
  exact stop_of_function hf

/-- A branch over an early return: the function goes on to the delayed return that the branch leads
to, and takes its delay slot with it. -/
theorem functions_end_with_closing_record_early_return :
    let plain (a : UInt32) (flow : Option Flow) : Record :=
      { address := a, words := [0], size := 2, text := "", isCode := true, flow }
    let ret (delayed : Bool) : Flow :=
      { kind := .ret, target := none, unconditional := true, delayed }
    let ahead : Flow :=
      { kind := .branch, target := some 0x106, unconditional := false, delayed := false }
    let records := [plain 0x10A none, plain 0x108 none, plain 0x106 (some (ret true)),
      plain 0x104 none, plain 0x102 (some (ret false)), plain 0x100 (some ahead)]
    let code := Code.ofRecords records
    let entries := Entries.ofDeclarations [(0x100, "sub")]
    ∃ run f, LongestRun 0x100 (code.between 0x100 0xFFFFFFFF) run ∧
      extent code 0x100 0xFFFFFFFF = endAt 0x100 run (closing? 0xFFFFFFFF run) ∧
      (ofCode code ∅ entries).functions[(0x100 : UInt32)]? = some f ∧
      f.stop = extent code 0x100 0xFFFFFFFF ∧ f.stop = 0x10A := by
  intro plain ret ahead records code entries
  obtain ⟨⟨run, hrun, hend⟩, hfunctions⟩ :=
    functions_end_with_closing_record records 0x100 0xFFFFFFFF
  have hfunction : (ofCode code ∅ entries).functions[(0x100 : UInt32)]? =
      some { entry := 0x100, stop := 0x10A, name := "sub" } := by decide +kernel
  have hpoints : (entryPoints code.records entries).toList = [0x100] := by
    decide +kernel
  obtain ⟨before, after, hsplit, hstop⟩ := hfunctions _ _ _ hfunction
  rw [hpoints] at hsplit
  obtain ⟨_, rfl⟩ : before = [] ∧ after = [] := by
    simpa using List.append_eq_cons_iff.mp hsplit.symm
  exact ⟨run, _, hrun, hend, hfunction, hstop, rfl⟩

end Outline

end Disassembly
