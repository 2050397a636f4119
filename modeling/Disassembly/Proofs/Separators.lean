import Disassembly.Proofs.OutlineMembers

/-!
# Separators

A separator closes a return: it follows the return itself, or the delay slot of a delayed one. While
the code of a region is written, only one separator can be pending, and each return replaces the
pending one by its own. So a separator is written for the latest return only:

* **the pending separator** — after some records it is the one of the latest return among them
  (`Tracks`), as long as it is not written yet; each record keeps this up (`step_tracks`);
* **the lines** — a record is followed by a separator if and only if the latest return up to it has
  its separator there (`linesOf_eq`, `separated_iff`);
* **lost separators** — in code without overlaps, the only separator that is lost is the one after a
  delay slot that is a delayed return itself (`separated_iff_due`).
-/

namespace Disassembly

/-- The address of the record that the separator of a return follows: the delay slot of a delayed
return, and the return itself otherwise. -/
def Record.separatorAddress (record : Record) : UInt32 :=
  if record.isDelayed then record.stop else record.address

theorem Record.eq_of_ascending {records : List Record}
    (hascending : records.Pairwise Record.Before) {r s : Record} (hr : r ∈ records)
    (hs : s ∈ records) (h : r.address = s.address) : r = s :=
  eq_of_address_eq (hascending.imp Before.address_ne) hr hs h

namespace Outline

/-! ## The pending separator -/

/-- The last return of a list of records. -/
def latestReturn? (records : List Record) : Option Record :=
  (records.filter Record.isReturn).getLast?

theorem latestReturn?_concat (done : List Record) (record : Record) :
    latestReturn? (done ++ [record]) =
      if record.isReturn then some record else latestReturn? done := by
  unfold latestReturn?
  rw [List.filter_append]
  split
  · next h => rw [List.filter_singleton, h, cond_true, List.getLast?_concat]
  · next h =>
      rw [Bool.not_eq_true] at h
      rw [List.filter_singleton, h, cond_false, List.append_nil]

/-- What is known about the pending separator after some records: at addresses that lie ahead it is
the one of the latest return. One that is written already may be forgotten. -/
def Tracks (done : List Record) (progress : Progress) : Prop :=
  ∀ a, (∀ r ∈ done, r.address < a) →
    (progress.separatorAfter = some a ↔
      (latestReturn? done).map Record.separatorAddress = some a)

/-- Whether a separator follows a record, when some records stand before it. -/
def closesAfter (done : List Record) (record : Record) : Bool :=
  (latestReturn? (done ++ [record])).map Record.separatorAddress == some record.address

variable {outline : Outline} {done : List Record} {progress : Progress} {record : Record}

/-- What is pending while a record is written. -/
theorem pending_iff (htracks : Tracks done progress)
    (hreturn : record.address ∈ outline.returns ↔ record.isReturn = true) (a : UInt32)
    (hahead : ∀ r ∈ done, r.address < a) :
    (if record.address ∈ outline.returns then
        some (if record.isDelayed then record.stop else record.address)
      else progress.separatorAfter) = some a ↔
      (latestReturn? (done ++ [record])).map Record.separatorAddress = some a := by
  rw [latestReturn?_concat]
  by_cases h : record.isReturn = true
  · rw [if_pos (hreturn.mpr h), if_pos h]
    rfl
  · rw [if_neg (mt hreturn.mp h), if_neg h]
    exact htracks a hahead

/-- Writing a record adds it with what stands before it, and a separator if the latest return asks
for it; what is known about the pending separator stays true. -/
theorem step_tracks (htracks : Tracks done progress)
    (hreturn : record.address ∈ outline.returns ↔ record.isReturn = true)
    (hbefore : ∀ r ∈ done, r.Before record) :
    Tracks (done ++ [record]) (outline.step progress record) ∧
      (outline.step progress record).lines.toList = progress.lines.toList ++
        (outline.introduction record.address ++
          .record record :: if closesAfter done record then [.separator] else []) := by
  have hpending := pending_iff htracks hreturn
  unfold step
  dsimp only
  generalize (if record.address ∈ outline.returns then _ else progress.separatorAfter) = pending
    at hpending ⊢
  have hcloses : closesAfter done record = true ↔ pending = some record.address := by
    rw [closesAfter, beq_iff_eq, hpending record.address hbefore]
  have hrest : ∀ a, (∀ r ∈ done ++ [record], r.address < a) →
      record.address < a ∧ ∀ r ∈ done, r.address < a := by
    intro a ha
    exact ⟨ha record (by simp), fun r hr => ha r (by simp [hr])⟩
  by_cases h : pending = some record.address
  · rw [if_pos h, if_pos (hcloses.mpr h)]
    refine ⟨?_, by simp⟩
    intro a ha
    obtain ⟨hlater, hahead⟩ := hrest a ha
    rw [← hpending a hahead, h]
    -- the separator has just been written, and every address ahead is another one
    simpa using UInt32.ne_of_lt hlater
  · rw [if_neg h, if_neg (mt hcloses.mp h)]
    exact ⟨fun a ha => hpending a (hrest a ha).2, by simp⟩

/-! ## The lines of a region -/

/-- Whether the latest return up to a record has its separator there. -/
def separated (records : List Record) (record : Record) : Bool :=
  (latestReturn? (records.filter fun r => decide (r.address ≤ record.address))).map
    Record.separatorAddress == some record.address

/-- A record with all that is written around it. -/
def written (outline : Outline) (closed : Record → Bool) (record : Record) : List Line :=
  outline.introduction record.address ++
    .record record :: if closed record then [.separator] else []

theorem separated_eq_closesAfter {rest : List Record}
    (hascending : (done ++ record :: rest).Pairwise Record.Before) :
    separated (done ++ record :: rest) record = closesAfter done record := by
  obtain ⟨_, hrest, hdone⟩ := List.pairwise_append.mp hascending
  have hupTo : (done ++ record :: rest).filter (fun r => decide (r.address ≤ record.address)) =
      done ++ [record] := by
    rw [List.filter_append, List.filter_cons_of_pos (by simp)]
    congr 1
    · rw [List.filter_eq_self]
      intro r hr
      exact decide_eq_true (UInt32.le_of_lt (hdone r hr record List.mem_cons_self))
    · congr 1
      rw [List.filter_eq_nil_iff]
      intro r hr
      have hlater : record.address < r.address := (List.pairwise_cons.mp hrest).1 r hr
      simpa using hlater
  rw [separated, hupTo, closesAfter]

theorem foldl_step_lines {rest : List Record} (htracks : Tracks done progress)
    (hascending : (done ++ rest).Pairwise Record.Before)
    (hreturns : ∀ r ∈ rest, r.address ∈ outline.returns ↔ r.isReturn = true) :
    (rest.foldl outline.step progress).lines.toList = progress.lines.toList ++
      rest.flatMap (outline.written (separated (done ++ rest))) := by
  induction rest generalizing done progress with
  | nil => simp
  | cons record rest ih =>
      have hbefore : ∀ r ∈ done, r.Before record := fun r hr =>
        (List.pairwise_append.mp hascending).2.2 r hr record List.mem_cons_self
      obtain ⟨htracks', hlines⟩ :=
        step_tracks htracks (hreturns record List.mem_cons_self) hbefore
      have hshift : done ++ record :: rest = (done ++ [record]) ++ rest := by simp
      rw [List.foldl_cons, ih htracks' (hshift ▸ hascending)
        (fun r hr => hreturns r (List.mem_cons_of_mem record hr)), hlines, ← hshift,
        List.flatMap_cons, written, separated_eq_closesAfter hascending, List.append_assoc]

/-- Ascending records are written one after the other, each with the separator that is pending for
it. -/
theorem linesOf_eq {records : List Record} (hascending : records.Pairwise Record.Before)
    (hreturns : ∀ r ∈ records, r.address ∈ outline.returns ↔ r.isReturn = true) :
    outline.linesOf records = records.flatMap (outline.written (separated records)) := by
  have hstart : Tracks [] {} := fun a _ => by simp [latestReturn?]
  rw [linesOf, foldl_step_lines hstart hascending hreturns]
  rfl

/-! ## Where separators stand -/

/-- No separator and no record stands in front of a record. -/
theorem introduction_ne (outline : Outline) (a : UInt32) {line : Line}
    (h : line ∈ outline.introduction a) : line ≠ .separator ∧ ∀ r, line ≠ .record r := by
  unfold introduction at h
  split at h
  · rw [List.mem_singleton.mp h]
    exact ⟨nofun, nofun⟩
  · split at h
    · rw [List.mem_singleton.mp h]
      exact ⟨nofun, nofun⟩
    · cases h

theorem not_prefix_separator (outline : Outline) (closed : Record → Bool) (records : List Record) :
    ¬ [Line.separator] <+: records.flatMap (outline.written closed) := by
  cases records with
  | nil => simp
  | cons record records =>
      rw [List.flatMap_cons, written]
      cases hintro : outline.introduction record.address with
      | nil => simp
      | cons line lines =>
          have hline := (introduction_ne outline record.address
            (hintro ▸ List.mem_cons_self : line ∈ _)).1
          simpa using hline.symm

/-- Lines without records in front do not matter. -/
theorem infix_append_iff {r : Record} {front lines : List Line}
    (hfront : ∀ line ∈ front, ∀ s, line ≠ .record s) :
    [Line.record r, .separator] <:+: front ++ lines ↔ [Line.record r, .separator] <:+: lines := by
  induction front with
  | nil => rfl
  | cons line front ih =>
      have hline := hfront line List.mem_cons_self r
      rw [List.cons_append, List.infix_cons_iff,
        ih fun l hl => hfront l (List.mem_cons_of_mem line hl)]
      simp [List.cons_prefix_cons, hline.symm]

/-- In lines that are written record by record, a separator follows exactly the closed ones. -/
theorem separator_infix_iff (outline : Outline) (closed : Record → Bool) (records : List Record)
    (r : Record) :
    [Line.record r, .separator] <:+: records.flatMap (outline.written closed) ↔
      r ∈ records ∧ closed r = true := by
  induction records with
  | nil => simp
  | cons record records ih =>
      have hnext := not_prefix_separator outline closed records
      rw [List.flatMap_cons, written, List.append_assoc,
        infix_append_iff fun line hline => (introduction_ne outline _ hline).2, List.cons_append,
        List.infix_cons_iff, List.cons_prefix_cons, List.mem_cons]
      by_cases hclosed : closed record = true
      · rw [if_pos hclosed, infix_append_iff (by simp), ih]
        simp only [Line.record.injEq, List.singleton_append, List.cons_prefix_cons,
          List.nil_prefix, and_true]
        grind
      · rw [if_neg hclosed, List.nil_append, ih]
        grind

/-! ## Returns and their separators -/

/-- The latest of the returns up to a record, itself included. -/
structure LatestReturn (records : List Record) (record latest : Record) : Prop where
  mem : latest ∈ records
  isReturn : latest.isReturn = true
  upTo : latest.address ≤ record.address
  last : ∀ r ∈ records, r.isReturn = true → r.address ≤ record.address →
    r.address ≤ latest.address

/-- A separator is due after a record: it is a return without a delay slot, or the delay slot of a
return. -/
def SeparatorDue (records : List Record) (record : Record) : Prop :=
  record.isReturn = true ∧ record.isDelayed = false ∨
    ∃ r ∈ records, r.isReturn = true ∧ r.isDelayed = true ∧ r.stop = record.address

instance (records : List Record) (record : Record) : Decidable (SeparatorDue records record) :=
  inferInstanceAs (Decidable (_ ∨ _))

/-- No record reaches into another one, or around the end of the address space. -/
def WithoutOverlap (records : List Record) : Prop :=
  ∀ r ∈ records, r.address < r.stop ∧ ∀ s ∈ records, r.address < s.address → r.stop ≤ s.address

instance (records : List Record) : Decidable (WithoutOverlap records) :=
  inferInstanceAs (Decidable (∀ r ∈ records, _))

section

variable {records : List Record} {latest : Record}

/-- The last of ascending records is the one with the highest address. -/
theorem getLast?_eq_some_iff (hascending : records.Pairwise Record.Before) :
    records.getLast? = some latest ↔
      latest ∈ records ∧ ∀ r ∈ records, r.address ≤ latest.address := by
  have hlast : ∀ s, records.getLast? = some s →
      s ∈ records ∧ ∀ r ∈ records, r.address ≤ s.address := by
    intro s hs
    obtain ⟨front, rfl⟩ := List.getLast?_eq_some_iff.mp hs
    refine ⟨by simp, ?_⟩
    intro r hr
    rcases List.mem_append.mp hr with hr | hr
    · exact UInt32.le_of_lt ((List.pairwise_append.mp hascending).2.2 r hr s (by simp))
    · rw [List.mem_singleton.mp hr]
      exact UInt32.le_refl _
  refine ⟨hlast latest, ?_⟩
  rintro ⟨hmem, hhighest⟩
  cases hs : records.getLast? with
  | none =>
      rw [List.getLast?_eq_none_iff.mp hs] at hmem
      cases hmem
  | some s =>
      obtain ⟨hsmem, hshighest⟩ := hlast s hs
      have hsame : s.address = latest.address :=
        UInt32.le_antisymm (hhighest s hsmem) (hshighest latest hmem)
      rw [Record.eq_of_ascending hascending hsmem hmem hsame]

theorem separated_iff (hascending : records.Pairwise Record.Before) (record : Record) :
    separated records record = true ↔
      ∃ latest, LatestReturn records record latest ∧
        latest.separatorAddress = record.address := by
  have hlatest : ∀ r, latestReturn? (records.filter fun r => decide (r.address ≤ record.address)) =
      some r ↔ LatestReturn records record r := by
    intro r
    rw [latestReturn?, getLast?_eq_some_iff ((hascending.filter _).filter _)]
    simp only [List.mem_filter, decide_eq_true_eq]
    constructor
    · rintro ⟨⟨⟨hmem, hupTo⟩, hreturn⟩, hlast⟩
      exact ⟨hmem, hreturn, hupTo, fun s hs hsreturn hsupTo => hlast s ⟨⟨hs, hsupTo⟩, hsreturn⟩⟩
    · rintro ⟨hmem, hreturn, hupTo, hlast⟩
      exact ⟨⟨⟨hmem, hupTo⟩, hreturn⟩, fun s hs => hlast s hs.1.1 hs.2 hs.1.2⟩
  simp only [separated, beq_iff_eq, Option.map_eq_some_iff, hlatest]

/-- The latest return up to a return is that return. -/
theorem latestReturn_self (hmem : record ∈ records) (hreturn : record.isReturn = true) :
    LatestReturn records record record :=
  ⟨hmem, hreturn, UInt32.le_refl _, fun _ _ _ hupTo => hupTo⟩

theorem LatestReturn.unique (hascending : records.Pairwise Record.Before) {other : Record}
    (h : LatestReturn records record latest) (h' : LatestReturn records record other) :
    latest = other :=
  Record.eq_of_ascending hascending h.mem h'.mem <| UInt32.le_antisymm
    (h'.last latest h.mem h.isReturn h.upTo) (h.last other h'.mem h'.isReturn h'.upTo)

/-- No separator is written that is not due. -/
theorem due_of_separated (hascending : records.Pairwise Record.Before) (hmem : record ∈ records)
    (h : separated records record = true) : SeparatorDue records record := by
  obtain ⟨latest, hlatest, haddress⟩ := (separated_iff hascending record).mp h
  unfold Record.separatorAddress at haddress
  split at haddress
  · next hdelayed => exact .inr ⟨latest, hlatest.mem, hlatest.isReturn, hdelayed, haddress⟩
  · next hdelayed =>
      obtain rfl := Record.eq_of_ascending hascending hlatest.mem hmem haddress
      exact .inl ⟨hlatest.isReturn, Bool.not_eq_true _ ▸ hdelayed⟩

/-- Without overlaps, a separator that is due is lost only after a delayed return. -/
theorem separated_iff_due (hascending : records.Pairwise Record.Before)
    (hoverlap : WithoutOverlap records) (hmem : record ∈ records) :
    separated records record = true ↔ SeparatorDue records record ∧
      ¬ (record.isReturn = true ∧ record.isDelayed = true) := by
  constructor
  · intro h
    refine ⟨due_of_separated hascending hmem h, ?_⟩
    rintro ⟨hreturn, hdelayed⟩
    -- a delayed return replaces what is pending by a separator after its own end
    obtain ⟨latest, hlatest, haddress⟩ := (separated_iff hascending record).mp h
    obtain rfl := hlatest.unique hascending (latestReturn_self hmem hreturn)
    rw [Record.separatorAddress, if_pos hdelayed] at haddress
    exact UInt32.ne_of_lt (hoverlap latest hmem).1 haddress.symm
  · rintro ⟨hdue, hplain⟩
    rw [separated_iff hascending]
    by_cases hreturn : record.isReturn = true
    · have hdelayed : ¬ record.isDelayed = true := fun h => hplain ⟨hreturn, h⟩
      refine ⟨record, latestReturn_self hmem hreturn, ?_⟩
      rw [Record.separatorAddress, if_neg hdelayed]
    · rcases hdue with ⟨h, _⟩ | ⟨r, hr, hrreturn, hrdelayed, hstop⟩
      · exact absurd h hreturn
      · obtain ⟨hlt, hnext⟩ := hoverlap r hr
        refine ⟨r, ⟨hr, hrreturn, ?_, ?_⟩, ?_⟩
        · exact hstop ▸ UInt32.le_of_lt hlt
        · intro s hs hsreturn hsupTo
          -- a return behind `r` would be the record itself, which is none
          by_contra hbehind
          have hle := hnext s hs (UInt32.not_le.mp hbehind)
          rw [hstop] at hle
          obtain rfl := Record.eq_of_ascending hascending hs hmem (UInt32.le_antisymm hsupTo hle)
          exact hreturn hsreturn
        · rw [Record.separatorAddress, if_pos hrdelayed, hstop]

end

section

variable (records : List Record) (symbols : Symbols) (entries : Entries) (region : Region)

theorem recordsIn_ascending :
    ((ofCode (Code.ofRecords records) symbols entries).recordsIn region).Pairwise
      Record.Before :=
  (Code.records_ascending records).filter _

/-- An outline knows the returns among the records of a region. -/
theorem mem_returns_iff_isReturn :
    ∀ r ∈ (ofCode (Code.ofRecords records) symbols entries).recordsIn region,
      r.address ∈ (ofCode (Code.ofRecords records) symbols entries).returns ↔
        r.isReturn = true := by
  intro r hr
  obtain ⟨a, ha⟩ := (Code.mem_records _ _).mp (List.mem_filter.mp hr).1
  obtain rfl := (Code.address_of_getElem?_ofRecords ha).1
  rw [mem_returns]
  constructor
  · rintro ⟨s, hs, hreturn⟩
    obtain rfl := Option.some.inj (hs.symm.trans ha)
    exact hreturn
  · intro hreturn
    exact ⟨r, ha, hreturn⟩

end

/-- **Separators.** In the code of a region, written with any outline, the line of a record is
followed by a separator if and only if the latest return up to the record has its separator there.
So every separator is due: the record is a return without a delay slot, or the delay slot of a
delayed return of the region. In code without overlaps every separator that is due is written,
except those after delayed returns: where a delayed return is itself the delay slot of another one,
the separator of that other one is lost. The printed listing is made of these lines, each of which
reads what a line of its sort has to read. -/
theorem separators_follow_latest_return (records : List Record) (symbols : Symbols)
    (entries : Entries) (region : Region) (bias : UInt32) :
    let outline := ofCode (Code.ofRecords records) symbols entries
    let shown := outline.recordsIn region
    let lines := outline.linesOf shown
    outline.listing region bias = String.join (lines.map (Line.text bias)) ∧
    (∀ line : Line, line.Reads bias (line.text bias)) ∧
    outline.Annotates shown lines ∧
    (∀ r ∈ shown, [.record r, .separator] <:+: lines ↔
      ∃ latest, LatestReturn shown r latest ∧ latest.separatorAddress = r.address) ∧
    (∀ r ∈ shown, [.record r, .separator] <:+: lines → SeparatorDue shown r) ∧
    (WithoutOverlap shown → ∀ r ∈ shown, [.record r, .separator] <:+: lines ↔
      SeparatorDue shown r ∧ ¬ (r.isReturn = true ∧ r.isDelayed = true)) := by
  intro outline shown lines
  have hascending := recordsIn_ascending records symbols entries region
  have hreturns := mem_returns_iff_isReturn records symbols entries region
  have hfollowed : ∀ r ∈ shown,
      ([.record r, .separator] <:+: lines ↔ separated shown r = true) := by
    intro r hr
    rw [show lines = _ from linesOf_eq hascending hreturns, separator_infix_iff]
    exact and_iff_right hr
  refine ⟨rfl, Line.reads_text bias, linesOf_annotates outline shown, ?_, ?_, ?_⟩
  · intro r hr
    rw [hfollowed r hr, separated_iff hascending]
  · intro r hr h
    exact due_of_separated hascending hr ((hfollowed r hr).mp h)
  · intro hoverlap r hr
    rw [hfollowed r hr, separated_iff_due hascending hoverlap hr]

/-- A delayed return with its delay slot, and a return in the next line: the first separator follows
the slot, the second one the return. -/
theorem separators_follow_latest_return_slot :
    let plain (a : UInt32) (text : String) (flow : Option Flow) : Record :=
      { address := a, words := [0], size := 2, text, isCode := true, flow }
    let ret (delayed : Bool) : Flow :=
      { kind := .ret, target := none, unconditional := true, delayed }
    let first := plain 0x100 "RET:D" (some (ret true))
    let slot := plain 0x102 "NOP" none
    let last := plain 0x104 "RET" (some (ret false))
    let outline := ofCode (Code.ofRecords [last, slot, first]) ∅ ∅
    let region : Region := { start := 0x100, stop := 0x106 }
    let shown := outline.recordsIn region
    WithoutOverlap shown ∧ shown = [first, slot, last] ∧
      [.record slot, .separator] <:+: outline.linesOf shown ∧
      [.record last, .separator] <:+: outline.linesOf shown ∧
      ¬ [.record first, .separator] <:+: outline.linesOf shown ∧
      (∀ line : Line, line.Reads 0x100 (line.text 0x100)) ∧
      outline.listing region 0x100 =
        "00000100 (00000000) RET:D\n" ++ "00000102 (00000002) NOP\n" ++ "; " ++ Line.dashes ++ "\n"
          ++ "00000104 (00000004) RET\n" ++ "; " ++ Line.dashes ++ "\n" := by
  intro plain ret first slot last outline region shown
  have hshown : shown = [first, slot, last] := by decide +kernel
  have hoverlap : WithoutOverlap shown := by
    rw [hshown]
    decide
  obtain ⟨_, hreads, _, _, _, hall⟩ :=
    separators_follow_latest_return [last, slot, first] ∅ ∅ region 0x100
  have hdue : ∀ r ∈ shown, [.record r, .separator] <:+: outline.linesOf shown ↔ _ := hall hoverlap
  rw [hshown] at hdue
  refine ⟨hoverlap, hshown, ?_⟩
  rw [hshown]
  exact ⟨(hdue slot (by decide)).mpr (by decide), (hdue last (by decide)).mpr (by decide),
    mt (hdue first (by decide)).mp (by decide), hreads, by decide +kernel⟩

/-- Two delayed returns in a row: the second one is the delay slot of the first, and no separator
follows it. -/
theorem separator_lost_between_delayed_returns :
    let job : Job :=
      { memory := (Image.ofBytes 0 #[0x9F, 0x20, 0x9F, 0x20, 0x9F, 0xA0]).memory
        layout :=
          { files := .ofList [{ start := 0, stop := 6 }]
            contents := .ofList [{ start := 0, stop := 6 }] }
        symbols := ∅
        flags := { outline := true } }
    ∃ outline s, job.run.outline = some outline ∧ job.run.sections = [s] ∧
      ∃ r ∈ outline.recordsIn s.region, r.address = 2 ∧ r.text = "RET:D" ∧
        SeparatorDue (outline.recordsIn s.region) r ∧
        ¬ [.record r, .separator] <:+: outline.linesOf (outline.recordsIn s.region) ∧
        outline.listing s.region s.bias =
          "00000000 RET:D\n" ++ "00000002 RET:D\n" ++ "00000004 NOP\n"
            ++ "; " ++ Line.dashes ++ "\n" := by
  intro job
  let ret (a : UInt32) : Record :=
    { address := a, words := [0x9F20], size := 2, text := "RET:D", isCode := true
      flow := some { kind := .ret, target := none, unconditional := true, delayed := true } }
  let nop : Record :=
    { address := 4, words := [0x9FA0], size := 2, text := "NOP", isCode := true, flow := none }
  let s : Section := .backed { start := 0, stop := 6 } { start := 0, stop := 6 }
    { passes := [⟨0, [ret 0]⟩, ⟨2, [ret 2]⟩, ⟨4, [nop]⟩], failure := none }
  have hsections : job.sections = [s] := by
    rw [Job.sections, Job.decoder, Decoder.standard_eq]
    decide +kernel
  have houtline : job.run.outline = some (job.outlineOf [s]) := by
    rw [← hsections]
    rfl
  exact ⟨_, s, houtline, hsections, ret 2, by decide +kernel⟩

end Outline

end Disassembly
