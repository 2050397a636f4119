import Disassembly.Proofs.CommandLine
import Mathlib.Data.List.Perm.Basic
import Mathlib.Data.List.Nodup

/-!
# Occurrences

A parser reports values kind by kind, so the order in which arguments of different kinds were given
shows only in the positions reported with them. `Parser.ReportsPositions` is what a parser has to
keep to: what it reports are the values of each kind with their positions, and positions ascend
along the argument list.

* `Occurrence.sort_eq_mergeSort` — sorting is stable;
* `Reports.occurrences` — the values of all kinds, gathered and sorted, are the items of the
  argument list in the order in which they stand in it;
* `Says.of_read` — so an argument list that can be read says something, and all items are kept in
  order.
-/

namespace Disassembly

namespace Occurrence

/-! ## Sorting -/

theorem insert_append {o : Occurrence} {before after : List Occurrence}
    (hbefore : ∀ o' ∈ before, o'.position < o.position)
    (hafter : ∀ o' ∈ after, o.position ≤ o'.position) :
    insert o (before ++ after) = before ++ o :: after := by
  induction before with
  | nil =>
      cases after with
      | nil => rfl
      | cons next rest => exact if_pos (hafter next List.mem_cons_self)
  | cons first before ih =>
      have hfirst := hbefore first List.mem_cons_self
      have hrest := ih fun o' ho' => hbefore o' (List.mem_cons_of_mem _ ho')
      rw [List.cons_append, insert, if_neg (Nat.not_le.mpr hfirst), hrest]
      rfl

/-- One occurrence stands before another, or at the same position. -/
def standsBy (o o' : Occurrence) : Bool :=
  decide (o.position ≤ o'.position)

theorem standsBy_trans (o o' o'' : Occurrence) (h : standsBy o o' = true)
    (h' : standsBy o' o'' = true) : standsBy o o'' = true := by
  simp only [standsBy, decide_eq_true_eq] at h h' ⊢
  exact Nat.le_trans h h'

theorem standsBy_total (o o' : Occurrence) : (standsBy o o' || standsBy o' o) = true := by
  simp only [standsBy, Bool.or_eq_true, decide_eq_true_eq]
  exact Nat.le_total _ _

theorem sort_eq_mergeSort (occurrences : List Occurrence) :
    sort occurrences = occurrences.mergeSort standsBy := by
  induction occurrences with
  | nil => simp [sort]
  | cons o occurrences ih =>
      -- merge sort, too, puts the first one behind those below it and in front of all others
      obtain ⟨before, after, hsorted, hrest, hbefore⟩ :=
        List.mergeSort_cons standsBy_trans standsBy_total o occurrences
      have hordered := List.pairwise_mergeSort standsBy_trans standsBy_total (o :: occurrences)
      rw [hsorted, List.pairwise_append, List.pairwise_cons] at hordered
      rw [hsorted, sort, List.foldr_cons, ← sort, ih, hrest]
      refine insert_append ?_ ?_
      · intro o' ho'
        have hless := hbefore o' ho'
        simpa [standsBy] using hless
      · intro o' ho'
        exact of_decide_eq_true (hordered.2.1.1 o' ho')

theorem sort_perm (occurrences : List Occurrence) : (sort occurrences).Perm occurrences := by
  rw [sort_eq_mergeSort]
  exact List.mergeSort_perm _ _

theorem pairwise_sort (occurrences : List Occurrence) :
    (sort occurrences).Pairwise fun o o' => o.position ≤ o'.position := by
  rw [sort_eq_mergeSort]
  exact (List.pairwise_mergeSort standsBy_trans standsBy_total _).imp of_decide_eq_true

/-- Occurrences at ascending positions are what sorting makes of any order of them. -/
theorem sort_eq_of_perm {occurrences ordered : List Occurrence}
    (hperm : occurrences.Perm ordered)
    (hascending : (ordered.map position).Pairwise (· < ·)) : sort occurrences = ordered := by
  have hpositions : (ordered.map position).Nodup := hascending.imp Nat.ne_of_lt
  have hordered : ordered.Pairwise fun o o' => o.position ≤ o'.position :=
    (List.pairwise_map.mp hascending).imp Nat.le_of_lt
  have hsorted := (sort_perm occurrences).trans hperm
  refine List.Perm.eq_of_pairwise ?_ (pairwise_sort occurrences) hordered hsorted
  intro o o' ho ho' hle hge
  exact List.inj_on_of_nodup_map hpositions (hsorted.mem_iff.mp ho) ho' (Nat.le_antisymm hle hge)

/-! ## Values of one kind -/

/-- The occurrences of one kind. -/
def ofKind (kind : Kind) (occurrences : List Occurrence) : List Occurrence :=
  occurrences.filter fun o => decide (o.item.kind = kind)

theorem ofKind_append (kind : Kind) (first second : List Occurrence) :
    ofKind kind (first ++ second) = ofKind kind first ++ ofKind kind second :=
  List.filter_append first second

/-- Going through the kinds meets every occurrence once. -/
theorem flatMap_ofKind_perm (occurrences : List Occurrence) :
    (Kind.all.flatMap fun kind => ofKind kind occurrences).Perm occurrences := by
  have hsingle : ∀ o : Occurrence, (Kind.all.flatMap fun kind => ofKind kind [o]) = [o] := by
    rintro ⟨position, item⟩
    cases item with
    | input name => rfl
    | optionsFile path => rfl
    | setting option value => cases option <;> rfl
  induction occurrences with
  | nil => exact .of_eq rfl
  | cons o occurrences ih =>
      have hsplit : (fun kind => ofKind kind (o :: occurrences)) =
          fun kind => ofKind kind [o] ++ ofKind kind occurrences :=
        funext fun kind => ofKind_append kind [o] occurrences
      rw [hsplit]
      refine (List.flatMap_append_perm Kind.all _ _).symm.trans ?_
      rw [hsingle o]
      exact ih.cons o

end Occurrence

/-- The values of one kind among occurrences, with their positions. -/
def Values.among (occurrences : List Occurrence) (kind : Kind) : Values :=
  let own := Occurrence.ofKind kind occurrences
  { positions := own.map Occurrence.position, texts := own.map (·.item.text) }

/-- Values put together again with their positions are the occurrences that they were taken from. -/
theorem Values.occurrences_among (occurrences : List Occurrence) (kind : Kind) :
    (among occurrences kind).occurrences kind = Occurrence.ofKind kind occurrences := by
  have hzip : (among occurrences kind).occurrences kind =
      (Occurrence.ofKind kind occurrences).map fun o => ⟨o.position, kind.item o.item.text⟩ := by
    simp only [Values.occurrences, among, List.zip_map', List.map_map]
    rfl
  rw [hzip]
  refine List.map_congr_left (g := id) ?_ |>.trans (List.map_id _)
  intro o ho
  have hkind : o.item.kind = kind := of_decide_eq_true (List.mem_filter.mp ho).2
  rw [← hkind, Item.item_kind_text]
  rfl

namespace Arguments

/-! ## What a parser reports -/

/-- The items among mentions that stand at positions. -/
def itemsAt (placed : List (Nat × Mention)) : List Occurrence :=
  placed.filterMap fun (position, m) => m.item?.map (Occurrence.mk position)

/-- What is reported of mentions that stand at positions: these ascend, every value is reported
under its kind, with its position and in order, and the output name, if there is one, without. -/
structure Reports (placed : List (Nat × Mention)) (arguments : Arguments) : Prop where
  ascending : (placed.map Prod.fst).Pairwise (· < ·)
  values : ∀ kind, arguments.given.values kind = .among (itemsAt placed) kind
  output : arguments.output.toList = (placed.map Prod.snd).filterMap Mention.output?

/-- A parser that reports each value of what an argument list says with its position in it. -/
def Parser.ReportsPositions (parse : Parser) : Prop :=
  ∀ list arguments, parse list = .ok arguments →
    ∃ placed, Says none list (placed.map Prod.snd) ∧ Reports placed arguments

theorem ascending_itemsAt {placed : List (Nat × Mention)}
    (h : (placed.map Prod.fst).Pairwise (· < ·)) :
    ((itemsAt placed).map Occurrence.position).Pairwise (· < ·) := by
  rw [List.pairwise_map] at h ⊢
  rw [itemsAt, List.pairwise_filterMap]
  refine h.imp ?_
  rintro ⟨position, m⟩ ⟨position', m'⟩ hlt o ho o' ho'
  obtain ⟨item, _, rfl⟩ := Option.map_eq_some_iff.mp ho
  obtain ⟨item', _, rfl⟩ := Option.map_eq_some_iff.mp ho'
  exact hlt

/-- All values, gathered by kind and sorted by position, are the items in the order in which the
argument list says them. -/
theorem Reports.occurrences {placed : List (Nat × Mention)} {arguments : Arguments}
    (h : Reports placed arguments) : arguments.given.occurrences = itemsAt placed := by
  have hgathered : (fun kind => (arguments.given.values kind).occurrences kind) =
      fun kind => Occurrence.ofKind kind (itemsAt placed) := by
    funext kind
    rw [h.values, Values.occurrences_among]
  rw [Given.occurrences, hgathered]
  exact Occurrence.sort_eq_of_perm (Occurrence.flatMap_ofKind_perm _)
    (ascending_itemsAt h.ascending)

/-- What is taken over of the things that an argument list says: the items in order, and the output
name, if there is one. -/
structure Keeps (ms : List Mention) (arguments : Arguments) : Prop where
  items : arguments.items = ms.filterMap Mention.item?
  output : arguments.output.toList = ms.filterMap Mention.output?

theorem Reports.keeps {placed : List (Nat × Mention)} {arguments : Arguments}
    (h : Reports placed arguments) : Keeps (placed.map Prod.snd) arguments where
  items := by
    rw [Arguments.items, h.occurrences, itemsAt, List.map_filterMap, List.filterMap_map]
    congr 1
    funext ⟨position, m⟩
    cases m <;> rfl
  output := h.output

/-- An argument list that can be read says something, and that is kept in order. -/
theorem Says.of_read {parse : Parser} (hparse : parse.ReportsPositions) {list : List String}
    {arguments : Arguments} (h : read list parse = .ok arguments) :
    ∃ ms, Says none (readable list) ms ∧ Keeps ms arguments := by
  obtain ⟨placed, hsaid, hreports⟩ := hparse _ _ h
  exact ⟨_, hsaid, hreports.keeps⟩

end Arguments

end Disassembly
