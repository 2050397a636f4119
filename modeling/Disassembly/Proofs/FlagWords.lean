import Disassembly.OutputFlags

/-!
# The words that set and clear flags

A list of words is read from left to right, and what is left of it is the last thing said of each
flag:

* **words** — `Mentions` are the words for setting and clearing a flag, each of which stands for the
  change it mentions and no other (`ofWord?_of_mentions`, `Mentions.unique`);
* **steps** — `Follows` says of the flags before and after a list of words that every flag has the
  value of its last mention and that flags without one are unchanged; one word more in front keeps
  it true (`Follows.cons`);
* **lists** — a list of words that are all understood is followed to its end (`follows_applyWords`),
  and any other up to the first word that is not (`follows_applyWords_unknown`).
-/

namespace Disassembly.OutputFlags

/-! ## Words -/

/-- A word that sets a flag or, with `no` before the name, clears it, in any mixture of cases. -/
def Mentions (word : List Char) (name : Name) (value : Bool) : Prop :=
  word.map Char.toLower = (if value then [] else ['n', 'o']) ++ name.word.toList

/-- A word of one of the two forms. -/
def Understood (word : List Char) : Prop :=
  ∃ name value, Mentions word name value

theorem Name.ofWord?_eq_some_iff {word : List Char} {name : Name} :
    Name.ofWord? word = some name ↔ word = name.word.toList := by
  constructor
  · intro h
    have hword := List.find?_some h
    exact (of_decide_eq_true hword).symm
  · rintro rfl
    cases name <;> decide

/-- No flag's name begins with `no`, so a word cannot be read both ways. -/
theorem Name.word_ne_no (name : Name) (rest : List Char) :
    name.word.toList ≠ 'n' :: 'o' :: rest := by
  cases name <;> simp [Name.word]

/-- A word stands for the change that it mentions. -/
theorem ofWord?_of_mentions {word : List Char} {name : Name} {value : Bool}
    (h : Mentions word name value) : Change.ofWord? word = some ⟨name, value⟩ := by
  have hname : Name.ofWord? name.word.toList = some name := Name.ofWord?_eq_some_iff.mpr rfl
  unfold Change.ofWord?
  cases value with
  | false =>
      have hlower : word.map Char.toLower = 'n' :: 'o' :: name.word.toList := h
      simp only [hlower, hname]
  | true =>
      have hlower : word.map Char.toLower = name.word.toList := h
      simp only [hlower]
      split
      · next rest hno => exact absurd hno (name.word_ne_no rest)
      · rw [hname]
        rfl

theorem mentions_of_ofWord? {word : List Char} {name : Name} {value : Bool}
    (h : Change.ofWord? word = some ⟨name, value⟩) : Mentions word name value := by
  have hset : ∀ {lower : List Char},
      (Name.ofWord? lower).map (fun name => Change.mk name true) = some ⟨name, value⟩ →
        value = true ∧ lower = name.word.toList := by
    intro lower hlower
    obtain ⟨found, hfound, hchange⟩ := Option.map_eq_some_iff.mp hlower
    cases hchange
    exact ⟨rfl, Name.ofWord?_eq_some_iff.mp hfound⟩
  unfold Change.ofWord? at h
  dsimp only at h
  split at h
  · next rest hno =>
      split at h
      · next found hfound =>
          cases h
          rw [Mentions, hno, Name.ofWord?_eq_some_iff.mp hfound]
          rfl
      · -- what begins with `no` is no flag's name
        exact absurd ((hset h).2.symm.trans hno) (name.word_ne_no rest)
  · obtain ⟨rfl, hlower⟩ := hset h
    exact hlower

theorem understood_iff {word : List Char} :
    Understood word ↔ (Change.ofWord? word).isSome = true := by
  rw [Option.isSome_iff_exists]
  constructor
  · rintro ⟨name, value, hword⟩
    exact ⟨_, ofWord?_of_mentions hword⟩
  · rintro ⟨change, hchange⟩
    exact ⟨change.name, change.value, mentions_of_ofWord? hchange⟩

instance : DecidablePred Understood :=
  fun word => decidable_of_iff ((Change.ofWord? word).isSome = true) understood_iff.symm

/-- A word mentions one flag, and one value of it. -/
theorem Mentions.unique {word : List Char} {name name' : Name} {value value' : Bool}
    (h : Mentions word name value) (h' : Mentions word name' value') :
    name = name' ∧ value = value' := by
  have hchange := (ofWord?_of_mentions h).symm.trans (ofWord?_of_mentions h')
  cases hchange
  exact ⟨rfl, rfl⟩

/-! ## Steps -/

/-- No word of a list mentions a flag. -/
def Unmentioned (name : Name) (ws : List (List Char)) : Prop :=
  ∀ w ∈ ws, ∀ value, ¬ Mentions w name value

/-- The value of a flag in the last word of a list that mentions it. -/
inductive LastMention (name : Name) (value : Bool) : List (List Char) → Prop
  | here {w : List Char} {ws : List (List Char)} : Mentions w name value → Unmentioned name ws →
      LastMention name value (w :: ws)
  | later {w : List Char} {ws : List (List Char)} : LastMention name value ws →
      LastMention name value (w :: ws)

/-- The flags before and after a list of words. -/
structure Follows (flags : OutputFlags) (ws : List (List Char)) (result : OutputFlags) : Prop where
  mentioned : ∀ name value, LastMention name value ws → result.get name = value
  unmentioned : ∀ name, Unmentioned name ws → result.get name = flags.get name
  verbose : result.verbose = flags.verbose
  debug : result.debug = flags.debug

theorem Follows.nil (flags : OutputFlags) : Follows flags [] flags where
  mentioned _ _ h := nomatch h
  unmentioned _ _ := rfl
  verbose := rfl
  debug := rfl

/-- A word in front changes its flag, unless a later word mentions the flag again. -/
theorem Follows.cons {flags result : OutputFlags} {w : List Char} {ws : List (List Char)}
    {name : Name} {value : Bool} (hword : Mentions w name value)
    (h : Follows (flags.set name value) ws result) : Follows flags (w :: ws) result where
  mentioned := by
    intro name' value' hlast
    cases hlast with
    | here hfirst hrest =>
        obtain ⟨rfl, rfl⟩ := hword.unique hfirst
        rw [h.unmentioned name hrest, get_set_self]
    | later hlast => exact h.mentioned name' value' hlast
  unmentioned := by
    intro name' hnone
    have hne : name' ≠ name := by
      rintro rfl
      exact hnone w List.mem_cons_self value hword
    rw [h.unmentioned name' fun u hu => hnone u (List.mem_cons_of_mem w hu),
      get_set_of_ne flags value hne]
  verbose := by rw [h.verbose, verbose_set]
  debug := by rw [h.debug, debug_set]

theorem unmentioned_or_lastMention (name : Name) (ws : List (List Char)) :
    Unmentioned name ws ∨ ∃ value, LastMention name value ws := by
  induction ws with
  | nil => exact .inl (List.forall_mem_nil _)
  | cons w ws ih =>
      rcases ih with hnone | ⟨value, hlast⟩
      · by_cases hword : ∃ value, Mentions w name value
        · obtain ⟨value, hword⟩ := hword
          exact .inr ⟨value, .here hword hnone⟩
        · exact .inl (List.forall_mem_cons.mpr ⟨not_exists.mp hword, hnone⟩)
      · exact .inr ⟨value, .later hlast⟩

theorem eq_of_get_eq {flags flags' : OutputFlags} (hget : ∀ name, flags.get name = flags'.get name)
    (hverbose : flags.verbose = flags'.verbose) (hdebug : flags.debug = flags'.debug) :
    flags = flags' := by
  cases flags
  cases flags'
  have houtline := hget .outline
  have haliases := hget .aliases
  have hdollar := hget .dollar
  have hrawWords := hget .rawWords
  simp_all [get]

namespace Follows

variable {flags result result' : OutputFlags} {ws : List (List Char)}

/-- A list of words determines the flags after it. -/
theorem unique (h : Follows flags ws result) (h' : Follows flags ws result') :
    result = result' := by
  refine eq_of_get_eq (fun name => ?_) (h.verbose.trans h'.verbose.symm)
    (h.debug.trans h'.debug.symm)
  rcases unmentioned_or_lastMention name ws with hnone | ⟨value, hlast⟩
  · rw [h.unmentioned name hnone, h'.unmentioned name hnone]
  · rw [h.mentioned name value hlast, h'.mentioned name value hlast]

/-- After a list of words, the same list says nothing new. -/
theorem again (h : Follows flags ws result) : Follows result ws result where
  mentioned := h.mentioned
  unmentioned _ _ := rfl
  verbose := rfl
  debug := rfl

end Follows

/-! ## Lists of words -/

theorem applyWords_cons {w : List Char} {name : Name} {value : Bool}
    (hword : Mentions w name value) (flags : OutputFlags) (ws : List (List Char)) :
    flags.applyWords (w :: ws) = (flags.set name value).applyWords ws := by
  rw [applyWords, ofWord?_of_mentions hword]

/-- Words that are all understood are followed by whatever stands behind them. -/
theorem applyWords_append {before : List (List Char)} (hbefore : ∀ w ∈ before, Understood w)
    (flags : OutputFlags) (ws : List (List Char)) :
    ∃ result, Follows flags before result ∧
      flags.applyWords (before ++ ws) = result.applyWords ws := by
  induction before generalizing flags with
  | nil => exact ⟨flags, .nil flags, rfl⟩
  | cons w before ih =>
      obtain ⟨⟨name, value, hword⟩, hbefore⟩ := List.forall_mem_cons.mp hbefore
      obtain ⟨result, hresult, happly⟩ := ih hbefore (flags.set name value)
      refine ⟨result, .cons hword hresult, ?_⟩
      rw [List.cons_append, applyWords_cons hword, happly]

/-- A list of words that are all understood is followed to its end. -/
theorem follows_applyWords {ws : List (List Char)} (h : ∀ w ∈ ws, Understood w)
    (flags : OutputFlags) :
    Follows flags ws (flags.applyWords ws).1 ∧ (flags.applyWords ws).2 = none := by
  obtain ⟨result, hresult, happly⟩ := applyWords_append h flags []
  rw [List.append_nil] at happly
  rw [happly]
  exact ⟨hresult, rfl⟩

/-- A word that is not understood ends the list, with the words before it in effect. -/
theorem follows_applyWords_unknown {before after : List (List Char)} {w : List Char}
    (hbefore : ∀ u ∈ before, Understood u) (hword : ¬ Understood w) (flags : OutputFlags) :
    Follows flags before (flags.applyWords (before ++ w :: after)).1 ∧
      (flags.applyWords (before ++ w :: after)).2 = some w := by
  obtain ⟨result, hresult, happly⟩ := applyWords_append hbefore flags (w :: after)
  have hnone : Change.ofWord? w = none := by simpa [understood_iff] using hword
  rw [happly, applyWords, hnone]
  exact ⟨hresult, rfl⟩

theorem exists_first_unknown {ws : List (List Char)} (h : ¬ ∀ w ∈ ws, Understood w) :
    ∃ before w after, ws = before ++ w :: after ∧ (∀ u ∈ before, Understood u) ∧
      ¬ Understood w := by
  induction ws with
  | nil => exact absurd (List.forall_mem_nil _) h
  | cons w ws ih =>
      by_cases hword : Understood w
      · obtain ⟨before, u, after, rfl, hbefore, hu⟩ := ih fun hws =>
          h (List.forall_mem_cons.mpr ⟨hword, hws⟩)
        exact ⟨w :: before, u, after, rfl, List.forall_mem_cons.mpr ⟨hword, hbefore⟩, hu⟩
      · exact ⟨[], w, ws, rfl, List.forall_mem_nil _, hword⟩

/-- **Flags have their last value.** When every word of a list names a flag, alone or behind `no`
and in any mixture of cases, the list is accepted, every flag it mentions has the value of its last
mention, all others are unchanged, and the same list once more changes nothing. Otherwise the list
is rejected at its first word of another form, which the rejection names, and the flags are those
after the words before it. -/
theorem flags_have_last_value (flags : OutputFlags) (text : String) :
    ((∀ w ∈ words text.toList, Understood w) →
      (flags.apply text).2 = none ∧ Follows flags (words text.toList) (flags.apply text).1 ∧
        (flags.apply text).1.apply text = flags.apply text) ∧
    ((¬ ∀ w ∈ words text.toList, Understood w) →
      ∃ before w after, words text.toList = before ++ w :: after ∧
        (∀ u ∈ before, Understood u) ∧ ¬ Understood w ∧
        (flags.apply text).2 = some (String.ofList w) ∧
        Follows flags before (flags.apply text).1) := by
  constructor
  · intro hall
    have hfollows : ∀ flags : OutputFlags, (flags.apply text).2 = none ∧
        Follows flags (words text.toList) (flags.apply text).1 := by
      intro flags
      obtain ⟨hresult, hunknown⟩ := follows_applyWords hall flags
      exact ⟨by rw [apply, hunknown]; rfl, hresult⟩
    obtain ⟨hunknown, hresult⟩ := hfollows flags
    obtain ⟨hunknown', hresult'⟩ := hfollows (flags.apply text).1
    refine ⟨hunknown, hresult, Prod.ext (hresult'.unique hresult.again) ?_⟩
    rw [hunknown', hunknown]
  · intro hsome
    obtain ⟨before, w, after, hws, hbefore, hword⟩ := exists_first_unknown hsome
    obtain ⟨hresult, hunknown⟩ := follows_applyWords_unknown hbefore hword flags
    refine ⟨before, w, after, hws, hbefore, hword, ?_, ?_⟩
    · rw [apply, hws, hunknown]
      rfl
    · rw [apply, hws]
      exact hresult

/-- Two flags, one of them mentioned twice, with blanks, an empty word and letters of both cases;
and a list that stops at a `no` without a name, before the flag that it has set is cleared again. -/
theorem flags_have_last_value_interrupted :
    ((∀ w ∈ words " Hexcode,NOregister ,, nohexcode".toList, Understood w) ∧
      Follows { aliases := true, verbose := true } (words " Hexcode,NOregister ,, nohexcode".toList)
        (OutputFlags.apply { aliases := true, verbose := true }
          " Hexcode,NOregister ,, nohexcode").1 ∧
      OutputFlags.apply { aliases := true, verbose := true } " Hexcode,NOregister ,, nohexcode" =
        ({ verbose := true }, none)) ∧
    (¬ ∀ w ∈ words "Dollar, No ,nodollar".toList, Understood w) ∧
      (∃ before w after, words "Dollar, No ,nodollar".toList = before ++ w :: after ∧
        (∀ u ∈ before, Understood u) ∧ ¬ Understood w ∧
        (OutputFlags.apply { debug := true } "Dollar, No ,nodollar").2 = some (String.ofList w) ∧
        Follows { debug := true } before
          (OutputFlags.apply { debug := true } "Dollar, No ,nodollar").1) ∧
      OutputFlags.apply { debug := true } "Dollar, No ,nodollar" =
        ({ dollar := true, debug := true }, some "No") := by
  have hall : ∀ w ∈ words " Hexcode,NOregister ,, nohexcode".toList, Understood w := by decide
  have hsome : ¬ ∀ w ∈ words "Dollar, No ,nodollar".toList, Understood w := by decide
  obtain ⟨_, hfollows, _⟩ := (flags_have_last_value { aliases := true, verbose := true } _).1 hall
  exact ⟨⟨hall, hfollows, by decide⟩, hsome, (flags_have_last_value { debug := true } _).2 hsome,
    by decide⟩

end Disassembly.OutputFlags
