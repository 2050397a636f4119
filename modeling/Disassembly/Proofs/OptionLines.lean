import Disassembly.Arguments.OptionsFile
import Disassembly.Proofs.Trimming
import Mathlib.Data.List.Forall2

/-!
# The lines of an options file

An options file is read line by line, and every line on its own:

* **layout** — the arguments of a text are those of its lines in order (`tokens_joinPieces`), so
  lines without arguments can be put in and left out (`tokens_of_idle`), and so can blanks around
  a text (`tokens_blanks_append`, `tokens_append_blanks`);
* **lines** — `LineSays` are the ways of writing an option with its argument or a single argument
  on a line, and each is read as written (`LineSays.tokens_eq`);
* **arguments** — no argument is empty (`ne_nil_of_mem_tokens`).
-/

namespace Disassembly.Arguments

open Text

/-! ## Texts line by line -/

theorem tokens_nil : tokens [] = [] := rfl

theorem tokens_append (text rest : List Char) :
    tokens (text ++ '\n' :: rest) = tokens text ++ tokens rest := by
  rw [tokens, pieces_append, List.flatMap_append]
  rfl

/-- The arguments of a text are those of its parts, wherever it is cut into lines. -/
theorem tokens_joinPieces (texts : List (List Char)) :
    tokens (joinPieces '\n' texts) = texts.flatMap tokens := by
  induction texts with
  | nil => rfl
  | cons text texts ih =>
      cases texts with
      | nil => simp [joinPieces]
      | cons next texts => rw [joinPieces, tokens_append, ih]; rfl

theorem tokens_of_line {line : List Char} (h : '\n' ∉ line) : tokens line = lineTokens line := by
  rw [tokens, pieces_of_not_mem h, List.flatMap_singleton]

/-! ## Blanks and comments -/

theorem lineTokens_congr {line line' : List Char} (h : trim line = trim line') :
    lineTokens line = lineTokens line' := by
  rw [lineTokens, lineTokens, h]

/-- A blank at the beginning of a text stands alone on a line or begins one. -/
theorem tokens_cons_blank {b : Char} (hb : isBlank b = true) (text : List Char) :
    tokens (b :: text) = tokens text := by
  by_cases hline : b = '\n'
  · subst hline
    exact tokens_append [] text
  · rw [tokens, tokens, pieces, if_neg hline]
    split
    · next hpieces => exact absurd hpieces (pieces_ne_nil '\n' text)
    · next line lines hpieces =>
        have htrim : trim (b :: line) = trim line :=
          trim_blanks_append (List.forall_mem_singleton.mpr hb) line
        rw [hpieces, List.flatMap_cons, List.flatMap_cons, lineTokens_congr htrim]

theorem joinPieces_append (sep : Char) (ps : List (List Char)) (p cs : List Char) :
    joinPieces sep (ps ++ [p]) ++ cs = joinPieces sep (ps ++ [p ++ cs]) := by
  induction ps with
  | nil => rfl
  | cons q ps ih =>
      cases ps with
      | nil => simp [joinPieces]
      | cons r ps => simpa [joinPieces] using ih

/-- A blank at the end of a text ends its last line or begins an empty one. -/
theorem tokens_concat_blank {b : Char} (hb : isBlank b = true) (text : List Char) :
    tokens (text ++ [b]) = tokens text := by
  by_cases hline : b = '\n'
  · subst hline
    rw [tokens_append, tokens_nil, List.append_nil]
  · have hpieces := List.dropLast_append_getLast (pieces_ne_nil '\n' text)
    have hlast := not_mem_of_mem_pieces (List.getLast_mem (pieces_ne_nil '\n' text))
    generalize (pieces '\n' text).dropLast = lines at hpieces
    generalize (pieces '\n' text).getLast _ = last at hpieces hlast
    have hcut : text = joinPieces '\n' (lines ++ [last]) := by rw [hpieces, join_pieces]
    have htrim : trim (last ++ [b]) = trim last :=
      trim_append_blanks (List.forall_mem_singleton.mpr hb) last
    have htokens : tokens (last ++ [b]) = tokens last := by
      rw [tokens_of_line (by simpa [hlast] using Ne.symm hline), tokens_of_line hlast,
        lineTokens_congr htrim]
    rw [hcut, joinPieces_append, tokens_joinPieces, tokens_joinPieces, List.flatMap_append,
      List.flatMap_append, List.flatMap_singleton, List.flatMap_singleton, htokens]

theorem tokens_blanks_append {front : List Char} (hfront : ∀ c ∈ front, isBlank c = true)
    (text : List Char) : tokens (front ++ text) = tokens text := by
  induction front with
  | nil => rfl
  | cons b front ih =>
      obtain ⟨hb, hfront⟩ := List.forall_mem_cons.mp hfront
      rw [List.cons_append, tokens_cons_blank hb, ih hfront]

theorem tokens_append_blanks {back : List Char} (hback : ∀ c ∈ back, isBlank c = true)
    (text : List Char) : tokens (text ++ back) = tokens text := by
  induction back generalizing text with
  | nil => rw [List.append_nil]
  | cons b back ih =>
      obtain ⟨hb, hback⟩ := List.forall_mem_cons.mp hback
      rw [List.append_cons, ih hback, tokens_concat_blank hb]

/-- A text that says nothing: blanks alone, or a comment with blanks before it. -/
inductive Idle : List Char → Prop
  | blank {line : List Char} : (∀ c ∈ line, isBlank c = true) → Idle line
  | comment {indent rest : List Char} : (∀ c ∈ indent, isBlank c = true) → '\n' ∉ rest →
      Idle (indent ++ '#' :: rest)

theorem tokens_of_idle {line : List Char} (h : Idle line) : tokens line = [] := by
  cases h with
  | blank hblank =>
      rw [← List.append_nil line, tokens_blanks_append hblank, tokens_nil]
  | @comment indent rest hindent hrest =>
      have hline : '\n' ∉ '#' :: rest := by simpa using hrest
      rw [tokens_blanks_append hindent, tokens_of_line hline, lineTokens, trim_cons (by decide)]
      rfl

/-! ## Lines -/

/-- An option with one letter, the gap behind it and its argument, as they fit on a line. -/
structure OptionParts (letter : Char) (gap argument : List Char) : Prop where
  letter_ne_dash : letter ≠ '-'
  letter_ne_newline : letter ≠ '\n'
  gap_ne_nil : gap ≠ []
  gap_blank : ∀ b ∈ gap, isBlank b = true
  newline_not_mem_gap : '\n' ∉ gap
  argument_ne_nil : argument ≠ []
  argument_trimmed : Trimmed argument
  newline_not_mem_argument : '\n' ∉ argument

/-- An option and its argument on one line. -/
def optionLine (letter : Char) (gap argument : List Char) : List Char :=
  '-' :: letter :: (gap ++ argument)

/-- The ways of writing arguments on a line. -/
inductive LineSays : List Char → List (List Char) → Prop
  | option {letter : Char} {gap argument : List Char} : OptionParts letter gap argument →
      LineSays (optionLine letter gap argument) [['-', letter], argument]
  | single {line : List Char} : line ≠ [] → Trimmed line → '\n' ∉ line → line.head? ≠ some '#' →
      (∀ letter gap argument, OptionParts letter gap argument →
        line ≠ optionLine letter gap argument) →
      LineSays line [line]

/-- Behind a blank inside a trimmed line there is something that is not blank. -/
theorem exists_argument {c c' blank : Char} {rest : List Char}
    (h : Trimmed (c :: c' :: blank :: rest)) (hblank : isBlank blank = true) :
    ∃ gap argument, rest = gap ++ argument ∧ (∀ b ∈ gap, isBlank b = true) ∧ argument ≠ [] ∧
      Trimmed argument := by
  have hcut := List.takeWhile_append_dropWhile (p := isBlank) (l := rest)
  have hgap : ∀ b ∈ rest.takeWhile isBlank, isBlank b = true := fun b => isBlank_of_mem_takeWhile
  have hne : rest.dropWhile isBlank ≠ [] := by
    -- otherwise the line would end in a blank
    intro hnil
    rw [hnil, List.append_nil] at hcut
    rw [hcut] at hgap
    have hall : ∀ b ∈ blank :: rest, isBlank b = true :=
      List.forall_mem_cons.mpr ⟨hblank, hgap⟩
    have hlast := h.last ((blank :: rest).getLast (List.cons_ne_nil _ _)) (by
      rw [List.getLast?_cons_cons, List.getLast?_cons_cons, List.getLast?_eq_some_getLast])
    rw [hall _ (List.getLast_mem _)] at hlast
    cases hlast
  refine ⟨rest.takeWhile isBlank, rest.dropWhile isBlank, hcut.symm, hgap, hne, ?_, ?_⟩
  · intro c hc
    exact isBlank_head?_dropWhile hc
  · intro c hc
    refine h.last c ?_
    rw [← hcut, ← List.cons_append, ← List.cons_append, ← List.cons_append,
      List.getLast?_append_of_ne_nil _ hne, hc]

namespace OptionParts

variable {letter : Char} {gap argument : List Char}

theorem trimmed (h : OptionParts letter gap argument) :
    Trimmed (optionLine letter gap argument) where
  head := by
    rintro _ ⟨⟩
    decide
  last c hc := by
    rw [optionLine, ← List.cons_append, ← List.cons_append,
      List.getLast?_append_of_ne_nil _ h.argument_ne_nil] at hc
    exact h.argument_trimmed.last c hc

theorem newline_not_mem (h : OptionParts letter gap argument) :
    '\n' ∉ optionLine letter gap argument := by
  simp [optionLine, Ne.symm h.letter_ne_newline, h.newline_not_mem_gap, h.newline_not_mem_argument]

theorem lineTokens_eq (h : OptionParts letter gap argument) :
    lineTokens (optionLine letter gap argument) = [['-', letter], argument] := by
  obtain ⟨b, gap', rfl⟩ := List.exists_cons_of_ne_nil h.gap_ne_nil
  obtain ⟨hb, hgap⟩ := List.forall_mem_cons.mp h.gap_blank
  have htrim : trim (gap' ++ argument) = argument := by
    rw [trim_blanks_append hgap, h.argument_trimmed.trim_eq]
  rw [lineTokens, h.trimmed.trim_eq]
  show (if letter ≠ '-' ∧ isBlank b = true then [['-', letter], trim (gap' ++ argument)]
    else _) = _
  rw [if_pos ⟨h.letter_ne_dash, hb⟩, htrim]

end OptionParts

/-- A dash, a letter and a blank at the beginning of a trimmed line are an option before its
argument. -/
theorem exists_optionParts {letter blank : Char} {rest : List Char}
    (h : Trimmed ('-' :: letter :: blank :: rest)) (hline : '\n' ∉ '-' :: letter :: blank :: rest)
    (hletter : letter ≠ '-') (hblank : isBlank blank = true) :
    ∃ gap argument, OptionParts letter gap argument ∧
      '-' :: letter :: blank :: rest = optionLine letter gap argument := by
  obtain ⟨gap, argument, rfl, hgap, hne, htrimmed⟩ := exists_argument h hblank
  simp only [List.mem_cons, List.mem_append, not_or] at hline
  obtain ⟨_, hnoLetter, hnoBlank, hnoGap, hnoArgument⟩ := hline
  refine ⟨blank :: gap, argument, ?_, rfl⟩
  exact {
    letter_ne_dash := hletter
    letter_ne_newline := Ne.symm hnoLetter
    gap_ne_nil := List.cons_ne_nil _ _
    gap_blank := List.forall_mem_cons.mpr ⟨hblank, hgap⟩
    newline_not_mem_gap := List.not_mem_cons_of_ne_of_not_mem hnoBlank hnoGap
    argument_ne_nil := hne
    argument_trimmed := htrimmed
    newline_not_mem_argument := hnoArgument }

namespace LineSays

variable {line : List Char} {arguments : List (List Char)}

theorem lineTokens_eq (h : LineSays line arguments) : lineTokens line = arguments := by
  cases h with
  | option hparts => exact hparts.lineTokens_eq
  | single hne htrimmed hline hcomment hplain =>
      rw [lineTokens, htrimmed.trim_eq]
      split
      · exact absurd rfl hne
      · exact absurd rfl hcomment
      · next letter blank rest =>
          refine if_neg ?_
          rintro ⟨hletter, hblank⟩
          obtain ⟨gap, argument, hparts, hcut⟩ := exists_optionParts htrimmed hline hletter hblank
          exact hplain letter gap argument hparts hcut
      · rfl

theorem tokens_eq (h : LineSays line arguments) : tokens line = arguments := by
  have hline : '\n' ∉ line := by
    cases h with
    | option hparts => exact hparts.newline_not_mem
    | single _ _ hline _ _ => exact hline
  rw [tokens_of_line hline, h.lineTokens_eq]

end LineSays

/-- Lines written one below the other are read one after the other. -/
theorem tokens_of_lineSays {lines : List (List Char)} {arguments : List (List (List Char))}
    (h : List.Forall₂ LineSays lines arguments) :
    tokens (joinPieces '\n' lines) = arguments.flatten := by
  rw [tokens_joinPieces]
  induction h with
  | nil => rfl
  | cons hline _ ih => rw [List.flatMap_cons, List.flatten_cons, hline.tokens_eq, ih]

/-! ## Arguments -/

theorem ne_nil_of_mem_lineTokens {line argument : List Char} (h : argument ∈ lineTokens line) :
    argument ≠ [] := by
  have htrimmed := trimmed_trim line
  unfold lineTokens at h
  split at h
  · cases h
  · cases h
  · next c blank rest hline =>
      split at h
      · next hoption =>
          rw [hline] at htrimmed
          obtain ⟨gap, argument', rfl, hgap, hne, htrimmed'⟩ := exists_argument htrimmed hoption.2
          rw [trim_blanks_append hgap, htrimmed'.trim_eq] at h
          simp only [List.mem_cons, List.not_mem_nil, or_false] at h
          rcases h with rfl | rfl
          · exact List.cons_ne_nil _ _
          · exact hne
      · rw [List.mem_singleton.mp h]
        exact List.cons_ne_nil _ _
  · next hne _ _ =>
      rw [List.mem_singleton.mp h]
      exact hne

theorem ne_nil_of_mem_tokens {text argument : List Char} (h : argument ∈ tokens text) :
    argument ≠ [] := by
  obtain ⟨line, _, hline⟩ := List.mem_flatMap.mp h
  exact ne_nil_of_mem_lineTokens hline

/-- **Options files are read line by line.** The arguments of two texts with a line break between
them are those of the first and then those of the second. Blank lines and comments, blanks around
any part of a text, and carriage returns before line breaks make no difference, wherever they stand.
Lines on which an option stands with its argument or an argument alone give exactly these arguments,
in order, and no argument of any text is empty. -/
theorem options_file_reads_by_line :
    (∀ text rest, tokens (text ++ '\n' :: rest) = tokens text ++ tokens rest) ∧
    (∀ (before after : List (List Char)) (line : List Char), Idle line →
      tokens (joinPieces '\n' (before ++ line :: after)) =
        tokens (joinPieces '\n' (before ++ after))) ∧
    (∀ (before after : List (List Char)) (front text back : List Char),
      (∀ b ∈ front, isBlank b = true) → (∀ b ∈ back, isBlank b = true) →
        tokens (joinPieces '\n' (before ++ (front ++ text ++ back) :: after)) =
          tokens (joinPieces '\n' (before ++ text :: after))) ∧
    (∀ text rest, tokens (text ++ '\r' :: '\n' :: rest) = tokens (text ++ '\n' :: rest)) ∧
    (∀ (lines : List (List Char)) (arguments : List (List (List Char))),
      List.Forall₂ LineSays lines arguments →
        tokens (joinPieces '\n' lines) = arguments.flatten) ∧
    ∀ text, ∀ argument ∈ tokens text, argument ≠ [] := by
  refine ⟨tokens_append, ?_, ?_, ?_, ?_, ?_⟩
  · intro before after line hidle
    rw [tokens_joinPieces, tokens_joinPieces, List.flatMap_append, List.flatMap_append,
      List.flatMap_cons, tokens_of_idle hidle, List.nil_append]
  · intro before after front text back hfront hback
    have htext : tokens (front ++ text ++ back) = tokens text := by
      rw [tokens_append_blanks hback, tokens_blanks_append hfront]
    rw [tokens_joinPieces, tokens_joinPieces, List.flatMap_append, List.flatMap_append,
      List.flatMap_cons, List.flatMap_cons, htext]
  · intro text rest
    rw [List.append_cons, tokens_append, tokens_append,
      tokens_append_blanks (List.forall_mem_singleton.mpr (by decide))]
  · intro lines arguments hlines
    exact tokens_of_lineSays hlines
  · intro text argument hargument
    exact ne_nil_of_mem_tokens hargument

/-- A comment put between two lines, blanks with a line break among them around an option, and three
lines: an option whose argument holds a blank, a number sign and a dash, a long option, which is not
taken apart, and a flag. -/
theorem options_file_reads_by_line_mixed :
    (Idle ('\t' :: '#' :: " -d 0-4".toList) ∧
      tokens (joinPieces '\n' ["-l".toList, '\t' :: '#' :: " -d 0-4".toList, "fw.bin".toList]) =
        tokens (joinPieces '\n' ["-l".toList, "fw.bin".toList])) ∧
    ((∀ b ∈ ['\n', ' '], isBlank b = true) ∧
      tokens (joinPieces '\n' ["-l".toList, ['\n', ' '] ++ "-d 0-4".toList ++ ['\n', ' ']]) =
        tokens (joinPieces '\n' ["-l".toList, "-d 0-4".toList])) ∧
    (List.Forall₂ LineSays
        [optionLine 's' [' ', '\t'] "0x10=a #1 -x".toList, '-' :: '-' :: "raw fw.bin".toList,
          "-l".toList]
        [["-s".toList, "0x10=a #1 -x".toList], ['-' :: '-' :: "raw fw.bin".toList],
          ["-l".toList]] ∧
      tokens (joinPieces '\n' [optionLine 's' [' ', '\t'] "0x10=a #1 -x".toList,
          '-' :: '-' :: "raw fw.bin".toList, "-l".toList]) =
        ["-s".toList, "0x10=a #1 -x".toList, '-' :: '-' :: "raw fw.bin".toList, "-l".toList]) ∧
    ("-l".toList ∈ tokens "\n-l\n".toList ∧ "-l".toList ≠ []) := by
  obtain ⟨_, hidle, hblanks, _, hlines, hargument⟩ := options_file_reads_by_line
  have hcomment : Idle ('\t' :: '#' :: " -d 0-4".toList) :=
    .comment (List.forall_mem_singleton.mpr (by decide)) (by decide)
  have hspace : ∀ b ∈ ['\n', ' '], isBlank b = true :=
    List.forall_mem_cons.mpr ⟨by decide, List.forall_mem_singleton.mpr (by decide)⟩
  have hparts : OptionParts 's' [' ', '\t'] "0x10=a #1 -x".toList := {
    letter_ne_dash := by decide
    letter_ne_newline := by decide
    gap_ne_nil := by decide
    gap_blank := List.forall_mem_cons.mpr ⟨by decide, List.forall_mem_singleton.mpr (by decide)⟩
    newline_not_mem_gap := by decide
    argument_ne_nil := by decide
    argument_trimmed := by decide
    newline_not_mem_argument := by decide }
  have hlong : LineSays ('-' :: '-' :: "raw fw.bin".toList)
      ['-' :: '-' :: "raw fw.bin".toList] := by
    refine .single (by decide) (by decide) (by decide) (by decide) ?_
    intro letter gap argument hparts heq
    obtain ⟨hletter, _⟩ := List.cons.inj (List.cons.inj heq).2
    exact hparts.letter_ne_dash hletter.symm
  have hflag : LineSays "-l".toList ["-l".toList] := by
    refine .single (by decide) (by decide) (by decide) (by decide) ?_
    intro letter gap argument hparts heq
    obtain ⟨_, hrest⟩ := List.cons.inj (List.cons.inj heq).2
    exact hparts.gap_ne_nil (List.append_eq_nil_iff.mp hrest.symm).1
  have hsaid := List.Forall₂.cons (.option hparts) (.cons hlong (.cons hflag .nil))
  have hmem : "-l".toList ∈ tokens "\n-l\n".toList := by decide
  exact ⟨⟨hcomment, hidle ["-l".toList] ["fw.bin".toList] _ hcomment⟩,
    ⟨hspace, hblanks ["-l".toList] [] _ _ _ hspace hspace⟩, ⟨hsaid, hlines _ _ hsaid⟩,
    hmem, hargument _ _ hmem⟩

end Disassembly.Arguments
