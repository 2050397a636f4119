import Disassembly.Proofs.Numerals
import Disassembly.Style
import Mathlib.Data.List.SplitBy

/-!
# Tokens of written operands

Written operands are a run of tokens: punctuation marks, names of registers, and numbers. A token
is read back from its text alone, and a run of tokens from the text of the run, as long as two words
never stand side by side without a mark between them:

* **one token** — tokens written alike are equal, whatever the widths of their numbers
  (`Token.text_inj`). The tokens other than numbers are finitely many, and no text of theirs starts
  as a number does;
* **a run** — cutting the text at every mark gives the texts of the tokens (`splitBy_text`), so runs
  written alike are equal (`Token.run_eq_of_text_eq`).
-/

namespace Disassembly

/-- The punctuation of written operands. -/
inductive Mark where
  | indirect
  | opening
  | closing
  | comma
  | space
  | hash
  | plus
deriving DecidableEq

namespace Mark

def all : List Mark :=
  [indirect, opening, closing, comma, space, hash, plus]

def character : Mark → Char
  | indirect => '@'
  | opening => '('
  | closing => ')'
  | comma => ','
  | space => ' '
  | hash => '#'
  | plus => '+'

end Mark

/-- Whether a character is punctuation. -/
def isMark (c : Char) : Bool :=
  (Mark.all.map Mark.character).contains c

/-- The smallest parts of written operands. -/
inductive Token where
  | mark (m : Mark)
  /-- A general register. -/
  | register (r : Fin 16)
  /-- The stack pointer, counted down before use. -/
  | pushed
  /-- A dedicated register. -/
  | special (r : Fin 16)
  /-- The program status. -/
  | status
  | number (value : Int)
deriving DecidableEq

namespace Token

def isMark : Token → Bool
  | mark _ => true
  | _ => false

theorem eq_mark_of_isMark {t : Token} (h : t.isMark = true) : ∃ m, t = mark m := by
  cases t with
  | mark m => exact ⟨m, rfl⟩
  | _ => cases h

/-- The written form, numbers with at least `width` digits. -/
def text (style : Style) (width : Nat) : Token → List Char
  | mark m => [m.character]
  | register r => (style.register r).toList
  | pushed => '-' :: (style.register 15).toList
  | special r => (Style.special r).toList
  | status => ['P', 'S']
  | number value =>
    if value < 0 then '-' :: (style.numberWide width value.natAbs).toList
    else (style.numberWide width value.toNat).toList

section

variable (style : Style) (width : Nat)

@[simp]
theorem text_mark (m : Mark) : (mark m).text style width = [m.character] := rfl

@[simp]
theorem text_register (r : Fin 16) :
    (register r).text style width = (style.register r).toList := rfl

@[simp]
theorem text_pushed : pushed.text style width = '-' :: (style.register 15).toList := rfl

@[simp]
theorem text_special (r : Fin 16) : (special r).text style width = (Style.special r).toList := rfl

@[simp]
theorem text_status : status.text style width = ['P', 'S'] := rfl

end

/-- Every token that is not a number. -/
def names : List Token :=
  Mark.all.map mark ++ (List.finRange 16).map register ++ [pushed]
    ++ (List.finRange 16).map special ++ [status]

/-- A token is a name or a number. -/
theorem mem_names_or_number (t : Token) : t ∈ names ∨ ∃ value, t = number value := by
  unfold names
  cases t with
  | mark m =>
      left
      cases m <;> decide
  | register r => simp
  | pushed => simp
  | special r => simp
  | status => simp
  | number value => exact .inr ⟨value, rfl⟩

/-- Whether a text starts as a number does: with a radix mark, or with a sign before one. -/
def opensNumber : List Char → Bool
  | '-' :: c :: _ => c == '0' || c == '$'
  | c :: _ => c == '0' || c == '$'
  | [] => false

/-- The names in one style differ from each other, do not start as numbers do, and hold no
punctuation unless they are marks. -/
structure NamesApart (style : Style) : Prop where
  inj : ∀ t ∈ names, ∀ u ∈ names, t.text style 0 = u.text style 0 → t = u
  opens : ∀ t ∈ names, opensNumber (t.text style 0) = false
  ne_nil : ∀ t ∈ names, t.text style 0 ≠ []
  word : ∀ t ∈ names, t.isMark = false → (t.text style 0).any Disassembly.isMark = false

theorem text_name {t : Token} (h : t ∈ names) (style : Style) (width : Nat) :
    t.text style width = t.text { aliases := style.aliases } 0 := by
  cases t with
  | number value => simp [names] at h
  | _ => rfl

theorem namesApart (aliases : Bool) : NamesApart { aliases := aliases } := by
  cases aliases <;> constructor <;> decide +kernel

/-! ## Numbers -/

theorem toList_numberWide (style : Style) (width n : Nat) :
    (style.numberWide width n).toList =
      style.radixMark.toList ++ (Text.hexPadded width n).toList := by
  rw [Style.numberWide, String.toList_append]

/-- A number starts with its radix mark, which is not a sign. -/
theorem toList_numberWide_cons (style : Style) (width n : Nat) :
    ∃ c cs, (style.numberWide width n).toList = c :: cs ∧ (c = '0' ∨ c = '$') := by
  rw [toList_numberWide, Style.radixMark]
  cases style.dollar with
  | true => exact ⟨'$', _, rfl, .inr rfl⟩
  | false => exact ⟨'0', _, rfl, .inl rfl⟩

theorem numberWide_inj {style : Style} {width width' n n' : Nat}
    (h : (style.numberWide width n).toList = (style.numberWide width' n').toList) : n = n' := by
  rw [toList_numberWide, toList_numberWide] at h
  exact Text.hexPadded_inj (String.toList_inj.mp (List.append_cancel_left h))

theorem number_inj {style : Style} {width width' : Nat} {v v' : Int}
    (h : (number v).text style width = (number v').text style width') : v = v' := by
  obtain ⟨c, cs, hn, hc⟩ := toList_numberWide_cons style width v.toNat
  obtain ⟨c', cs', hn', hc'⟩ := toList_numberWide_cons style width' v'.toNat
  rw [text, text] at h
  split at h <;> split at h
  · have habs := numberWide_inj (List.cons.inj h).2
    omega
  · -- only one of the two has a sign
    rw [hn'] at h
    rw [← (List.cons.inj h).1] at hc'
    exact absurd hc' (by decide)
  · rw [hn] at h
    rw [(List.cons.inj h).1] at hc
    exact absurd hc (by decide)
  · have hnat := numberWide_inj h
    omega

theorem opensNumber_text_number (style : Style) (width : Nat) (v : Int) :
    opensNumber ((number v).text style width) = true := by
  rw [text]
  split
  · obtain ⟨c, cs, hn, hc⟩ := toList_numberWide_cons style width v.natAbs
    rw [hn]
    rcases hc with rfl | rfl <;> rfl
  · obtain ⟨c, cs, hn, hc⟩ := toList_numberWide_cons style width v.toNat
    rw [hn]
    rcases hc with rfl | rfl <;> rfl

theorem isMark_of_any_eq_false {cs : List Char} (h : cs.any Disassembly.isMark = false) {c : Char}
    (hc : c ∈ cs) : Disassembly.isMark c = false :=
  Bool.eq_false_iff.mpr (List.any_eq_false.mp h c hc)

theorem isMark_numberWide {style : Style} {width n : Nat} {c : Char}
    (h : c ∈ (style.numberWide width n).toList) : Disassembly.isMark c = false := by
  have hdigits : Text.hexCharacters.any Disassembly.isMark = false := by decide
  have hradix : style.radixMark.toList.any Disassembly.isMark = false := by
    rw [Style.radixMark]
    cases style.dollar <;> decide
  rw [toList_numberWide, List.mem_append] at h
  rcases h with h | h
  · exact isMark_of_any_eq_false hradix h
  · exact isMark_of_any_eq_false hdigits (Text.mem_hexPadded h)

/-! ## One token -/

/-- Tokens that are written alike are equal. -/
theorem text_inj {style : Style} {width width' : Nat} {t u : Token}
    (h : t.text style width = u.text style width') : t = u := by
  have apart := namesApart style.aliases
  rcases mem_names_or_number t with ht | ⟨v, rfl⟩ <;>
    rcases mem_names_or_number u with hu | ⟨v', rfl⟩
  · rw [text_name ht, text_name hu] at h
    exact apart.inj t ht u hu h
  · -- a name never starts as a number does
    have hopens := apart.opens t ht
    rw [← text_name ht style width, h, opensNumber_text_number] at hopens
    exact absurd hopens (by decide)
  · have hopens := apart.opens u hu
    rw [← text_name hu style width', ← h, opensNumber_text_number] at hopens
    exact absurd hopens (by decide)
  · rw [number_inj h]

theorem text_ne_nil (style : Style) (width : Nat) (t : Token) : t.text style width ≠ [] := by
  rcases mem_names_or_number t with ht | ⟨v, rfl⟩
  · rw [text_name ht]
    exact (namesApart style.aliases).ne_nil t ht
  · intro h
    have hopens := opensNumber_text_number style width v
    rw [h] at hopens
    exact absurd hopens (by decide)

/-- Words hold no punctuation. -/
theorem isMark_of_mem_text {style : Style} {width : Nat} {t : Token} {c : Char}
    (ht : t.isMark = false) (hc : c ∈ t.text style width) : Disassembly.isMark c = false := by
  rcases mem_names_or_number t with hname | ⟨v, rfl⟩
  · rw [text_name hname] at hc
    exact isMark_of_any_eq_false ((namesApart style.aliases).word t hname ht) hc
  · rw [text] at hc
    split at hc
    · rcases List.mem_cons.mp hc with rfl | hc
      · rfl
      · exact isMark_numberWide hc
    · exact isMark_numberWide hc

theorem isMark_character (m : Mark) : Disassembly.isMark m.character = true := by
  cases m <;> rfl

/-! ## Runs of tokens -/

/-- No two words stand side by side. -/
def Spaced (tokens : List Token) : Prop :=
  tokens.IsChain fun t u => t.isMark = true ∨ u.isMark = true

/-- Whether two neighbouring characters belong to one word. -/
def sameWord (a b : Char) : Bool :=
  !Disassembly.isMark a && !Disassembly.isMark b

theorem isChain_sameWord (style : Style) (width : Nat) (t : Token) :
    (t.text style width).IsChain fun a b => sameWord a b = true := by
  by_cases ht : t.isMark = true
  · obtain ⟨m, rfl⟩ := eq_mark_of_isMark ht
    exact List.isChain_singleton m.character
  · have hword : ∀ c ∈ t.text style width, Disassembly.isMark c = false := fun c hc =>
      isMark_of_mem_text (Bool.eq_false_iff.mpr ht) hc
    refine List.Pairwise.isChain (List.pairwise_of_forall_mem_list ?_)
    intro a ha b hb
    rw [sameWord, hword a ha, hword b hb]
    rfl

/-- A mark on either side separates two tokens. -/
theorem sameWord_getLast_head (style : Style) (width : Nat) {t u : Token}
    (h : t.isMark = true ∨ u.isMark = true) :
    sameWord ((t.text style width).getLast (text_ne_nil style width t))
      ((u.text style width).head (text_ne_nil style width u)) = false := by
  rcases h with h | h
  · obtain ⟨m, rfl⟩ := eq_mark_of_isMark h
    show sameWord m.character _ = false
    rw [sameWord, isMark_character, Bool.not_true, Bool.false_and]
  · obtain ⟨m, rfl⟩ := eq_mark_of_isMark h
    show sameWord _ m.character = false
    rw [sameWord, isMark_character, Bool.not_true, Bool.and_false]

/-- Cutting the text of a run at every mark gives the texts of its tokens. -/
theorem splitBy_text (style : Style) (width : Nat) {tokens : List Token} (h : Spaced tokens) :
    (tokens.flatMap (text style width)).splitBy sameWord = tokens.map (text style width) := by
  rw [List.flatMap_def]
  refine List.splitBy_flatten ?_ ?_ ?_
  · intro hnil
    obtain ⟨t, _, ht⟩ := List.mem_map.mp hnil
    exact text_ne_nil style width t ht
  · intro word hword
    obtain ⟨t, _, rfl⟩ := List.mem_map.mp hword
    exact isChain_sameWord style width t
  · rw [List.isChain_map]
    exact h.imp fun t u htu =>
      ⟨text_ne_nil style width t, text_ne_nil style width u, sameWord_getLast_head style width htu⟩

/-- Runs of tokens that are written alike are equal. -/
theorem run_eq_of_text_eq {style : Style} {width width' : Nat} {ts us : List Token}
    (hts : Spaced ts) (hus : Spaced us)
    (h : ts.flatMap (text style width) = us.flatMap (text style width')) : ts = us := by
  have hwords := splitBy_text style width hts
  rw [h, splitBy_text style width' hus] at hwords
  -- the texts of the tokens agree one by one, and each of them is read back
  clear h hts hus
  induction ts generalizing us with
  | nil => exact (List.map_eq_nil_iff.mp hwords).symm
  | cons t ts ih =>
      cases us with
      | nil => exact absurd hwords (by simp)
      | cons u us =>
          obtain ⟨hhead, htail⟩ := List.cons.inj hwords
          rw [text_inj hhead, ih htail]

end Token

end Disassembly
