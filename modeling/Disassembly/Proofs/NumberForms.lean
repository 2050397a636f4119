import Disassembly.Proofs.Numerals
import Mathlib.Data.List.Basic
import Mathlib.Data.List.Induction

/-!
# The written forms of numbers

Which texts are numbers, and which number each of them is, said without the reader:

* **digits** — `Denotes` is the rule of place values, for one or more digits of a base; the reader
  of digits follows it (`digitsValue?_eq_some_iff`);
* **parts** — a number is a radix mark, an optional `+`, digits and an optional scale letter, with
  nothing before, between or behind them (`Form`), and the reader cuts it into these parts
  (`form_iff`);
* **results** — a text is understood exactly when it has this form and neither its digits nor their
  product with the scale exceed 32 bits, and the reason for a rejection says which of these it was
  (`numbers_understood_exactly`).
-/

namespace Disassembly.Expression

/-- The characters of a list are gone through one by one: there are too many to go through all. -/
theorem forall_mem_of_all {p : Char → Prop} [DecidablePred p] {cs : List Char}
    (h : cs.all (fun c => decide (p c)) = true) : ∀ c ∈ cs, p c :=
  fun c hc => of_decide_eq_true (List.all_eq_true.mp h c hc)

/-! ## Digits -/

/-- `c` is the digit `d`, in lower or upper case. -/
def IsDigit (d : Nat) (c : Char) : Prop :=
  c = Nat.digitChar d ∨ c = (Nat.digitChar d).toUpper

/-- One or more digits of a base and the number they denote: a digit more moves the digits before
it one place up. -/
inductive Denotes (base : Nat) : List Char → Nat → Prop
  | digit {c : Char} {d : Nat} : d < base → IsDigit d c → Denotes base [c] d
  | snoc {cs : List Char} {c : Char} {v d : Nat} : Denotes base cs v → d < base → IsDigit d c →
      Denotes base (cs ++ [c]) (v * base + d)

/-- The characters of digits. -/
def digitCharacters : List Char :=
  "0123456789abcdefABCDEF".toList

theorem IsDigit.mem {d : Nat} {c : Char} (h : IsDigit d c) (hd : d < 16) : c ∈ digitCharacters := by
  have hlower : ∀ d < 16, Nat.digitChar d ∈ digitCharacters := by decide
  have hupper : ∀ d < 16, (Nat.digitChar d).toUpper ∈ digitCharacters := by decide
  rcases h with rfl | rfl
  · exact hlower d hd
  · exact hupper d hd

theorem eq_ofNat_of_toNat_eq {c : Char} {n : Nat} (h : c.toNat = n) : c = Char.ofNat n := by
  rw [← h, Char.ofNat_toNat]

theorem digitValue?_sixteen_eq_some_iff {d : Nat} {c : Char} :
    digitValue? 16 c = some d ↔ d < 16 ∧ IsDigit d c := by
  constructor
  · intro h
    have hdecimal : ∀ d < 10, Char.ofNat (48 + d) = Nat.digitChar d := by decide
    have hlower : ∀ d < 6, Char.ofNat (97 + d) = Nat.digitChar (d + 10) := by decide
    have hupper : ∀ d < 6, Char.ofNat (65 + d) = (Nat.digitChar (d + 10)).toUpper := by decide
    unfold digitValue? at h
    simp only [Option.ite_none_right_eq_some, Option.some.injEq] at h
    obtain ⟨hlt, hd⟩ := h
    rw [hd] at hlt
    refine ⟨hlt, ?_⟩
    -- one case for each run of digits in the character set, and none for the rest
    split at hd
    · next hrange =>
        have hfirst : 48 ≤ c.toNat := hrange.1
        have hlast : c.toNat ≤ 57 := hrange.2
        have hd : c.toNat - 48 = d := hd
        left
        rw [← hdecimal d (by omega)]
        exact eq_ofNat_of_toNat_eq (by omega)
    · split at hd
      · next hrange =>
          have hfirst : 97 ≤ c.toNat := hrange.1
          have hd : c.toNat - 97 + 10 = d := hd
          left
          rw [← hd, ← hlower _ (by omega)]
          exact eq_ofNat_of_toNat_eq (by omega)
      · split at hd
        · next hrange =>
            have hfirst : 65 ≤ c.toNat := hrange.1
            have hd : c.toNat - 65 + 10 = d := hd
            right
            rw [← hd, ← hupper _ (by omega)]
            exact eq_ofNat_of_toNat_eq (by omega)
        · omega
  · have hread : ∀ d < 16, digitValue? 16 (Nat.digitChar d) = some d ∧
        digitValue? 16 (Nat.digitChar d).toUpper = some d := by decide
    rintro ⟨hd, rfl | rfl⟩
    · exact (hread d hd).1
    · exact (hread d hd).2

/-- The digits of a smaller base are hexadecimal digits of the same value. -/
theorem digitValue?_eq_some_iff {base d : Nat} {c : Char} (hbase : base ≤ 16) :
    digitValue? base c = some d ↔ d < base ∧ IsDigit d c := by
  have hsixteen : digitValue? base c = some d ↔ d < base ∧ digitValue? 16 c = some d := by
    unfold digitValue?
    simp only [Option.ite_none_right_eq_some, Option.some.injEq]
    split
    · omega
    · split
      · omega
      · split <;> omega
  rw [hsixteen, digitValue?_sixteen_eq_some_iff]
  exact ⟨fun h => ⟨h.1, h.2.2⟩, fun h => ⟨h.1, by omega, h.2⟩⟩

theorem digitsValue?_concat (base acc : Nat) (cs : List Char) (c : Char) :
    digitsValue? base acc (cs ++ [c]) =
      (digitsValue? base acc cs).bind fun v => (digitValue? base c).map (v * base + ·) := by
  rw [Text.digitsValue?_append]
  congr 1
  funext v
  simp only [digitsValue?]
  cases digitValue? base c <;> rfl

/-- A run of digits is read by its place values. -/
theorem digitsValue?_eq_some_iff {base v : Nat} {cs : List Char} (hbase : base ≤ 16)
    (hne : cs ≠ []) : digitsValue? base 0 cs = some v ↔ Denotes base cs v := by
  constructor
  · intro h
    induction cs using List.reverseRecOn generalizing v with
    | nil => exact absurd rfl hne
    | append_singleton cs c ih =>
        rw [digitsValue?_concat] at h
        obtain ⟨u, hu, h⟩ := Option.bind_eq_some_iff.mp h
        obtain ⟨d, hd, rfl⟩ := Option.map_eq_some_iff.mp h
        obtain ⟨hlt, hdigit⟩ := (digitValue?_eq_some_iff hbase).mp hd
        by_cases hcs : cs = []
        · subst hcs
          cases hu
          rw [Nat.zero_mul, Nat.zero_add]
          exact .digit hlt hdigit
        · exact .snoc (ih hcs hu) hlt hdigit
  · intro h
    clear hne
    induction h with
    | @digit c d hlt hdigit =>
        rw [digitsValue?, (digitValue?_eq_some_iff hbase).mpr ⟨hlt, hdigit⟩]
        show some (0 * base + d) = some d
        rw [Nat.zero_mul, Nat.zero_add]
    | snoc _ hlt hdigit ih =>
        rw [digitsValue?_concat, ih, (digitValue?_eq_some_iff hbase).mpr ⟨hlt, hdigit⟩]
        rfl

namespace Denotes

variable {base v : Nat} {cs : List Char}

theorem ne_nil (h : Denotes base cs v) : cs ≠ [] := by
  cases h <;> simp

theorem mem (h : Denotes base cs v) (hbase : base ≤ 16) : ∀ c ∈ cs, c ∈ digitCharacters := by
  induction h with
  | digit hlt hdigit =>
      intro c hc
      rw [List.mem_singleton.mp hc]
      exact hdigit.mem (by omega)
  | snoc _ hlt hdigit ih =>
      intro c hc
      rcases List.mem_append.mp hc with hc | hc
      · exact ih c hc
      · rw [List.mem_singleton.mp hc]
        exact hdigit.mem (by omega)

theorem not_mem (h : Denotes base cs v) (hbase : base ≤ 16) {c : Char}
    (hc : c ∉ digitCharacters) : c ∉ cs :=
  fun hmem => hc (h.mem hbase c hmem)

end Denotes

/-! ## The parts of a number -/

/-- The marks before the digits, and the bases they stand for. -/
inductive RadixMark : List Char → Nat → Prop
  | decimal : RadixMark [] 10
  | lower : RadixMark ['0', 'x'] 16
  | upper : RadixMark ['0', 'X'] 16

/-- The signs that a number may have. -/
inductive Sign : List Char → Prop
  | none : Sign []
  | plus : Sign ['+']

/-- The letters behind the digits, and the scales they stand for. -/
inductive ScaleLetter : List Char → Nat → Prop
  | none : ScaleLetter [] 1
  | kilo {c : Char} : c = 'K' ∨ c = 'k' → ScaleLetter [c] 1024
  | mega {c : Char} : c = 'M' ∨ c = 'm' → ScaleLetter [c] 1048576

/-- A text made of a radix mark, a sign, the digits of `v` and the letter of `scale`. -/
inductive Form (v scale : Nat) : List Char → Prop
  | parts {mark sign digits letter : List Char} {base : Nat} : RadixMark mark base → Sign sign →
      Denotes base digits v → ScaleLetter letter scale →
      Form v scale (mark ++ sign ++ digits ++ letter)

theorem RadixMark.le {mark : List Char} {base : Nat} (h : RadixMark mark base) : base ≤ 16 := by
  cases h <;> decide

theorem RadixMark.not_mem {mark : List Char} {base : Nat} (h : RadixMark mark base) {c : Char}
    (hc : c ∉ ['0', 'x', 'X']) : c ∉ mark := by
  cases h with
  | decimal => exact List.not_mem_nil
  | lower => exact fun hmem => hc (by revert hmem; simp +contextual [or_imp])
  | upper => exact fun hmem => hc (by revert hmem; simp +contextual [or_imp])

theorem Sign.not_mem {sign : List Char} (h : Sign sign) {c : Char} (hc : c ≠ '+') : c ∉ sign := by
  cases h with
  | none => exact List.not_mem_nil
  | plus => exact fun hmem => hc (List.mem_singleton.mp hmem)

theorem Form.ne_nil {v scale : Nat} {cs : List Char} (h : Form v scale cs) : cs ≠ [] := by
  obtain ⟨_, _, hdigits, _⟩ := h
  simp [hdigits.ne_nil]

theorem dropPlus_cut (cs : List Char) : ∃ sign, cs = sign ++ dropPlus cs ∧ Sign sign := by
  unfold dropPlus
  split
  · exact ⟨['+'], rfl, .plus⟩
  · exact ⟨[], rfl, .none⟩

theorem dropPlus_append {sign digits : List Char} (hsign : Sign sign) (hplus : '+' ∉ digits) :
    dropPlus (sign ++ digits) = digits := by
  cases hsign with
  | plus => rfl
  | none =>
      show dropPlus digits = digits
      unfold dropPlus
      split
      · exact absurd List.mem_cons_self hplus
      · rfl

theorem natural?_eq_some_iff {base v : Nat} {cs : List Char} (hbase : base ≤ 16) :
    natural? base cs = some v ↔
      ∃ sign digits, cs = sign ++ digits ∧ Sign sign ∧ Denotes base digits v := by
  constructor
  · intro h
    unfold natural? at h
    split at h
    · cases h
    · next hne =>
        obtain ⟨sign, hcut, hsign⟩ := dropPlus_cut cs
        exact ⟨sign, dropPlus cs, hcut, hsign, (digitsValue?_eq_some_iff hbase hne).mp h⟩
  · rintro ⟨sign, digits, rfl, hsign, hdigits⟩
    unfold natural?
    rw [dropPlus_append hsign (hdigits.not_mem hbase (by decide))]
    split
    · exact absurd rfl hdigits.ne_nil
    · exact (digitsValue?_eq_some_iff hbase hdigits.ne_nil).mpr hdigits

theorem unscaled?_of_not_mem {cs : List Char} (hlower : 'x' ∉ cs) (hupper : 'X' ∉ cs) :
    unscaled? cs = natural? 10 cs := by
  unfold unscaled?
  split
  · exact absurd (by simp) hlower
  · exact absurd (by simp) hupper
  · rfl

/-- A number without a scale is read from its radix mark, its sign and its digits. -/
theorem unscaled?_eq_some_iff {v : Nat} {cs : List Char} :
    unscaled? cs = some v ↔ ∃ mark sign digits base, cs = mark ++ sign ++ digits ∧
      RadixMark mark base ∧ Sign sign ∧ Denotes base digits v := by
  constructor
  · intro h
    unfold unscaled? at h
    split at h
    · obtain ⟨sign, digits, rfl, hsign, hdigits⟩ := (natural?_eq_some_iff (by decide)).mp h
      exact ⟨_, sign, digits, 16, rfl, .lower, hsign, hdigits⟩
    · obtain ⟨sign, digits, rfl, hsign, hdigits⟩ := (natural?_eq_some_iff (by decide)).mp h
      exact ⟨_, sign, digits, 16, rfl, .upper, hsign, hdigits⟩
    · obtain ⟨sign, digits, rfl, hsign, hdigits⟩ := (natural?_eq_some_iff (by decide)).mp h
      exact ⟨[], sign, digits, 10, rfl, .decimal, hsign, hdigits⟩
  · rintro ⟨mark, sign, digits, base, rfl, hmark, hsign, hdigits⟩
    have hread := (natural?_eq_some_iff hmark.le).mpr ⟨sign, digits, rfl, hsign, hdigits⟩
    rw [List.append_assoc]
    cases hmark with
    | lower => exact hread
    | upper => exact hread
    | decimal =>
        -- decimal digits do not begin like a hexadecimal number
        have hletter : ∀ c ∈ ['x', 'X'], c ∉ sign ++ digits := by
          intro c hc
          have hplain : ∀ c ∈ ['x', 'X'], c ≠ '+' ∧ c ∉ digitCharacters :=
            forall_mem_of_all (by decide)
          rw [List.mem_append, not_or]
          exact ⟨hsign.not_mem (hplain c hc).1, hdigits.not_mem (by decide) (hplain c hc).2⟩
        rw [List.nil_append, unscaled?_of_not_mem (hletter _ (by decide))
          (hletter _ (by decide)), hread]

theorem splitScale_cut (cs : List Char) :
    ∃ letter, cs = (splitScale cs).1 ++ letter ∧ ScaleLetter letter (splitScale cs).2 := by
  have hcut : ∀ {c : Char}, cs.getLast? = some c → cs = cs.dropLast ++ [c] := by
    intro c hc
    obtain ⟨front, rfl⟩ := List.getLast?_eq_some_iff.mp hc
    rw [List.dropLast_concat]
  unfold splitScale
  split
  · next hlast => exact ⟨_, hcut hlast, .kilo (.inl rfl)⟩
  · next hlast => exact ⟨_, hcut hlast, .kilo (.inr rfl)⟩
  · next hlast => exact ⟨_, hcut hlast, .mega (.inl rfl)⟩
  · next hlast => exact ⟨_, hcut hlast, .mega (.inr rfl)⟩
  · exact ⟨[], (List.append_nil cs).symm, .none⟩

theorem splitScale_append {cs letter : List Char} {scale : Nat} (hletter : ScaleLetter letter scale)
    (hlast : ∀ c ∈ ['K', 'k', 'M', 'm'], cs.getLast? ≠ some c) :
    splitScale (cs ++ letter) = (cs, scale) := by
  cases hletter with
  | none =>
      rw [List.append_nil]
      unfold splitScale
      split
      · next h => exact absurd h (hlast _ (by decide))
      · next h => exact absurd h (hlast _ (by decide))
      · next h => exact absurd h (hlast _ (by decide))
      · next h => exact absurd h (hlast _ (by decide))
      · rfl
  | kilo hc =>
      unfold splitScale
      rw [List.getLast?_concat, List.dropLast_concat]
      rcases hc with rfl | rfl <;> rfl
  | mega hc =>
      unfold splitScale
      rw [List.getLast?_concat, List.dropLast_concat]
      rcases hc with rfl | rfl <;> rfl

/-- The reader cuts a number into its parts. -/
theorem form_iff {v scale : Nat} {cs : List Char} :
    Form v scale cs ↔
      (splitScale cs).2 = scale ∧ unscaled? (splitScale cs).1 = some v := by
  constructor
  · rintro ⟨hmark, hsign, hdigits, hletter⟩
    rename_i mark sign digits letter base
    -- the letter is not mistaken for a digit, nor the last digit for a letter
    have hlast : ∀ c ∈ ['K', 'k', 'M', 'm'], (mark ++ sign ++ digits).getLast? ≠ some c := by
      intro c hc h
      have hplain : ∀ c ∈ ['K', 'k', 'M', 'm'], c ∉ digitCharacters :=
        forall_mem_of_all (by decide)
      rw [List.getLast?_append_of_ne_nil _ hdigits.ne_nil] at h
      exact hdigits.not_mem hmark.le (hplain c hc) (List.mem_of_getLast? h)
    rw [splitScale_append hletter hlast]
    exact ⟨rfl, unscaled?_eq_some_iff.mpr ⟨mark, sign, digits, base, rfl, hmark, hsign, hdigits⟩⟩
  · rintro ⟨hscale, hread⟩
    obtain ⟨letter, hcut, hletter⟩ := splitScale_cut cs
    obtain ⟨mark, sign, digits, base, hparts, hmark, hsign, hdigits⟩ :=
      unscaled?_eq_some_iff.mp hread
    rw [hcut, hparts, ← hscale]
    exact .parts hmark hsign hdigits hletter

/-! ## Numbers -/

/-- What a number is read as is decided by its digits and its scale alone. -/
theorem numeral_of_form {token : List Char} {v scale : Nat} (h : Form v scale (Text.trim token)) :
    numeral token =
      if 0x100000000 ≤ v then .error .malformedNumber
      else if 0x100000000 ≤ v * scale then .error .numberOutOfRange
      else .ok (UInt32.ofNat (v * scale)) := by
  obtain ⟨hscale, hread⟩ := form_iff.mp h
  unfold numeral
  simp only [hread, hscale]

theorem numeral_of_not_form {token : List Char} (h : ∀ v scale, ¬ Form v scale (Text.trim token)) :
    numeral token = .error .malformedNumber := by
  have hread : unscaled? (splitScale (Text.trim token)).1 = none := by
    rw [Option.eq_none_iff_forall_ne_some]
    intro v hread
    exact h v _ (form_iff.mpr ⟨rfl, hread⟩)
  unfold numeral
  simp only [hread]

theorem numeral_eq_ok_iff {token : List Char} {n : UInt32} :
    numeral token = .ok n ↔ ∃ v scale, Form v scale (Text.trim token) ∧ v < 0x100000000 ∧
      v * scale < 0x100000000 ∧ n.toNat = v * scale := by
  constructor
  · intro h
    by_cases hform : ∃ v scale, Form v scale (Text.trim token)
    · obtain ⟨v, scale, hform⟩ := hform
      rw [numeral_of_form hform] at h
      split at h
      · cases h
      · split at h
        · cases h
        · next hv hproduct =>
            cases h
            exact ⟨v, scale, hform, Nat.not_le.mp hv, Nat.not_le.mp hproduct,
              UInt32.toNat_ofNat_of_lt' (Nat.not_le.mp hproduct)⟩
    · rw [numeral_of_not_form (by simpa using hform)] at h
      cases h
  · rintro ⟨v, scale, hform, hv, hproduct, hn⟩
    rw [numeral_of_form hform, if_neg (Nat.not_le.mpr hv), if_neg (Nat.not_le.mpr hproduct), ← hn,
      UInt32.ofNat_toNat]

theorem numeral_eq_outOfRange_iff {token : List Char} :
    numeral token = .error .numberOutOfRange ↔
      ∃ v scale, Form v scale (Text.trim token) ∧ v < 0x100000000 ∧ 0x100000000 ≤ v * scale := by
  constructor
  · intro h
    by_cases hform : ∃ v scale, Form v scale (Text.trim token)
    · obtain ⟨v, scale, hform⟩ := hform
      rw [numeral_of_form hform] at h
      split at h
      · cases h
      · split at h
        · next hv hproduct => exact ⟨v, scale, hform, Nat.not_le.mp hv, hproduct⟩
        · cases h
    · rw [numeral_of_not_form (by simpa using hform)] at h
      cases h
  · rintro ⟨v, scale, hform, hv, hproduct⟩
    rw [numeral_of_form hform, if_neg (Nat.not_le.mpr hv), if_pos hproduct]

theorem numeral_eq_malformed_iff {token : List Char} :
    numeral token = .error .malformedNumber ↔
      ¬ ∃ v scale, Form v scale (Text.trim token) ∧ v < 0x100000000 := by
  constructor
  · rintro h ⟨v, scale, hform, hv⟩
    rw [numeral_of_form hform, if_neg (Nat.not_le.mpr hv)] at h
    split at h <;> cases h
  · intro h
    by_cases hform : ∃ v scale, Form v scale (Text.trim token)
    · obtain ⟨v, scale, hform⟩ := hform
      have hv : 0x100000000 ≤ v := Nat.not_lt.mp fun hlt => h ⟨v, scale, hform, hlt⟩
      rw [numeral_of_form hform, if_pos hv]
    · exact numeral_of_not_form (by simpa using hform)

theorem number_eq_ok_iff {option : Char} {token : List Char} {n : UInt32} :
    number option token = .ok n ↔ numeral token = .ok n := by
  unfold number
  cases numeral token with
  | ok m => simp only [Except.ok.injEq]
  | error reason => exact ⟨fun h => (by cases h), fun h => (by cases h)⟩

theorem number_eq_reject_iff {option : Char} {token : List Char} {reason : Reason} :
    number option token = reject option token reason ↔
      numeral token = .error reason := by
  unfold number reject
  cases numeral token with
  | ok m => exact ⟨fun h => (by cases h), fun h => (by cases h)⟩
  | error other => simp only [Except.error.injEq, Rejection.mk.injEq, true_and]

/-- **Numbers are understood exactly.** A text is a number when it consists, without the blanks
around it, of an optional sign and decimal digits or of a radix mark, an optional sign and
hexadecimal digits, with at most one scale letter behind them, and when neither the digits nor their
product with the scale exceed 32 bits; it then stands for that product. Where only the product is
too large the number is out of range, and in every other case it is malformed. -/
theorem numbers_understood_exactly (option : Char) (token : List Char) :
    (∀ n : UInt32, number option token = .ok n ↔
      ∃ v scale, Form v scale (Text.trim token) ∧ v < 0x100000000 ∧ v * scale < 0x100000000 ∧
        n.toNat = v * scale) ∧
    (number option token = reject option token .numberOutOfRange ↔
      ∃ v scale, Form v scale (Text.trim token) ∧ v < 0x100000000 ∧ 0x100000000 ≤ v * scale) ∧
    (number option token = reject option token .malformedNumber ↔
      ¬ ∃ v scale, Form v scale (Text.trim token) ∧ v < 0x100000000) ∧
    Reason.numberOutOfRange.message = "number out of range" ∧
    Reason.malformedNumber.message = "malformed number" := by
  refine ⟨fun n => ?_, ?_, ?_, rfl, rfl⟩
  · rw [number_eq_ok_iff, numeral_eq_ok_iff]
  · rw [number_eq_reject_iff, numeral_eq_outOfRange_iff]
  · rw [number_eq_reject_iff, numeral_eq_malformed_iff]

end Disassembly.Expression
