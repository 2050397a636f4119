import Disassembly.Expression.Numeral
import Disassembly.Text.Digits

/-!
# Reading written numbers back

Every number that a listing writes in hexadecimal is read back as the same number, with or without
leading zeros:

* **value** — the digits of `n` in any base denote `n` (`digitsValue?_map_toDigits`), in
  hexadecimal also with zeros before them (`digitsValue?_hexPadded`), so two numbers written alike
  are equal whatever their widths (`hexPadded_inj`);
* **form** — all of its characters are hexadecimal digits (`mem_hexPadded`), and a half-word at
  width four takes four of them (`length_hexPadded_four`).
-/

namespace Disassembly.Text

open Expression

/-- The characters of a number in upper-case hexadecimal. -/
def hexCharacters : List Char :=
  "0123456789ABCDEF".toList

theorem digitValue?_hexDigit :
    ∀ d < 16, digitValue? 16 (Nat.digitChar d).toUpper = some d := by
  decide

theorem hexDigit_mem : ∀ d < 16, (Nat.digitChar d).toUpper ∈ hexCharacters := by
  decide

theorem digitsValue?_append (base acc : Nat) (cs ds : List Char) :
    digitsValue? base acc (cs ++ ds) =
      (digitsValue? base acc cs).bind fun v => digitsValue? base v ds := by
  induction cs generalizing acc with
  | nil => rfl
  | cons c cs ih =>
      rw [List.cons_append, digitsValue?, digitsValue?]
      cases digitValue? base c with
      | none => rfl
      | some v => exact ih (acc * base + v)

/-- The digits of a number are read back, whichever case `f` puts them in. -/
theorem digitsValue?_map_toDigits {base : Nat} (hbase : 1 < base) {f : Char → Char}
    (hf : ∀ d < base, digitValue? base (f (Nat.digitChar d)) = some d) (n : Nat) :
    digitsValue? base 0 ((Nat.toDigits base n).map f) = some n := by
  induction n using Nat.base_induction base hbase with
  | single d hd =>
      rw [Nat.toDigits_of_lt_base hd, List.map_singleton, digitsValue?, hf d hd, Nat.zero_mul]
      exact congrArg some (Nat.zero_add d)
  | digit m d hd hm ih =>
      rw [← Nat.toDigits_append_toDigits hbase hm hd, List.map_append, digitsValue?_append, ih,
        Option.bind_some, Nat.toDigits_of_lt_base hd, List.map_singleton, digitsValue?, hf d hd,
        Nat.mul_comm m base]
      rfl

/-- A number is written with the digits below its base. -/
theorem exists_of_mem_toDigits {base n : Nat} (hbase : 1 < base) {c : Char}
    (h : c ∈ Nat.toDigits base n) : ∃ d < base, c = Nat.digitChar d := by
  induction n using Nat.base_induction base hbase with
  | single d hd =>
      rw [Nat.toDigits_of_lt_base hd, List.mem_singleton] at h
      exact ⟨d, hd, h⟩
  | digit m d hd hm ih =>
      rw [← Nat.toDigits_append_toDigits hbase hm hd, List.mem_append,
        Nat.toDigits_of_lt_base hd, List.mem_singleton] at h
      rcases h with h | h
      · exact ih h
      · exact ⟨d, hd, h⟩

theorem digitsValue?_hexDigits (n : Nat) : digitsValue? 16 0 (hexDigits n) = some n :=
  digitsValue?_map_toDigits (by decide) digitValue?_hexDigit n

theorem digitsValue?_zeros (k : Nat) (cs : List Char) :
    digitsValue? 16 0 (List.replicate k '0' ++ cs) = digitsValue? 16 0 cs := by
  induction k with
  | zero => rfl
  | succ k ih => exact ih

/-- A number written at any width is read back. -/
theorem digitsValue?_hexPadded (width n : Nat) :
    digitsValue? 16 0 (hexPadded width n).toList = some n := by
  rw [hexPadded, String.toList_ofList, List.leftpad, digitsValue?_zeros, digitsValue?_hexDigits]

theorem hexPadded_inj {width width' n n' : Nat} (h : hexPadded width n = hexPadded width' n') :
    n = n' := by
  have hvalue := digitsValue?_hexPadded width n
  rw [h, digitsValue?_hexPadded] at hvalue
  exact (Option.some.inj hvalue).symm

/-- A number with the digits it needs is one at width zero. -/
theorem hexPadded_zero (n : Nat) : hexPadded 0 n = hex n := by
  rw [hexPadded, List.leftpad, Nat.zero_sub]
  rfl

theorem mem_hexDigits {n : Nat} {c : Char} (h : c ∈ hexDigits n) : c ∈ hexCharacters := by
  obtain ⟨c, hc, rfl⟩ := List.mem_map.mp h
  obtain ⟨d, hd, rfl⟩ := exists_of_mem_toDigits (by decide) hc
  exact hexDigit_mem d hd

theorem mem_hexPadded {width n : Nat} {c : Char} (h : c ∈ (hexPadded width n).toList) :
    c ∈ hexCharacters := by
  rw [hexPadded, String.toList_ofList, List.leftpad, List.mem_append] at h
  rcases h with h | h
  · rw [List.eq_of_mem_replicate h]
    decide
  · exact mem_hexDigits h

/-- A half-word in the words column takes four characters. -/
theorem length_hexPadded_four {n : Nat} (h : n < 0x10000) :
    (hexPadded 4 n).toList.length = 4 := by
  have hdigits : (hexDigits n).length ≤ 4 := by
    rw [hexDigits, List.length_map]
    exact (Nat.length_toDigits_le_iff (by decide) (by decide)).mpr h
  rw [hexPadded, String.toList_ofList, List.length_leftpad]
  omega

end Disassembly.Text
