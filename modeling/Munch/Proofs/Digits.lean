import Mathlib.Algebra.Group.Nat.Defs
import Munch.Proofs.CodePoints
import Munch.TableText.Entry

namespace Munch

namespace Text

theorem digitsValue_append (base : Nat) (digit : Char → Nat) (cs : List Char) (c : Char) :
    digitsValue base digit (cs ++ [c]) = digitsValue base digit cs * base + digit c := by
  simp [digitsValue]

theorem digitsValue_toDigits {base : Nat} (hbase : 1 < base) {digit : Char → Nat}
    (h : ∀ d < base, digit d.digitChar = d) (n : Nat) :
    digitsValue base digit (Nat.toDigits base n) = n := by
  induction n using Nat.base_induction base hbase with
  | single m hm =>
      rw [Nat.toDigits_of_lt_base hm]
      simp [digitsValue, h m hm]
  | digit m k hk hm ih =>
      rw [← Nat.toDigits_append_toDigits hbase hm hk, Nat.toDigits_of_lt_base hk,
        digitsValue_append, ih, h k hk, Nat.mul_comm]

theorem exists_digitChar_of_mem {base : Nat} (hbase : 1 < base) {n : Nat} {c : Char}
    (hc : c ∈ Nat.toDigits base n) : ∃ d < base, c = d.digitChar := by
  induction n using Nat.base_induction base hbase with
  | single m hm =>
      rw [Nat.toDigits_of_lt_base hm, List.mem_singleton] at hc
      exact ⟨m, hm, hc⟩
  | digit m k hk hm ih =>
      rw [← Nat.toDigits_append_toDigits hbase hm hk, Nat.toDigits_of_lt_base hk,
        List.mem_append, List.mem_singleton] at hc
      rcases hc with hc | hc
      · exact ih hc
      · exact ⟨k, hk, hc⟩

theorem decimalValue_numeral (n : Nat) : decimalValue (numeral n) = n := by
  apply digitsValue_toDigits (by decide)
  decide

theorem isDigit_of_mem_numeral {n : Nat} {c : Char} (h : c ∈ numeral n) : c.isDigit = true :=
  Nat.isDigit_of_mem_toDigits (by decide) (by decide) h

section Hex

variable {width n : Nat}

theorem exists_digitChar_of_mem_hex {c : Char} (hc : c ∈ hex width n) :
    ∃ d < 16, c = d.digitChar := by
  rcases List.mem_append.1 hc with hc | hc
  · exact ⟨0, by decide, (List.mem_replicate.1 hc).2⟩
  · exact exists_digitChar_of_mem (by decide) hc

theorem digitsValue_replicate_zero (k : Nat) (cs : List Char) :
    digitsValue 16 hexDigit (List.replicate k '0' ++ cs) = digitsValue 16 hexDigit cs := by
  induction k with
  | zero => rfl
  | succ k ih => exact ih

theorem hexValue?_hex : hexValue? (hex width n) = some n := by
  have hdigit : ∀ d < 16, isHexDigit d.digitChar = true := by decide
  have hvalue : ∀ d < 16, hexDigit d.digitChar = d := by decide
  have hall : (hex width n).all isHexDigit = true := by
    rw [List.all_eq_true]
    intro c hc
    obtain ⟨d, hd, rfl⟩ := exists_digitChar_of_mem_hex hc
    exact hdigit d hd
  rw [hexValue?, if_pos hall, hex, digitsValue_replicate_zero,
    digitsValue_toDigits (by decide) hvalue]

theorem length_hex (hwidth : 0 < width) (hn : n < 16 ^ width) : (hex width n).length = width := by
  have hle := (Nat.length_toDigits_le_iff (by decide) hwidth).2 hn
  rw [hex, List.length_append, List.length_replicate]
  omega

end Hex

end Text

namespace TableText

open Text

theorem splitBytes_append {digits : List Char} (h : ∀ c ∈ digits, c.utf8Size = 1)
    (rest : List Char) : splitBytes digits.length (digits ++ rest) = some (digits, rest) := by
  induction digits with
  | nil => rw [List.length_nil, List.nil_append, splitBytes]
  | cons c cs ih =>
      rw [List.length_cons, List.cons_append, splitBytes, h c List.mem_cons_self,
        if_pos (Nat.le_add_left 1 _), Nat.add_sub_cancel,
        ih fun c hc => h c (List.mem_cons_of_mem _ hc)]
      rfl

theorem readHex_hex {width : Nat} (hwidth : 0 < width) {c : Char} (hc : c.toNat < 16 ^ width)
    (rest : List Char) : readHex width (hex width c.toNat ++ rest) = .ok (c, rest) := by
  have hsize : ∀ d < 16, d.digitChar.utf8Size = 1 := by decide
  have hdigits : ∀ d ∈ hex width c.toNat, d.utf8Size = 1 := by
    intro d hd
    obtain ⟨k, hk, rfl⟩ := exists_digitChar_of_mem_hex hd
    exact hsize k hk
  have hsplit := splitBytes_append hdigits rest
  rw [length_hex hwidth hc] at hsplit
  rw [readHex, hsplit]
  simp only [hexValue?_hex, scalar?_eq_some.2 rfl]

theorem readNumber_numeral {n : Nat} (hn : n < words64) (rest : List Char)
    (hrest : ∀ c ∈ rest.head?, c.isDigit = false) :
    readNumber (numeral n ++ rest) = .ok (n, rest) := by
  have hall : ∀ c ∈ numeral n, c.isDigit = true := fun c => isDigit_of_mem_numeral
  have hstop : rest.takeWhile Char.isDigit = [] ∧ rest.dropWhile Char.isDigit = rest := by
    cases rest with
    | nil => exact ⟨rfl, rfl⟩
    | cons c cs => simp [hrest c rfl]
  have htake : (numeral n ++ rest).takeWhile Char.isDigit = numeral n := by
    rw [List.takeWhile_append_of_pos hall, hstop.1, List.append_nil]
  have hdrop : (numeral n ++ rest).dropWhile Char.isDigit = rest := by
    rw [List.dropWhile_append_of_pos hall, hstop.2]
  have hne : (numeral n).isEmpty = false := List.isEmpty_eq_false_iff.2 Nat.toDigits_ne_nil
  rw [readNumber, htake, hdrop, hne, decimalValue_numeral]
  exact if_pos hn

end TableText

end Munch
