import Munch.Proofs.Digits
import Munch.TableText

namespace Munch.TableText

open Text

theorem eat?_append (what rest : List Char) : eat? what (what ++ rest) = some rest := by
  rw [eat?, if_pos (List.isPrefixOf_iff_prefix.2 (List.prefix_append what rest)), List.drop_left]

theorem expect_append (what rest : List Char) : expect what (what ++ rest) = .ok rest := by
  rw [expect, eat?_append]

theorem toNat_lt (c : Char) : c.toNat < 0x110000 := by
  have hvalid := c.valid
  simp only [UInt32.isValidChar, Nat.isValidChar] at hvalid
  change c.val.toNat < _
  omega

theorem not_mem_hex {width n : Nat} {c : Char} (hc : ∀ d < 16, d.digitChar ≠ c) :
    c ∉ hex width n := by
  intro hmem
  obtain ⟨d, hd, rfl⟩ := exists_digitChar_of_mem_hex hmem
  exact hc d hd rfl

/-- A symbol is escaped, or it stands for itself. -/
theorem symbolBody_cases (c : Char) :
    (∃ cs, symbolBody c = '\\' :: cs ∧ '\n' ∉ cs ∧
        ∀ rest, readEscape (cs ++ rest) = .ok (c, rest)) ∨
      symbolBody c = [c] ∧ c ≠ '\\' ∧ c ≠ '\n' := by
  have hlt := toNat_lt c
  have hdigit : ∀ d < 16, d.digitChar ≠ '\n' := by decide
  rw [symbolBody]
  by_cases ht : c = '\t'
  · rw [if_pos ht, ht]
    exact .inl ⟨['t'], rfl, by decide, fun rest => rfl⟩
  rw [if_neg ht]
  by_cases hn : c = '\n'
  · rw [if_pos hn, hn]
    exact .inl ⟨['n'], rfl, by decide, fun rest => rfl⟩
  rw [if_neg hn]
  by_cases hr : c = '\r'
  · rw [if_pos hr, hr]
    exact .inl ⟨['r'], rfl, by decide, fun rest => rfl⟩
  rw [if_neg hr]
  by_cases hb : c = '\\'
  · rw [if_pos hb, hb]
    exact .inl ⟨['\\'], rfl, by decide, fun rest => rfl⟩
  rw [if_neg hb]
  by_cases hx : (c.toNat < 0x20 || (0x7f ≤ c.toNat && c.toNat ≤ 0xa0) || c.toNat = 0xad) = true
  · rw [if_pos hx]
    simp only [Bool.or_eq_true, Bool.and_eq_true, decide_eq_true_eq] at hx
    refine .inl ⟨'x' :: hex 2 c.toNat, rfl, by simp [not_mem_hex hdigit], ?_⟩
    exact readHex_hex (by decide) (by omega)
  rw [if_neg hx]
  by_cases hu : (control.contains c || blank.contains c && c ≠ ' ') = true
  · rw [if_pos hu]
    by_cases hle : c.toNat ≤ 0xffff
    · rw [if_pos hle]
      refine .inl ⟨'u' :: hex 4 c.toNat, rfl, by simp [not_mem_hex hdigit], ?_⟩
      exact readHex_hex (by decide) (by omega)
    · rw [if_neg hle]
      refine .inl ⟨'U' :: hex 8 c.toNat, rfl, by simp [not_mem_hex hdigit], ?_⟩
      exact readHex_hex (by decide) (by omega)
  rw [if_neg hu]
  exact .inr ⟨rfl, hb, hn⟩

theorem readBody_symbolBody {mark c : Char} (hc : c ≠ mark) (rest : List Char) :
    readBody mark (symbolBody c ++ rest) = .ok (c, rest) := by
  rcases symbolBody_cases c with ⟨cs, hcs, -, hread⟩ | ⟨hself, hb, -⟩
  · rw [hcs]
    exact hread rest
  · rw [hself]
    simp [readBody, readChar, bind, Except.bind, hb, hc]

theorem readSymbol_quoted {mark c : Char} (hmark : mark = '\'' ∨ mark = '"') (hc : c ≠ mark)
    (rest : List Char) :
    readSymbol (mark :: symbolBody c ++ [mark] ++ rest) = .ok (c, rest) := by
  have hbody := readBody_symbolBody hc (mark :: rest)
  have hmark : (mark = '\'' || mark = '"') = true := by
    simpa using hmark
  rw [List.append_assoc, List.cons_append]
  simp only [readSymbol, readChar, bind, Except.bind, hmark, if_true, List.singleton_append, hbody]

theorem readSymbol_symbol (c : Char) (rest : List Char) :
    readSymbol (symbol c ++ rest) = .ok (c, rest) := by
  rw [symbol]
  by_cases hc : c = '\''
  · rw [if_pos hc]
    exact readSymbol_quoted (.inr rfl) (by rw [hc]; decide) rest
  · rw [if_neg hc]
    exact readSymbol_quoted (.inl rfl) hc rest

theorem newline_not_mem_symbol (c : Char) : '\n' ∉ symbol c := by
  have hbody : '\n' ∉ symbolBody c := by
    rcases symbolBody_cases c with ⟨cs, hcs, hn, -⟩ | ⟨hself, -, hn⟩
    · rw [hcs]
      simp [hn]
    · rw [hself]
      simp [Ne.symm hn]
  rw [symbol]
  split <;> simp [hbody]

theorem readEntry_entry {e : Char × Nat} (he : e.2 < words64) {rest : List Char}
    (hrest : ∀ c ∈ rest.head?, c.isDigit = false) :
    readEntry (entry e ++ rest) = .ok (e, rest) := by
  rw [entry, List.append_assoc, List.append_assoc, readEntry, readSymbol_symbol]
  simp only [bind, Except.bind, expect_append, readNumber_numeral he rest hrest]

end Munch.TableText
