import Munch.Proofs.TableLines

namespace Munch

namespace Row

variable {α : Type} {row row' : Row α}

theorem ext_entries (h : ∀ e, e ∈ row.entries ↔ e ∈ row'.entries) : row = row' := by
  apply ext_get?
  intro c
  apply Option.ext
  intro a
  rw [← mem_entries_iff, ← mem_entries_iff, h]

theorem mem_entries_insert {c : Char} {a : α} {e : Char × α} (hnew : row.get? c = none) :
    e ∈ (row.insert c a).entries ↔ e = (c, a) ∨ e ∈ row.entries := by
  obtain ⟨d, b⟩ := e
  rw [mem_entries_iff, mem_entries_iff, get?_insert, Prod.mk.injEq]
  by_cases hd : d = c
  · subst hd
    simp [hnew, eq_comm]
  · simp [hd]

theorem get?_insert_eq_none_iff {e : Char × α} {es : List (Char × α)} :
    (∀ x ∈ es, (row.insert e.1 e.2).get? x.1 = none) ↔
      e.1 ∉ es.map Prod.fst ∧ ∀ x ∈ es, row.get? x.1 = none := by
  have hone (x : Char × α) : (row.insert e.1 e.2).get? x.1 = none ↔
      x.1 ≠ e.1 ∧ row.get? x.1 = none := by
    rw [get?_insert]
    split <;> simp_all
  simp only [hone, forall_and, List.mem_map, not_exists, not_and]

theorem mem_entries_foldl_insert {es : List (Char × α)} {e : Char × α}
    (hdistinct : (es.map Prod.fst).Nodup) (hnew : ∀ x ∈ es, row.get? x.1 = none) :
    e ∈ (es.foldl (fun row x => row.insert x.1 x.2) row).entries ↔ e ∈ es ∨ e ∈ row.entries := by
  induction es generalizing row with
  | nil => simp
  | cons x es ih =>
      obtain ⟨hnot, hdistinct⟩ := List.nodup_cons.1 hdistinct
      obtain ⟨hfirst, hrest⟩ := List.forall_mem_cons.1 hnew
      rw [List.foldl_cons, ih hdistinct (get?_insert_eq_none_iff.2 ⟨hnot, hrest⟩),
        mem_entries_insert hfirst, List.mem_cons, or_left_comm, or_assoc]

end Row

namespace TableText

open Text

/-- Decimal digits, which may begin with zeros. -/
structure NumberSpelling (n : Nat) (digits : List Char) : Prop where
  nonempty : digits ≠ []
  isDigit : ∀ c ∈ digits, c.isDigit = true
  value : decimalValue digits = n

def namedEscapes : List (Char × Char) :=
  [('t', '\t'), ('n', '\n'), ('r', '\r'), ('\\', '\\'), ('\'', '\''), ('"', '"')]

def codeEscapes : List (Char × Nat) := [('x', 2), ('u', 4), ('U', 8)]

/-- What stands behind a backslash. The digits of a code point are of either case. -/
inductive EscapeSpelling : Char → List Char → Prop
  | named {c letter : Char} (h : (letter, c) ∈ namedEscapes) : EscapeSpelling c [letter]
  | code {c letter : Char} {digits : List Char} (h : (letter, digits.length) ∈ codeEscapes)
      (hhex : ∀ d ∈ digits, isHexDigit d = true)
      (hvalue : digitsValue 16 hexDigit digits = c.toNat) : EscapeSpelling c (letter :: digits)

inductive SymbolSpelling (mark : Char) : Char → List Char → Prop
  | plain {c : Char} (hslash : c ≠ '\\') (hmark : c ≠ mark) : SymbolSpelling mark c [c]
  | escaped {c : Char} {cs : List Char} (h : EscapeSpelling c cs) :
      SymbolSpelling mark c ('\\' :: cs)

inductive EntrySpelling : Char × Nat → List Char → Prop
  | intro {mark c : Char} {n : Nat} {body digits : List Char} (hmark : mark = '\'' ∨ mark = '"')
      (hbody : SymbolSpelling mark c body) (hdigits : NumberSpelling n digits)
      (hword : n < words64) :
      EntrySpelling (c, n) (mark :: (body ++ mark :: (": ".toList ++ digits)))

/-- The entries stand in any order, but no symbol comes twice. -/
inductive RowSpelling : Row Nat → List Char → Prop
  | intro {r : Row Nat} {es : List (Char × Nat)} {texts : List (List Char)}
      (hentries : List.Forall₂ EntrySpelling es texts) (hdistinct : (es.map Prod.fst).Nodup)
      (hrow : ∀ e, e ∈ r.entries ↔ e ∈ es) :
      RowSpelling r ('{' :: (commaSeparated texts ++ ['}']))

theorem takeWhile_dropWhile_iff {p : Char → Bool} {cs before rest : List Char} :
    cs.takeWhile p = before ∧ cs.dropWhile p = rest ↔
      cs = before ++ rest ∧ (∀ c ∈ before, p c = true) ∧ ∀ c ∈ rest.head?, p c = false := by
  constructor
  · rintro ⟨rfl, rfl⟩
    refine ⟨List.takeWhile_append_dropWhile.symm, List.all_eq_true.1 List.all_takeWhile,
      fun c hc => ?_⟩
    have hstop := List.head?_dropWhile_not p cs
    rw [hc] at hstop
    simpa using hstop
  · rintro ⟨rfl, hbefore, hrest⟩
    rw [List.takeWhile_append_of_pos hbefore, List.dropWhile_append_of_pos hbefore]
    cases rest with
    | nil => exact ⟨List.append_nil _, rfl⟩
    | cons c cs => simp [hrest c rfl]

def NoDigit (rest : List Char) : Prop := ∀ c ∈ rest.head?, c.isDigit = false

theorem readNumber_eq_ok_iff {cs rest : List Char} {n : Nat} :
    readNumber cs = .ok (n, rest) ↔
      ∃ digits, cs = digits ++ rest ∧ NumberSpelling n digits ∧ n < words64 ∧ NoDigit rest := by
  rw [readNumber]
  constructor
  · intro h
    split at h
    case isTrue => cases h
    case isFalse hne =>
      split at h
      case isFalse => cases h
      case isTrue hword =>
        cases h
        obtain ⟨hcs, hdigit, hrest⟩ := takeWhile_dropWhile_iff.1 ⟨rfl, rfl⟩
        exact ⟨_, hcs, ⟨by simpa using hne, hdigit, rfl⟩, hword, hrest⟩
  · rintro ⟨digits, hcs, ⟨hne, hdigit, rfl⟩, hword, hrest⟩
    obtain ⟨htake, hdrop⟩ := takeWhile_dropWhile_iff.2 ⟨hcs, hdigit, hrest⟩
    rw [htake, hdrop, if_neg (List.isEmpty_iff.not.2 hne), if_pos hword]

theorem utf8Size_of_isHexDigit {c : Char} (h : isHexDigit c = true) : c.utf8Size = 1 := by
  have hle : c.val ≤ 0x7f := by
    simp only [isHexDigit, Char.isDigit, Bool.or_eq_true, Bool.and_eq_true,
      decide_eq_true_eq] at h
    rcases h with (h | h) | h
    · exact UInt32.le_trans h.2 (by decide)
    · exact UInt32.le_trans h.2 (by decide)
    · exact UInt32.le_trans h.2 (by decide)
  exact Char.utf8Size_eq_one_iff.2 hle

theorem splitBytes_eq_some {n : Nat} {cs taken rest : List Char}
    (h : splitBytes n cs = some (taken, rest)) :
    cs = taken ++ rest ∧ ((∀ c ∈ taken, c.utf8Size = 1) → taken.length = n) := by
  fun_induction splitBytes n cs generalizing taken rest with
  | case1 cs =>
      cases h
      exact ⟨rfl, fun _ => rfl⟩
  | case2 => cases h
  | case3 n c cs hle ih =>
      obtain ⟨⟨taken, rest⟩, hsplit, he⟩ := Option.map_eq_some_iff.1 h
      cases he
      obtain ⟨rfl, hlen⟩ := ih hsplit
      refine ⟨rfl, fun hsize => ?_⟩
      rw [List.forall_mem_cons] at hsize
      rw [List.length_cons, hlen hsize.2, hsize.1]
      rfl
  | case4 => cases h

theorem readHex_eq_ok_iff {width : Nat} {cs rest : List Char} {c : Char} :
    readHex width cs = .ok (c, rest) ↔ ∃ digits, cs = digits ++ rest ∧ digits.length = width ∧
      (∀ d ∈ digits, isHexDigit d = true) ∧ digitsValue 16 hexDigit digits = c.toNat := by
  rw [readHex]
  constructor
  · intro h
    split at h
    case h_1 => cases h
    case h_2 digits rest' hsplit =>
      obtain ⟨rfl, hlen⟩ := splitBytes_eq_some hsplit
      by_cases hhex : digits.all isHexDigit = true
      · rw [hexValue?, if_pos hhex] at h
        rw [List.all_eq_true] at hhex
        dsimp only at h
        split at h
        case h_1 => cases h
        case h_2 hscalar =>
          cases h
          exact ⟨digits, rfl, hlen fun d hd => utf8Size_of_isHexDigit (hhex d hd), hhex,
            scalar?_eq_some.1 hscalar⟩
      · rw [hexValue?, if_neg hhex] at h
        cases h
  · rintro ⟨digits, rfl, rfl, hhex, hvalue⟩
    rw [splitBytes_append fun d hd => utf8Size_of_isHexDigit (hhex d hd)]
    simp only [hexValue?, List.all_eq_true.2 hhex, if_true, scalar?_eq_some.2 hvalue]

theorem readEscape_eq_ok_iff {cs rest : List Char} {c : Char} :
    readEscape cs = .ok (c, rest) ↔ ∃ text, cs = text ++ rest ∧ EscapeSpelling c text := by
  constructor
  · intro h
    rw [readEscape.eq_def] at h
    split at h
    case h_1 => cases h
    case h_2 | h_3 | h_4 | h_5 | h_6 | h_7 =>
      cases h
      exact ⟨[_], rfl, .named (by decide)⟩
    case h_8 | h_9 | h_10 =>
      obtain ⟨digits, rfl, hlen, hhex, hvalue⟩ := readHex_eq_ok_iff.1 h
      exact ⟨_ :: digits, rfl, .code (by rw [hlen]; decide) hhex hvalue⟩
    case h_11 => cases h
  · rintro ⟨text, rfl, ⟨h⟩ | ⟨h, hhex, hvalue⟩⟩
    · simp only [namedEscapes, List.mem_cons, Prod.mk.injEq, List.not_mem_nil, or_false] at h
      rcases h with ⟨rfl, rfl⟩ | ⟨rfl, rfl⟩ | ⟨rfl, rfl⟩ | ⟨rfl, rfl⟩ | ⟨rfl, rfl⟩ | ⟨rfl, rfl⟩ <;>
        rfl
    · simp only [codeEscapes, List.mem_cons, Prod.mk.injEq, List.not_mem_nil, or_false] at h
      rcases h with ⟨rfl, hlen⟩ | ⟨rfl, hlen⟩ | ⟨rfl, hlen⟩ <;>
        exact readHex_eq_ok_iff.2 ⟨_, rfl, hlen, hhex, hvalue⟩

theorem readChar_eq_ok_iff {cs rest : List Char} {c : Char} :
    readChar cs = .ok (c, rest) ↔ cs = c :: rest := by
  cases cs <;> simp [readChar]

theorem readBody_eq_ok_iff {mark c : Char} {cs rest : List Char} :
    readBody mark cs = .ok (c, rest) ↔
      ∃ text, cs = text ++ rest ∧ SymbolSpelling mark c text := by
  rw [readBody, bind_eq_ok]
  constructor
  · rintro ⟨⟨d, ds⟩, hd, h⟩
    obtain rfl := readChar_eq_ok_iff.1 hd
    dsimp only at h
    split at h
    case isTrue hslash =>
      obtain ⟨text, rfl, htext⟩ := readEscape_eq_ok_iff.1 h
      exact ⟨'\\' :: text, by rw [hslash, List.cons_append], .escaped htext⟩
    case isFalse hslash =>
      split at h
      case isTrue => cases h
      case isFalse hmark =>
        cases h
        exact ⟨[c], rfl, .plain hslash hmark⟩
  · rintro ⟨text, rfl, ⟨hslash, hmark⟩ | htext⟩
    · refine ⟨(c, rest), rfl, ?_⟩
      dsimp only
      rw [if_neg hslash, if_neg hmark]
    · exact ⟨_, rfl, readEscape_eq_ok_iff.2 ⟨_, rfl, htext⟩⟩

theorem readSymbol_eq_ok_iff {cs rest : List Char} {c : Char} :
    readSymbol cs = .ok (c, rest) ↔ ∃ mark text, (mark = '\'' ∨ mark = '"') ∧
      cs = mark :: (text ++ mark :: rest) ∧ SymbolSpelling mark c text := by
  rw [readSymbol, bind_eq_ok]
  constructor
  · rintro ⟨⟨mark, cs₁⟩, hfirst, h⟩
    obtain rfl := readChar_eq_ok_iff.1 hfirst
    dsimp only at h
    split at h
    case isFalse => cases h
    case isTrue hmark =>
      obtain ⟨⟨c', cs₂⟩, hbody, h₁⟩ := bind_eq_ok.1 h
      obtain ⟨⟨close, cs₃⟩, hclose, h₂⟩ := bind_eq_ok.1 h₁
      obtain ⟨text, rfl, htext⟩ := readBody_eq_ok_iff.1 hbody
      obtain rfl := readChar_eq_ok_iff.1 hclose
      dsimp only at h₂
      split at h₂
      case isFalse => cases h₂
      case isTrue heq =>
        cases h₂
        exact ⟨mark, text, by simpa using hmark, by rw [heq], htext⟩
  · rintro ⟨mark, text, hmark, rfl, htext⟩
    refine ⟨(mark, text ++ mark :: rest), rfl, ?_⟩
    have hquoted : (decide (mark = '\'') || decide (mark = '"')) = true := by simpa using hmark
    have hbody : readBody mark (text ++ mark :: rest) = .ok (c, mark :: rest) :=
      readBody_eq_ok_iff.2 ⟨text, rfl, htext⟩
    dsimp only
    rw [if_pos hquoted]
    exact bind_eq_ok.2 ⟨_, hbody, bind_eq_ok.2 ⟨(mark, rest), rfl, if_pos rfl⟩⟩

theorem readEntry_eq_ok_iff {cs rest : List Char} {e : Char × Nat} :
    readEntry cs = .ok (e, rest) ↔
      ∃ text, cs = text ++ rest ∧ EntrySpelling e text ∧ NoDigit rest := by
  rw [readEntry]
  simp only [bind_eq_ok, expect_eq_ok_iff]
  constructor
  · rintro ⟨⟨c, cs₁⟩, hsymbol, cs₂, rfl, ⟨n, cs₃⟩, hnumber, h⟩
    obtain ⟨mark, body, hmark, rfl, hbody⟩ := readSymbol_eq_ok_iff.1 hsymbol
    obtain ⟨digits, rfl, hdigits, hword, hrest⟩ := readNumber_eq_ok_iff.1 hnumber
    cases h
    refine ⟨_, ?_, .intro hmark hbody hdigits hword, hrest⟩
    simp only [List.cons_append, List.append_assoc]
  · rintro ⟨text, rfl, ⟨hmark, hbody, hdigits, hword⟩, hrest⟩
    refine ⟨_, readSymbol_eq_ok_iff.2 ⟨_, _, hmark, ?_, hbody⟩, _, rfl, _,
      readNumber_eq_ok_iff.2 ⟨_, rfl, hdigits, hword, hrest⟩, rfl⟩
    simp only [List.cons_append, List.append_assoc]

/-- A row takes one more entry, and then it ends or goes on behind a comma. -/
theorem readEntries_cases {r r' : Row Nat} {cs rest : List Char}
    (h : readEntries r cs = .ok (r', rest)) :
    ∃ e cs', readEntry cs = .ok (e, cs') ∧ r.get? e.1 = none ∧
      ((cs' = '}' :: rest ∧ r' = r.insert e.1 e.2) ∨
        ∃ more, cs' = ", ".toList ++ more ∧
          readEntries (r.insert e.1 e.2) more = .ok (r', rest)) := by
  rw [readEntries] at h
  split at h
  case h_1 => cases h
  case h_2 c n cs' he =>
    refine ⟨(c, n), cs', he, ?_⟩
    split at h
    case isTrue => cases h
    case isFalse hnew =>
      refine ⟨by simpa using hnew, ?_⟩
      split at h
      case h_1 heat =>
        cases h
        exact .inl ⟨eat?_eq_some_iff.1 heat, rfl⟩
      case h_2 =>
        split at h
        case h_1 => cases h
        case h_2 more hmore => exact .inr ⟨more, expect_eq_ok_iff.1 hmore, h⟩

theorem readEntries_eq_ok_iff {r r' : Row Nat} {cs rest : List Char} :
    readEntries r cs = .ok (r', rest) ↔ ∃ es texts, es ≠ [] ∧
      List.Forall₂ EntrySpelling es texts ∧ cs = commaSeparated texts ++ '}' :: rest ∧
      (es.map Prod.fst).Nodup ∧ (∀ e ∈ es, r.get? e.1 = none) ∧
      r' = es.foldl (fun r e => r.insert e.1 e.2) r := by
  constructor
  · intro h
    induction hlen : cs.length using Nat.strongRecOn generalizing r cs with
    | ind len ih =>
      obtain ⟨e, cs', he, hnew, ⟨rfl, rfl⟩ | ⟨more, rfl, hmore⟩⟩ := readEntries_cases h
      · obtain ⟨text, rfl, htext, -⟩ := readEntry_eq_ok_iff.1 he
        refine ⟨[e], [text], List.cons_ne_nil _ _, .cons htext .nil, ?_, by simp,
          by simpa using hnew, rfl⟩
        rw [commaSeparated_singleton]
      · obtain ⟨text, rfl, htext, -⟩ := readEntry_eq_ok_iff.1 he
        have hless : more.length < len := by
          rw [← hlen, List.length_append, List.length_append]
          change _ < _ + (2 + _)
          omega
        obtain ⟨es, texts, hne, hentries, rfl, hdistinct, hfresh, rfl⟩ := ih _ hless hmore rfl
        obtain ⟨hnot, hfresh⟩ := Row.get?_insert_eq_none_iff.1 hfresh
        refine ⟨e :: es, text :: texts, List.cons_ne_nil _ _, .cons htext hentries, ?_,
          List.nodup_cons.2 ⟨hnot, hdistinct⟩, List.forall_mem_cons.2 ⟨hnew, hfresh⟩, rfl⟩
        cases hentries with
        | nil => exact absurd rfl hne
        | cons htext' hentries =>
            rw [commaSeparated_cons, List.append_assoc, List.append_assoc]
  · rintro ⟨es, texts, hne, hentries, rfl, hdistinct, hnew, rfl⟩
    induction hentries generalizing r with
    | nil => exact absurd rfl hne
    | @cons e text es texts htext hentries ih =>
        obtain ⟨hfirst, hrest⟩ := List.forall_mem_cons.1 hnew
        cases hentries with
        | nil =>
            rw [commaSeparated_singleton]
            exact readEntries_last
              (readEntry_eq_ok_iff.2 ⟨text, rfl, htext, by simp [NoDigit]⟩) hfirst
        | cons htext' hentries =>
            rw [commaSeparated_cons, List.append_assoc, List.append_assoc, readEntries_more
              (readEntry_eq_ok_iff.2 ⟨text, rfl, htext, by simp [NoDigit]⟩) hfirst]
            obtain ⟨hnot, hdistinct⟩ := List.nodup_cons.1 hdistinct
            exact ih (List.cons_ne_nil _ _) hdistinct
              (Row.get?_insert_eq_none_iff.2 ⟨hnot, hrest⟩)

theorem foldl_insert_eq_iff {es : List (Char × Nat)} {r : Row Nat}
    (hdistinct : (es.map Prod.fst).Nodup) :
    es.foldl (fun r e => r.insert e.1 e.2) .empty = r ↔ ∀ e, e ∈ r.entries ↔ e ∈ es := by
  have hmem (e : Char × Nat) :
      e ∈ (es.foldl (fun r x => r.insert x.1 x.2) Row.empty).entries ↔ e ∈ es := by
    rw [Row.mem_entries_foldl_insert hdistinct fun x _ => Row.get?_empty x.1]
    exact or_iff_left List.not_mem_nil
  constructor
  · rintro rfl
    exact hmem
  · intro h
    apply Row.ext_entries
    intro e
    rw [hmem, h]

theorem eat?_close_of_entrySpelling {e : Char × Nat} {text : List Char}
    (h : EntrySpelling e text) (rest : List Char) : eat? ['}'] (text ++ rest) = none := by
  obtain ⟨rfl | rfl, -, -, -⟩ := h <;> rfl

theorem readRow_eq_ok_iff {r : Row Nat} {cs rest : List Char} :
    readRow cs = .ok (r, rest) ↔ ∃ text, cs = text ++ rest ∧ RowSpelling r text := by
  rw [readRow]
  simp only [bind_eq_ok, expect_eq_ok_iff]
  constructor
  · rintro ⟨cs, rfl, h⟩
    split at h
    case h_1 heat =>
      cases h
      obtain rfl := eat?_eq_some_iff.1 heat
      exact ⟨['{', '}'], rfl, .intro .nil List.nodup_nil fun e => Iff.rfl⟩
    case h_2 =>
      obtain ⟨es, texts, -, hentries, rfl, hdistinct, -, hrow⟩ := readEntries_eq_ok_iff.1 h
      refine ⟨_, ?_, .intro hentries hdistinct ((foldl_insert_eq_iff hdistinct).1 hrow.symm)⟩
      simp
  · rintro ⟨text, rfl, ⟨hentries, hdistinct, hrow⟩⟩
    have hfold := (foldl_insert_eq_iff hdistinct).2 hrow
    cases hentries with
    | nil => exact ⟨'}' :: rest, rfl, by rw [← hfold]; rfl⟩
    | @cons e text es texts htext hentries =>
        refine ⟨commaSeparated (text :: texts) ++ '}' :: rest, by simp, ?_⟩
        have heat : eat? ['}'] (commaSeparated (text :: texts) ++ '}' :: rest) = none := by
          obtain ⟨tail, htail⟩ := exists_commaSeparated_cons text texts
          rw [htail, List.append_assoc]
          exact eat?_close_of_entrySpelling htext _
        rw [heat]
        exact readEntries_eq_ok_iff.2 ⟨_, _, List.cons_ne_nil _ _, .cons htext hentries, rfl,
          hdistinct, fun x _ => Row.get?_empty x.1, hfold.symm⟩

end TableText

end Munch
