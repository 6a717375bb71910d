import Munch.Proofs.Spelling

namespace Munch.TableText

open Text

def IsIndent (indent : List Char) : Prop := ∀ c ∈ indent, blank.contains c = true

inductive StateSpelling : Nat → List (Row Nat) → List (List Char) → Prop
  | nil (q : Nat) : StateSpelling q [] []
  | cons {q : Nat} {r : Row Nat} {rows : List (Row Nat)} {ls : List (List Char)}
      {indent indent' digits text : List Char} (hindent : IsIndent indent)
      (hdigits : NumberSpelling q digits) (hindent' : IsIndent indent') (htext : RowSpelling r text)
      (hrest : StateSpelling (q + 1) rows ls) :
      StateSpelling q (r :: rows)
        ((indent ++ ("# ".toList ++ digits)) :: (indent' ++ (text ++ [','])) :: ls)

/-- The lines that spell a table, without the white space at their ends. -/
inductive Spelling : TableText → List (List Char) → Prop
  | intro {accepts : List Bool} {rows : List (Row Nat)} {ls : List (List Char)}
      {indent name typeRef : List Char} (hrows : StateSpelling 0 rows ls)
      (hindent : IsIndent indent) (hname : isIdentifier name = true)
      (htype : isDottedIdentifier typeRef = true) :
      Spelling ⟨name, typeRef, ⟨rows.toArray, accepts.toArray⟩⟩
        (("accepts = [".toList ++ commaSeparated (accepts.map flag) ++ [']']) ::
          "states = [".toList ::
          (ls ++ [indent ++ [']'], name ++ " = ".toList ++ typeRef ++ "(states, accepts)".toList]))

theorem readFlag_eq_ok_iff {cs rest : List Char} {b : Bool} :
    readFlag cs = .ok (b, rest) ↔ cs = flag b ++ rest := by
  constructor
  · intro h
    rw [readFlag] at h
    split at h
    case h_1 heat =>
      cases h
      exact eat?_eq_some_iff.1 heat
    case h_2 =>
      split at h
      case h_1 heat =>
        cases h
        exact eat?_eq_some_iff.1 heat
      case h_2 => cases h
  · rintro rfl
    exact readFlag_flag b rest

theorem readFlags_cases {cs rest : List Char} {bs : List Bool} (h : readFlags cs = .ok (bs, rest)) :
    ∃ b, (cs = flag b ++ ']' :: rest ∧ bs = [b]) ∨
      ∃ more bs', cs = flag b ++ (", ".toList ++ more) ∧ bs = b :: bs' ∧
        readFlags more = .ok (bs', rest) := by
  rw [readFlags] at h
  split at h
  case h_1 => cases h
  case h_2 b cs' hb =>
    obtain rfl := readFlag_eq_ok_iff.1 hb
    refine ⟨b, ?_⟩
    split at h
    case h_1 heat =>
      cases h
      exact .inl ⟨by rw [eat?_eq_some_iff.1 heat]; rfl, rfl⟩
    case h_2 =>
      split at h
      case h_1 => cases h
      case h_2 more hmore =>
        rw [expect_eq_ok_iff] at hmore
        obtain ⟨⟨bs', rest'⟩, hflags, he⟩ := map_eq_ok_iff.1 h
        cases he
        exact .inr ⟨more, bs', by rw [hmore], rfl, hflags⟩

theorem commaSeparated_of_readFlags {cs rest : List Char} {bs : List Bool}
    (h : readFlags cs = .ok (bs, rest)) :
    bs ≠ [] ∧ cs = commaSeparated (bs.map flag) ++ ']' :: rest := by
  induction hlen : cs.length using Nat.strongRecOn generalizing cs bs with
  | ind len ih =>
    obtain ⟨b, ⟨rfl, rfl⟩ | ⟨more, bs, rfl, rfl, hmore⟩⟩ := readFlags_cases h
    · rw [List.map_singleton, commaSeparated_singleton]
      exact ⟨List.cons_ne_nil _ _, rfl⟩
    · have hless : more.length < len := by
        rw [← hlen, List.length_append, List.length_append]
        change _ < _ + (2 + _)
        omega
      obtain ⟨hne, rfl⟩ := ih _ hless hmore rfl
      obtain ⟨b', bs, rfl⟩ := List.exists_cons_of_ne_nil hne
      refine ⟨List.cons_ne_nil _ _, ?_⟩
      simp only [List.map_cons, commaSeparated_cons, List.append_assoc]

theorem readAcceptsLine_eq_ok_iff {cs : List Char} {flags : List Bool} :
    readAcceptsLine cs = .ok flags ↔
      cs = "accepts = [".toList ++ commaSeparated (flags.map flag) ++ [']'] := by
  constructor
  · intro h
    obtain ⟨cs', hcs, h₁⟩ := bind_eq_ok.1 h
    obtain rfl := expect_eq_ok_iff.1 hcs
    rw [List.append_assoc, List.append_cancel_left_eq]
    dsimp only at h₁
    split at h₁
    case h_1 heat =>
      obtain ⟨flags', hflags, h₂⟩ := bind_eq_ok.1 h₁
      cases hflags
      obtain ⟨⟨⟩, hend, h₃⟩ := bind_eq_ok.1 h₂
      obtain rfl := readEnd_eq_ok_iff.1 hend
      cases h₃
      rw [eat?_eq_some_iff.1 heat]
      rfl
    case h_2 =>
      obtain ⟨⟨flags', rest⟩, hflags, h₂⟩ := bind_eq_ok.1 h₁
      obtain ⟨⟨⟩, hend, h₃⟩ := bind_eq_ok.1 h₂
      obtain rfl := readEnd_eq_ok_iff.1 hend
      cases h₃
      exact (commaSeparated_of_readFlags hflags).2
  · rintro rfl
    rw [List.append_assoc]
    exact readAcceptsLine_flags flags

theorem readNumberLine_eq_ok_iff {q : Nat} {cs : List Char} :
    readNumberLine q cs = .ok () ↔
      ∃ digits, cs = "# ".toList ++ digits ∧ NumberSpelling q digits ∧ q < words64 := by
  rw [readNumberLine]
  simp only [bind_eq_ok, expect_eq_ok_iff]
  constructor
  · rintro ⟨cs, rfl, ⟨n, rest⟩, hnumber, ⟨⟩, hend, h⟩
    obtain rfl := readEnd_eq_ok_iff.1 hend
    obtain ⟨digits, rfl, hdigits, hword, -⟩ := readNumber_eq_ok_iff.1 hnumber
    dsimp only at h
    split at h
    case isFalse => cases h
    case isTrue hq =>
      subst hq
      exact ⟨digits, by rw [List.append_nil], hdigits, hword⟩
  · rintro ⟨digits, rfl, hdigits, hword⟩
    refine ⟨digits, rfl, (q, []), readNumber_eq_ok_iff.2 ⟨digits, ?_, hdigits, hword, ?_⟩, (), rfl,
      if_pos rfl⟩
    · rw [List.append_nil]
    · simp [NoDigit]

theorem readRowLine_eq_ok_iff {r : Row Nat} {cs : List Char} :
    readRowLine cs = .ok r ↔ ∃ text, cs = text ++ [','] ∧ RowSpelling r text := by
  rw [readRowLine]
  simp only [bind_eq_ok, expect_eq_ok_iff]
  constructor
  · rintro ⟨⟨r, cs⟩, hrow, rest, hcomma, ⟨⟩, hend, h⟩
    obtain rfl := readEnd_eq_ok_iff.1 hend
    obtain ⟨text, rfl, htext⟩ := readRow_eq_ok_iff.1 hrow
    cases h
    dsimp only at hcomma
    exact ⟨text, by rw [hcomma]; rfl, htext⟩
  · rintro ⟨text, rfl, htext⟩
    exact ⟨(r, [',']), readRow_eq_ok_iff.2 ⟨text, rfl, htext⟩, [], rfl, (), rfl, rfl⟩

theorem splitOnce_eq_some {sep cs before rest : List Char}
    (h : splitOnce sep cs = some (before, rest)) : cs = before ++ (sep ++ rest) := by
  induction cs generalizing before with
  | nil => cases h
  | cons c cs ih =>
      rw [splitOnce] at h
      split at h
      case h_1 heat =>
        cases h
        rw [List.nil_append]
        exact eat?_eq_some_iff.1 heat
      case h_2 =>
        obtain ⟨⟨before', rest'⟩, hsplit, he⟩ := Option.map_eq_some_iff.1 h
        cases he
        rw [ih hsplit, List.cons_append]

theorem dropEnd?_eq_some {what cs rest : List Char} (h : dropEnd? what cs = some rest) :
    cs = rest ++ what := by
  rw [dropEnd?] at h
  split at h
  case isFalse => cases h
  case isTrue hsuffix =>
    obtain ⟨before, rfl⟩ := List.isSuffixOf_iff_suffix.1 hsuffix
    cases h
    rw [List.length_append, Nat.add_sub_cancel, List.take_left]

theorem readBindingLine_eq_ok_iff {cs name typeRef : List Char} :
    readBindingLine cs = .ok (name, typeRef) ↔
      cs = name ++ " = ".toList ++ typeRef ++ "(states, accepts)".toList ∧
        isIdentifier name = true ∧ isDottedIdentifier typeRef = true := by
  constructor
  · intro h
    rw [readBindingLine] at h
    split at h
    case h_1 => cases h
    case h_2 before value hsplit =>
      split at h
      case h_1 => cases h
      case h_2 call hcall =>
        split at h
        case isFalse => cases h
        case isTrue hnames =>
          cases h
          rw [Bool.and_eq_true] at hnames
          refine ⟨?_, hnames⟩
          rw [splitOnce_eq_some hsplit, dropEnd?_eq_some hcall]
          simp only [List.append_assoc]
  · rintro ⟨rfl, hname, htype⟩
    exact readBindingLine_bindingLine hname htype

theorem trimStart_eq_iff {line rest : List Char} (h : ∀ c ∈ rest.head?, blank.contains c = false) :
    trimStart line = rest ↔ ∃ indent, IsIndent indent ∧ line = indent ++ rest := by
  constructor
  · rintro rfl
    obtain ⟨hline, hindent, -⟩ := takeWhile_dropWhile_iff.1 ⟨rfl, rfl⟩
    exact ⟨_, hindent, hline⟩
  · rintro ⟨indent, hindent, hline⟩
    exact (takeWhile_dropWhile_iff.2 ⟨hline, hindent, h⟩).2

theorem readNumberLine_trimStart_iff {q : Nat} {line : List Char} :
    readNumberLine q (trimStart line) = .ok () ↔ ∃ indent digits, IsIndent indent ∧
      line = indent ++ ("# ".toList ++ digits) ∧ NumberSpelling q digits ∧ q < words64 := by
  have hhead (digits : List Char) :
      ∀ c ∈ ("# ".toList ++ digits).head?, blank.contains c = false := by
    rintro c ⟨⟩
    decide
  rw [readNumberLine_eq_ok_iff]
  constructor
  · rintro ⟨digits, hline, hdigits, hword⟩
    obtain ⟨indent, hindent, rfl⟩ := (trimStart_eq_iff (hhead digits)).1 hline
    exact ⟨indent, digits, hindent, rfl, hdigits, hword⟩
  · rintro ⟨indent, digits, hindent, hline, hdigits, hword⟩
    exact ⟨digits, (trimStart_eq_iff (hhead digits)).2 ⟨indent, hindent, hline⟩, hdigits, hword⟩

theorem readRowLine_trimStart_iff {r : Row Nat} {line : List Char} :
    readRowLine (trimStart line) = .ok r ↔ ∃ indent text, IsIndent indent ∧
      line = indent ++ (text ++ [',']) ∧ RowSpelling r text := by
  have hhead {text : List Char} (htext : RowSpelling r text) :
      ∀ c ∈ (text ++ [',']).head?, blank.contains c = false := by
    obtain ⟨-, -, -⟩ := htext
    rintro c ⟨⟩
    decide
  rw [readRowLine_eq_ok_iff]
  constructor
  · rintro ⟨text, hline, htext⟩
    obtain ⟨indent, hindent, rfl⟩ := (trimStart_eq_iff (hhead htext)).1 hline
    exact ⟨indent, text, hindent, rfl, htext⟩
  · rintro ⟨indent, text, hindent, hline, htext⟩
    exact ⟨text, (trimStart_eq_iff (hhead htext)).2 ⟨indent, hindent, hline⟩, htext⟩

theorem stateLines_iff_stateSpelling {q : Nat} {rows : List (Row Nat)} {ls : List (List Char)} :
    StateLines q rows ls ↔ StateSpelling q rows ls ∧ ∀ i < rows.length, q + i < words64 := by
  constructor
  · intro h
    induction h with
    | nil q => exact ⟨.nil q, fun i hi => absurd hi (Nat.not_lt_zero i)⟩
    | @cons q r rows number line ls hnumber hrow hrest ih =>
        obtain ⟨indent, digits, hindent, rfl, hdigits, hword⟩ :=
          readNumberLine_trimStart_iff.1 hnumber
        obtain ⟨indent', text, hindent', rfl, htext⟩ := readRowLine_trimStart_iff.1 hrow
        obtain ⟨hspelling, hwords⟩ := ih
        refine ⟨.cons hindent hdigits hindent' htext hspelling, fun i hi => ?_⟩
        cases i with
        | zero => exact hword
        | succ i =>
            have hnext := hwords i (Nat.lt_of_succ_lt_succ hi)
            omega
  · rintro ⟨h, hwords⟩
    induction h with
    | nil q => exact .nil q
    | @cons q r rows ls indent indent' digits text hindent hdigits hindent' htext hrest ih =>
        refine .cons (readNumberLine_trimStart_iff.2 ?_) (readRowLine_trimStart_iff.2 ?_) (ih ?_)
        · exact ⟨indent, digits, hindent, rfl, hdigits, hwords 0 (Nat.succ_pos _)⟩
        · exact ⟨indent', text, hindent', rfl, htext⟩
        · intro i hi
          have hnext := hwords (i + 1) (Nat.succ_lt_succ hi)
          omega

theorem tableLines_iff_spelling {t : TableText} {ls : List (List Char)} :
    TableLines t ls ↔ Spelling t ls ∧ t.automaton.states.size ≤ words64 := by
  have hclose : ∀ c ∈ [']'].head?, blank.contains c = false := by
    rintro c ⟨⟩
    decide
  constructor
  · rintro ⟨hflags, hrows, hbracket, hbinding⟩
    obtain rfl := readAcceptsLine_eq_ok_iff.1 hflags
    obtain ⟨hspelling, hwords⟩ := stateLines_iff_stateSpelling.1 hrows
    obtain ⟨indent, hindent, rfl⟩ := (trimStart_eq_iff hclose).1 hbracket
    obtain ⟨rfl, hname, htype⟩ := readBindingLine_eq_ok_iff.1 hbinding
    refine ⟨.intro hspelling hindent hname htype, Nat.not_lt.1 fun hlt => ?_⟩
    have hword := hwords words64 (by simpa using hlt)
    omega
  · rintro ⟨⟨hrows, hindent, hname, htype⟩, hsize⟩
    rw [List.size_toArray] at hsize
    exact .intro (readAcceptsLine_eq_ok_iff.2 rfl)
      (stateLines_iff_stateSpelling.2 ⟨hrows, fun i hi => by omega⟩)
      ((trimStart_eq_iff hclose).2 ⟨_, hindent, rfl⟩)
      (readBindingLine_eq_ok_iff.2 ⟨rfl, hname, htype⟩)

/-- A text is read just if its lines, without the white space at their ends, begin with a spelling
of a sound table. State numbers are 64-bit words. -/
theorem read_eq_ok_iff_spelling (text : List Char) (t : TableText) :
    read text = .ok t ↔ t.automaton.check = .ok () ∧ t.automaton.states.size ≤ words64 ∧
      ∃ table rest, (Text.lines text).map trimEnd = table ++ rest ∧ Spelling t table := by
  rw [read, readLines_eq_ok_iff]
  refine and_congr_right fun _ => ⟨?_, ?_⟩
  · rintro ⟨table, rest, hlines, htable⟩
    obtain ⟨hspelling, hsize⟩ := tableLines_iff_spelling.1 htable
    exact ⟨hsize, table, rest, hlines, hspelling⟩
  · rintro ⟨hsize, table, rest, hlines, hspelling⟩
    exact ⟨table, rest, hlines, tableLines_iff_spelling.2 ⟨hspelling, hsize⟩⟩

end Munch.TableText
