import Munch.Proofs.RoundTrip

namespace Munch.TableText

open Text

inductive StateLines : Nat → List (Row Nat) → List (List Char) → Prop
  | nil (q : Nat) : StateLines q [] []
  | cons {q : Nat} {r : Row Nat} {rows : List (Row Nat)} {number line : List Char}
      {ls : List (List Char)} (hnumber : readNumberLine q (trimStart number) = .ok ())
      (hrow : readRowLine (trimStart line) = .ok r) (hrest : StateLines (q + 1) rows ls) :
      StateLines q (r :: rows) (number :: line :: ls)

/-- The lines of a table, without the white space at their ends: the flags, the opening of the
states, two lines for each state, the closing bracket and the binding. -/
inductive TableLines : TableText → List (List Char) → Prop
  | intro {accepts : List Bool} {rows : List (Row Nat)} {flags close binding : List Char}
      {name typeRef : List Char} {ls : List (List Char)}
      (hflags : readAcceptsLine flags = .ok accepts) (hrows : StateLines 0 rows ls)
      (hclose : trimStart close = [']'])
      (hbinding : readBindingLine binding = .ok (name, typeRef)) :
      TableLines ⟨name, typeRef, ⟨rows.toArray, accepts.toArray⟩⟩
        (flags :: "states = [".toList :: (ls ++ [close, binding]))

theorem StateLines.length_eq {q : Nat} {rows : List (Row Nat)} {ls : List (List Char)}
    (h : StateLines q rows ls) : ls.length = 2 * rows.length := by
  induction h with
  | nil q => rfl
  | cons hnumber hrow hrest ih =>
      rw [List.length_cons, List.length_cons, List.length_cons, ih]
      omega

theorem TableLines.length_eq {t : TableText} {ls : List (List Char)} (h : TableLines t ls) :
    ls.length = 2 * t.automaton.states.size + 4 := by
  obtain ⟨hflags, hrows, hclose, hbinding⟩ := h
  have hlen := hrows.length_eq
  simp only [List.length_cons, List.length_append, List.length_nil, List.size_toArray]
  omega

theorem eat?_eq_some_iff {what cs rest : List Char} :
    eat? what cs = some rest ↔ cs = what ++ rest := by
  constructor
  · intro h
    rw [eat?] at h
    split at h
    case isFalse => cases h
    case isTrue hp =>
      obtain ⟨tail, rfl⟩ := List.isPrefixOf_iff_prefix.1 hp
      rw [List.drop_left] at h
      cases h
      rfl
  · rintro rfl
    exact eat?_append what rest

theorem expect_eq_ok_iff {what cs rest : List Char} :
    expect what cs = .ok rest ↔ cs = what ++ rest := by
  rw [expect, ← eat?_eq_some_iff]
  cases eat? what cs <;> simp

theorem readEnd_eq_ok_iff {cs : List Char} : readEnd cs = .ok () ↔ cs = [] := by
  cases cs <;> simp [readEnd]

theorem mapError_eq_ok_iff {ε δ α : Type} {f : ε → δ} {x : Except ε α} {a : α} :
    x.mapError f = .ok a ↔ x = .ok a := by
  cases x <;> simp [Except.mapError]

theorem inLine_eq_ok_iff {α : Type} {n : Nat} {x : Except LineError α} {a : α} :
    inLine n x = .ok a ↔ x = .ok a := mapError_eq_ok_iff

theorem readStatesLine_eq_ok_iff {cs : List Char} :
    readStatesLine cs = .ok () ↔ cs = "states = [".toList := by
  rw [readStatesLine, bind_eq_ok]
  simp only [expect_eq_ok_iff, readEnd_eq_ok_iff, exists_eq_right, List.append_nil]

theorem eat?_close_of_readNumberLine {q : Nat} {cs : List Char} (h : readNumberLine q cs = .ok ()) :
    eat? [']'] cs = none := by
  obtain ⟨rest, hrest, -⟩ := bind_eq_ok.1 h
  rw [expect_eq_ok_iff] at hrest
  rw [hrest]
  rfl

theorem readStates_of_stateLines (states : Array (Row Nat)) {rows : List (Row Nat)}
    {ls : List (List Char)} (h : StateLines states.size rows ls) {close : List Char}
    (hclose : trimStart close = [']']) (n : Nat) (rest : List (List Char)) :
    ∃ m, readStates n states (ls ++ close :: rest) = .ok (states ++ rows.toArray, m, rest) := by
  induction rows generalizing ls states n with
  | nil =>
      cases h
      refine ⟨n + 1, ?_⟩
      rw [List.nil_append, readStates_close (by rw [hclose]; rfl)]
      simp
  | cons r rows ih =>
      obtain - | ⟨hnumber, hrow, hrest⟩ := h
      rw [← Array.size_push r] at hrest
      obtain ⟨m, hm⟩ := ih (states.push r) hrest (n + 2)
      refine ⟨m, ?_⟩
      rw [List.cons_append, List.cons_append,
        readStates_row (eat?_close_of_readNumberLine hnumber) hnumber hrow, hm]
      simp

/-- The reader is at the closing bracket, or it takes two lines for one more state. -/
theorem readStates_cases {n m : Nat} {states all : Array (Row Nat)} {ls rest : List (List Char)}
    (h : readStates n states ls = .ok (all, m, rest)) :
    (∃ close, ls = close :: rest ∧ trimStart close = [']'] ∧ all = states) ∨
      ∃ number line ls' r, ls = number :: line :: ls' ∧
        readNumberLine states.size (trimStart number) = .ok () ∧
        readRowLine (trimStart line) = .ok r ∧
        readStates (n + 2) (states.push r) ls' = .ok (all, m, rest) := by
  cases ls with
  | nil => cases h
  | cons line ls =>
      rw [readStates.eq_def] at h
      dsimp only at h
      split at h
      case h_1 tail htail =>
        obtain ⟨⟨⟩, hend, h⟩ := bind_eq_ok.1 h
        rw [inLine_eq_ok_iff, readEnd_eq_ok_iff] at hend
        rw [hend, eat?_eq_some_iff] at htail
        cases h
        exact .inl ⟨line, rfl, htail, rfl⟩
      case h_2 =>
        obtain ⟨⟨⟩, hnumber, h⟩ := bind_eq_ok.1 h
        cases ls with
        | nil => cases h
        | cons line' ls =>
            obtain ⟨r, hrow, h⟩ := bind_eq_ok.1 h
            exact .inr ⟨line, line', ls, r, rfl, inLine_eq_ok_iff.1 hnumber,
              inLine_eq_ok_iff.1 hrow, h⟩

theorem exists_stateLines_of_readStates {n m : Nat} {states all : Array (Row Nat)}
    {ls rest : List (List Char)} (h : readStates n states ls = .ok (all, m, rest)) :
    ∃ rows body close, all = states ++ rows.toArray ∧ ls = body ++ close :: rest ∧
      StateLines states.size rows body ∧ trimStart close = [']'] := by
  induction hlen : ls.length using Nat.strongRecOn generalizing n states ls with
  | ind len ih =>
    rcases readStates_cases h with ⟨close, rfl, hclose, rfl⟩ |
      ⟨number, line, ls, r, rfl, hnumber, hrow, h⟩
    · exact ⟨[], [], close, by simp, rfl, .nil _, hclose⟩
    · obtain ⟨rows, body, close, rfl, rfl, hbody, hclose⟩ :=
        ih ls.length (by rw [← hlen, List.length_cons, List.length_cons]; omega) h rfl
      rw [Array.size_push] at hbody
      exact ⟨r :: rows, number :: line :: body, close, by simp, rfl, .cons hnumber hrow hbody,
        hclose⟩

theorem readLines_eq_ok_iff {t : TableText} {ls : List (List Char)} :
    readLines ls = .ok t ↔ t.automaton.check = .ok () ∧ ∃ table rest, ls = table ++ rest ∧
      TableLines t table := by
  constructor
  · intro h
    rcases ls with _ | ⟨flags, _ | ⟨opening, ls⟩⟩
    · cases h
    · obtain ⟨accepts, -, h⟩ := bind_eq_ok.1 h
      cases h
    · obtain ⟨accepts, hflags, h₁⟩ := bind_eq_ok.1 h
      obtain ⟨⟨⟩, hopening, h₂⟩ := bind_eq_ok.1 h₁
      obtain ⟨⟨states, n, _ | ⟨binding, rest⟩⟩, hstates, h₃⟩ := bind_eq_ok.1 h₂
      · cases h₃
      obtain ⟨⟨name, typeRef⟩, hbinding, h₄⟩ := bind_eq_ok.1 h₃
      obtain ⟨⟨⟩, hcheck, h₅⟩ := bind_eq_ok.1 h₄
      rw [inLine_eq_ok_iff] at hflags hopening hbinding
      rw [mapError_eq_ok_iff] at hcheck
      obtain ⟨rows, body, close, rfl, rfl, hbody, hclose⟩ := exists_stateLines_of_readStates hstates
      obtain rfl := readStatesLine_eq_ok_iff.1 hopening
      cases h₅
      rw [Array.empty_append] at hcheck ⊢
      exact ⟨hcheck, _, rest, by simp, .intro hflags hbody hclose hbinding⟩
  · rintro ⟨hcheck, table, rest, rfl, hflags, hrows, hclose, hbinding⟩
    obtain ⟨m, hm⟩ := readStates_of_stateLines #[] hrows hclose 2 (_ :: rest)
    rw [Array.empty_append] at hm
    have hread := readLines_eq_ok hflags (readStatesLine_eq_ok_iff.2 rfl) hm hbinding hcheck
    simpa using hread

/-- A text is read just if it begins with the lines of a sound table. Whatever comes after them is
not looked at. -/
theorem read_eq_ok_iff_tableLines (text : List Char) (t : TableText) :
    read text = .ok t ↔ t.automaton.check = .ok () ∧ ∃ table rest, Text.lines text = table ++ rest ∧
      table.length = 2 * t.automaton.states.size + 4 ∧ TableLines t (table.map trimEnd) := by
  rw [read, readLines_eq_ok_iff]
  refine and_congr_right fun _ => ⟨?_, ?_⟩
  · rintro ⟨trimmed, after, hlines, h⟩
    obtain ⟨table, rest, hsplit, rfl, rfl⟩ := List.map_eq_append_iff.1 hlines
    exact ⟨table, rest, hsplit, by rw [← h.length_eq, List.length_map], h⟩
  · rintro ⟨table, rest, hlines, -, h⟩
    exact ⟨_, rest.map trimEnd, by rw [hlines, List.map_append], h⟩

def trailedLines : List (List Char) :=
  ["accepts = [False]".toList, "states = [".toList, "    # 0".toList, "    {},".toList,
    "    ]".toList, "x = D(states, accepts)".toList, [']']]

theorem trailing_line_ignored :
    ¬ ∀ t, read (trailedLines.flatMap (· ++ ['\n'])) = .ok t →
      ∀ line ∈ (Text.lines (trailedLines.flatMap (· ++ ['\n']))).drop
        (2 * t.automaton.states.size + 4), trimEnd line = [] := by
  have hlines : Text.lines (trailedLines.flatMap (· ++ ['\n'])) = trailedLines :=
    lines_flatMap (by decide)
  have hnumber : readNumberLine 0 ['#', ' ', '0'] = .ok () := readNumberLine_numeral (by decide)
  have hrow : readRowLine ['{', '}', ','] = .ok .empty :=
    readRowLine_row (r := .empty) fun e he => absurd he List.not_mem_nil
  have hrows : StateLines 0 [.empty] ["    # 0".toList, "    {},".toList] :=
    .cons hnumber hrow (.nil 1)
  have hread : read (trailedLines.flatMap (· ++ ['\n'])) =
      .ok ⟨['x'], ['D'], ⟨#[.empty], #[false]⟩⟩ := by
    rw [read, hlines]
    exact readLines_eq_ok_iff.2 ⟨rfl, _, [[']']], rfl, .intro (readAcceptsLine_flags [false]) hrows
      rfl (readBindingLine_bindingLine rfl rfl)⟩
  intro h
  have hblank := h _ hread [']'] (by rw [hlines]; exact List.mem_singleton_self _)
  cases hblank

end Munch.TableText
