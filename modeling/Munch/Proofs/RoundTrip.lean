import Munch.Proofs.Checked
import Munch.Proofs.LineText

namespace Munch

namespace TableText

open Text

/-- A line that is read as it is written. -/
def Plain (line : List Char) : Prop := '\n' ∉ line ∧ trimEnd line = line

theorem plain_concat {cs : List Char} {c : Char} (hcs : '\n' ∉ cs)
    (hc : blank.contains c = false) : Plain (cs ++ [c]) := by
  refine ⟨?_, trimEnd_concat hc cs⟩
  have hne : '\n' ≠ c := by
    rintro rfl
    cases hc
  simp [hcs, hne]

theorem plain_acceptsLine (accepts : Array Bool) : Plain (acceptsLine accepts) := by
  apply plain_concat
  · have hflags : '\n' ∉ commaSeparated (accepts.toList.map flag) := by
      apply newline_not_mem_commaSeparated
      intro item hitem
      obtain ⟨b, -, rfl⟩ := List.mem_map.1 hitem
      cases b <;> decide
    rw [List.mem_append, not_or]
    exact ⟨by decide, hflags⟩
  · decide

theorem newline_not_mem_numeral (n : Nat) : '\n' ∉ numeral n := by
  intro h
  have hdigit := isDigit_of_mem_numeral h
  cases hdigit

theorem newline_not_mem_row (r : Row Nat) : '\n' ∉ row r := by
  have hentries : '\n' ∉ commaSeparated (r.entries.map entry) := by
    apply newline_not_mem_commaSeparated
    intro item hitem
    obtain ⟨e, -, rfl⟩ := List.mem_map.1 hitem
    simp [entry, newline_not_mem_symbol, newline_not_mem_numeral]
  simp [row, hentries]

theorem plain_stateLines {r : Row Nat} {q : Nat} : ∀ line ∈ stateLines r q, Plain line := by
  have hindent : '\n' ∉ indent := by decide
  intro line hline
  rw [stateLines, List.mem_cons, List.mem_singleton] at hline
  rcases hline with rfl | rfl
  · obtain ⟨ds, d, hd⟩ := (List.eq_nil_or_concat' (numeral q)).resolve_left Nat.toDigits_ne_nil
    have hblank : ∀ k < 10, blank.contains k.digitChar = false := by decide
    have hmem : d ∈ Nat.toDigits 10 q := by
      change d ∈ numeral q
      simp [hd]
    have hnum := newline_not_mem_numeral q
    rw [hd] at hnum ⊢
    rw [← List.append_assoc]
    apply plain_concat
    · rw [List.mem_append, not_or] at hnum
      simp [hindent, hnum.1]
    · obtain ⟨k, hk, rfl⟩ := exists_digitChar_of_mem (by decide) hmem
      exact hblank k hk
  · apply plain_concat
    · simp [hindent, newline_not_mem_row]
    · decide

theorem plain_bindingLine {name typeRef : List Char} (hname : isIdentifier name = true)
    (htype : isDottedIdentifier typeRef = true) : Plain (bindingLine name typeRef) := by
  have hnewline {cs : List Char} (h : ∀ c ∈ cs, blank.contains c = false) : '\n' ∉ cs := by
    intro hmem
    have hblank := h '\n' hmem
    cases hblank
  have hcall : "(states, accepts)".toList = "(states, accepts".toList ++ [')'] := rfl
  rw [bindingLine, hcall, ← List.append_assoc]
  apply plain_concat
  · simp only [List.mem_append, not_or]
    exact ⟨⟨⟨hnewline (not_blank_of_isIdentifier hname), by decide⟩,
      hnewline (not_blank_of_isDottedIdentifier htype)⟩, by decide⟩
  · decide

theorem plain_lines {t : TableText} (hname : isIdentifier t.name = true)
    (htype : isDottedIdentifier t.typeRef = true) : ∀ line ∈ t.lines, Plain line := by
  intro line hline
  simp only [lines, List.mem_append, List.mem_cons, List.not_mem_nil, or_false,
    List.mem_flatMap] at hline
  rcases hline with ((rfl | rfl) | ⟨rq, -, hline⟩) | rfl | rfl
  · exact plain_acceptsLine _
  · exact ⟨by decide, by decide⟩
  · exact plain_stateLines line hline
  · exact ⟨by decide, by decide⟩
  · exact plain_bindingLine hname htype

theorem read_flatMap_append {ls : List (List Char)} (h : ∀ line ∈ ls, Plain line)
    (cs : List Char) :
    read (ls.flatMap (· ++ ['\n']) ++ cs) = readLines (ls ++ (Text.lines cs).map trimEnd) := by
  have hlines := lines_flatMap_append (fun line hline => (h line hline).1) cs
  have htrim : ls.map trimEnd = ls :=
    (List.map_congr_left fun line hline => (h line hline).2).trans (List.map_id _)
  rw [read, hlines, List.map_append, htrim]

theorem read_flatMap {ls : List (List Char)} (h : ∀ line ∈ ls, Plain line) :
    read (ls.flatMap (· ++ ['\n'])) = readLines ls := by
  have hread := read_flatMap_append h []
  rwa [List.append_nil, lines_nil, List.map_nil, List.append_nil] at hread

theorem read_render {t : TableText} (h : ∀ line ∈ t.lines, Plain line) :
    read t.render = readLines t.lines := read_flatMap h

theorem trimStart_indent {c : Char} (hc : blank.contains c = false) (cs : List Char) :
    trimStart (indent ++ c :: cs) = c :: cs := by
  have hblank : blank.contains ' ' = true := rfl
  change (' ' :: ' ' :: ' ' :: ' ' :: c :: cs).dropWhile blank.contains = c :: cs
  simp [hblank, hc]

theorem readStates_close {n : Nat} {states : Array (Row Nat)} {line : List Char}
    {ls : List (List Char)} (h : eat? [']'] (trimStart line) = some []) :
    readStates n states (line :: ls) = .ok (states, n + 1, ls) := by
  unfold readStates
  rw [h]
  rfl

theorem readStates_row {n : Nat} {states : Array (Row Nat)} {line line' : List Char}
    {ls : List (List Char)} {r : Row Nat} (h : eat? [']'] (trimStart line) = none)
    (hnumber : readNumberLine states.size (trimStart line) = .ok ())
    (hrow : readRowLine (trimStart line') = .ok r) :
    readStates n states (line :: line' :: ls) = readStates (n + 2) (states.push r) ls := by
  rw [readStates.eq_def]
  simp only [h, hnumber, hrow, inLine, Except.mapError, bind, Except.bind]

theorem readStates_stateLines {rows : List (Row Nat)} (states : Array (Row Nat)) (n : Nat)
    (hsize : states.size + rows.length ≤ words64)
    (hlt : ∀ r ∈ rows, ∀ e ∈ r.entries, e.2 < words64) (ls : List (List Char)) :
    ∃ m, readStates n states ((rows.zipIdx states.size).flatMap (fun (r, q) => stateLines r q) ++
      (indent ++ [']']) :: ls) = .ok (states ++ rows.toArray, m, ls) := by
  induction rows generalizing states n with
  | nil =>
      refine ⟨n + 1, ?_⟩
      rw [List.zipIdx_nil, List.flatMap_nil, List.nil_append, readStates_close]
      · simp
      · rw [trimStart_indent (by decide)]
        rfl
  | cons r rows ih =>
      have hnumber : trimStart (indent ++ "# ".toList ++ numeral states.size) =
          "# ".toList ++ numeral states.size := trimStart_indent (by decide) _
      have hrow : trimStart (indent ++ row r ++ [',']) = row r ++ [','] :=
        trimStart_indent (by decide) _
      rw [List.length_cons] at hsize
      have hpush : (states.push r).size + rows.length ≤ words64 := by
        rw [Array.size_push]
        omega
      obtain ⟨m, hm⟩ := ih (states.push r) (n + 2) hpush
        fun r hr => hlt r (List.mem_cons_of_mem _ hr)
      refine ⟨m, ?_⟩
      rw [List.zipIdx_cons, List.flatMap_cons]
      change readStates n states ((indent ++ "# ".toList ++ numeral states.size) ::
        (indent ++ row r ++ [',']) ::
          ((rows.zipIdx (states.size + 1)).flatMap (fun (r, q) => stateLines r q) ++
            (indent ++ [']']) :: ls)) = _
      rw [readStates_row (r := r), ← Array.size_push r, hm]
      · simp
      · rw [hnumber]
        rfl
      · rw [hnumber]
        exact readNumberLine_numeral (by omega)
      · rw [hrow]
        exact readRowLine_row (hlt r List.mem_cons_self)

theorem readLines_eq_ok {accepts : List Bool} {states : Array (Row Nat)} {m : Nat}
    {first second last name typeRef : List Char} {ls rest : List (List Char)}
    (haccepts : readAcceptsLine first = .ok accepts) (hstates : readStatesLine second = .ok ())
    (hrows : readStates 2 #[] ls = .ok (states, m, last :: rest))
    (hbinding : readBindingLine last = .ok (name, typeRef))
    (hcheck : Automaton.check ⟨states, accepts.toArray⟩ = .ok ()) :
    readLines (first :: second :: ls) = .ok ⟨name, typeRef, ⟨states, accepts.toArray⟩⟩ := by
  rw [readLines, haccepts]
  simp only [inLine, Except.mapError, bind, Except.bind, hstates, hrows, hbinding, hcheck]

theorem readLines_lines {t : TableText} (hname : isIdentifier t.name = true)
    (htype : isDottedIdentifier t.typeRef = true) (hcheck : t.automaton.check = .ok ())
    (hsize : t.automaton.states.size ≤ words64) : readLines t.lines = .ok t := by
  have hlt : ∀ r ∈ t.automaton.states.toList, ∀ e ∈ r.entries, e.2 < words64 := by
    intro r hr e he
    obtain ⟨q, hq⟩ := List.mem_iff_getElem?.1 hr
    rw [Array.getElem?_toList] at hq
    exact Nat.lt_of_lt_of_le (Automaton.target_lt hcheck hq e he) hsize
  obtain ⟨m, hm⟩ := readStates_stateLines #[] 2 (by simpa using hsize) hlt
    [bindingLine t.name t.typeRef]
  rw [Array.toArray_toList, Array.empty_append] at hm
  exact readLines_eq_ok (readAcceptsLine_acceptsLine t.automaton.accepts) rfl hm
    (readBindingLine_bindingLine hname htype) hcheck

theorem read_render_of_check {t : TableText} (hname : isIdentifier t.name = true)
    (htype : isDottedIdentifier t.typeRef = true) (hcheck : t.automaton.check = .ok ())
    (hsize : t.automaton.states.size ≤ words64) : read t.render = .ok t := by
  rw [read_render (plain_lines hname htype), readLines_lines hname htype hcheck hsize]

theorem render?_eq_ok_iff {t : TableText} {text : List Char} :
    t.render? = .ok text ↔ (isIdentifier t.name = true ∧ isDottedIdentifier t.typeRef = true ∧
      t.automaton.check = .ok ()) ∧ t.render = text := by
  rw [render?]
  cases isIdentifier t.name with
  | false => simp
  | true =>
      cases isDottedIdentifier t.typeRef with
      | false => simp
      | true =>
          cases t.automaton.check with
          | error e => simp [Except.map]
          | ok u => simp [Except.map]

/-- A table has a text just if its names can be read back and its automaton is sound, and then the
text is read back as the table. State numbers are 64-bit words. -/
theorem round_trip (t : TableText) :
    ((∃ text, t.render? = .ok text) ↔ isIdentifier t.name = true ∧
        isDottedIdentifier t.typeRef = true ∧ t.automaton.check = .ok ()) ∧
      (t.automaton.states.size ≤ words64 → ∀ text, t.render? = .ok text → read text = .ok t) := by
  constructor
  · simp only [render?_eq_ok_iff, exists_and_left, exists_eq', and_true]
  · intro hsize text htext
    obtain ⟨⟨hname, htype, hcheck⟩, rfl⟩ := render?_eq_ok_iff.1 htext
    rw [read_render (plain_lines hname htype), readLines_lines hname htype hcheck hsize]

def quoteTable : TableText :=
  ⟨['q'], ['t', '.', 'Q'], ⟨#[⟨[('\n', 0), ('\'', 0)], by decide⟩], #[true]⟩⟩

theorem round_trip_quoteTable :
    ∃ text, quoteTable.render? = .ok text ∧ read text = .ok quoteTable := by
  obtain ⟨text, htext⟩ := (round_trip quoteTable).1.2 ⟨rfl, rfl, rfl⟩
  exact ⟨text, htext, (round_trip quoteTable).2 (by decide) text htext⟩

end TableText

end Munch
