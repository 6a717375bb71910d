import Munch.Proofs.LineByLine

namespace Munch.TableText

open Text

/-- No binding is the beginning of another: the closing parenthesis is its last symbol only. -/
theorem eq_concat_of_readBindingLine {line : List Char} {b : List Char × List Char}
    (h : readBindingLine line = .ok b) : ∃ front, line = front ++ [')'] ∧ ')' ∉ front := by
  obtain ⟨rfl, hname, htype⟩ := readBindingLine_eq_ok_iff.1 h
  have hclose : ¬ isAlphanumeric ')' = true := by decide
  have hname' : ')' ∉ b.1 := by
    intro hmem
    rcases eq_or_isAlphanumeric_of_mem hname hmem with he | hc
    · cases he
    · exact hclose hc
  have htype' : ')' ∉ b.2 := by
    intro hmem
    rcases eq_or_isAlphanumeric_of_mem_dotted htype hmem with he | he | hc
    · cases he
    · cases he
    · exact hclose hc
  refine ⟨b.1 ++ " = ".toList ++ b.2 ++ "(states, accepts".toList, ?_, ?_⟩
  · simp
  · simp only [List.mem_append, not_or]
    exact ⟨⟨⟨hname', by decide⟩, htype'⟩, by decide⟩

theorem eq_of_isPrefix_of_readBindingLine {part line : List Char} {b b' : List Char × List Char}
    (h : part <+: line) (hpart : readBindingLine part = .ok b)
    (hline : readBindingLine line = .ok b') : part = line := by
  obtain ⟨front, rfl, -⟩ := eq_concat_of_readBindingLine hpart
  obtain ⟨front', rfl, hfront⟩ := eq_concat_of_readBindingLine hline
  rcases List.prefix_concat_iff.1 h with he | hshort
  · exact he
  · exact absurd (hshort.mem (by simp)) hfront

theorem exists_cut {ls : List (List Char)} {u v : List Char}
    (h : ls.flatMap (· ++ ['\n']) = u ++ v) (hv : v ≠ []) :
    ∃ before part more after, ls = before ++ (part ++ more) :: after ∧
      u = before.flatMap (· ++ ['\n']) ++ part ∧
      v = more ++ '\n' :: after.flatMap (· ++ ['\n']) := by
  induction ls generalizing u with
  | nil => exact absurd (List.append_eq_nil_iff.1 h.symm).2 hv
  | cons line ls ih =>
      rw [List.flatMap_cons] at h
      rcases List.append_eq_append_iff.1 h with ⟨u', rfl, hrest⟩ | ⟨v', hline, rfl⟩
      · obtain ⟨before, part, more, after, rfl, rfl, rfl⟩ := ih hrest
        exact ⟨line :: before, part, more, after, rfl, by simp, rfl⟩
      · rcases List.eq_nil_or_concat' v' with rfl | ⟨more, c, rfl⟩
        · obtain ⟨before, part, more, after, rfl, hu, hv⟩ := ih (u := []) rfl
          refine ⟨line :: before, part, more, after, rfl, ?_, hv⟩
          rw [List.append_nil] at hline
          rw [List.flatMap_cons, List.append_assoc, ← hu, hline, List.append_nil]
        · rw [← List.append_assoc] at hline
          obtain ⟨rfl, he⟩ := List.append_inj' hline rfl
          cases he
          exact ⟨[], u, more, ls, rfl, rfl, by simp⟩

theorem length_lines (t : TableText) : t.lines.length = 2 * t.automaton.states.size + 4 := by
  simp only [lines, stateLines, List.length_cons, List.length_append, List.length_flatMap,
    List.length_nil, List.map_const', List.length_zipIdx, Array.length_toList,
    List.sum_replicate_nat]
  omega

theorem takes_lines {t : TableText} (h : readLines t.lines = .ok t) :
    Due.flags.Takes t.lines (.nothing t) := by
  have hread := h
  rw [Due.readLines_eq_readFrom] at hread
  obtain ⟨used, rest, hlines, hused⟩ := Due.exists_takes_of_readFrom hread
  have hread' : readLines used = .ok t := by
    rw [hlines, hused.readFrom_append, Due.readFrom_nothing] at hread
    rw [Due.readLines_eq_readFrom, ← List.append_nil used, hused.readFrom_append,
      Due.readFrom_nothing, hread]
  obtain ⟨-, table, more, rfl, htable⟩ := readLines_eq_ok_iff.1 hread'
  have hlen := htable.length_eq
  have hall := length_lines t
  rw [hlines, List.length_append, List.length_append] at hall
  have hrest : rest = [] := List.length_eq_zero_iff.1 (by omega)
  rw [hlines, hrest, List.append_nil]
  exact hused

theorem read_cut {t : TableText} (hplain : ∀ line ∈ t.lines, Plain line)
    (htakes : Due.flags.Takes t.lines (.nothing t)) {before after : List (List Char)}
    {u part more : List Char} (hlines : t.lines = before ++ (part ++ more) :: after)
    (hu : u = before.flatMap (· ++ ['\n']) ++ part) (hmissing : more ≠ [] ∨ after ≠ []) :
    read u = .error (.truncated (Text.lines u).length) ∨
      ∃ e, read u = .error (.inLine (Text.lines u).length e) := by
  rw [hlines] at hplain htakes
  have hbefore : ∀ line ∈ before, Plain line :=
    fun line hline => hplain line (List.mem_append_left _ hline)
  have hnewline : '\n' ∉ part :=
    fun hmem => (hplain _ (by simp)).1 (List.mem_append_left more hmem)
  have hu' : Text.lines u = before ++ Text.lines part := by
    rw [hu, lines_flatMap_append fun line hline => (hbefore line hline).1]
  rw [hu', hu, read_flatMap_append hbefore, Due.readLines_eq_readFrom]
  by_cases hpart : part = []
  · left
    rw [hpart, lines_nil, List.map_nil, List.append_nil, htakes.readFrom_before, Nat.zero_add]
  · rw [lines_eq_singleton hnewline hpart, List.map_singleton, List.length_append,
      List.length_singleton]
    -- A part that is read as a binding is the whole line, so lines must be missing behind it.
    have hbinding (b b' : List Char × List Char) (hb : readBindingLine (trimEnd part) = .ok b)
        (hb' : readBindingLine (part ++ more) = .ok b') : after ≠ [] := by
      have htrim : trimEnd part <+: part := trimEnd_isPrefix part
      have hwhole := eq_of_isPrefix_of_readBindingLine
        (htrim.trans (List.prefix_append part more)) hb hb'
      have hmore : more = [] := by
        have hle := htrim.length_le
        rw [hwhole, List.length_append] at hle
        exact List.length_eq_zero_iff.1 (by omega)
      exact hmissing.resolve_left (absurd hmore)
    have hstep := htakes.readFrom_instead hbinding 0
    rwa [Nat.zero_add] at hstep

/-- A text that is cut short is refused. It is enough to lose more than the last line break, and
after whole lines the reader says how many there were. State numbers are 64-bit words. -/
theorem cut_text_refused {t : TableText} (hsize : t.automaton.states.size ≤ words64)
    {text : List Char} (htext : t.render? = .ok text) :
    (∀ u, u <+: text → u ≠ text → u ++ ['\n'] ≠ text →
      read u = .error (.truncated (Text.lines u).length) ∨
        ∃ e, read u = .error (.inLine (Text.lines u).length e)) ∧
    (Text.lines text).length = 2 * t.automaton.states.size + 4 ∧
    ∀ k < 2 * t.automaton.states.size + 4,
      ((Text.lines text).take k).flatMap (· ++ ['\n']) <+: text ∧
        read (((Text.lines text).take k).flatMap (· ++ ['\n'])) = .error (.truncated k) := by
  obtain ⟨⟨hname, htype, hcheck⟩, rfl⟩ := render?_eq_ok_iff.1 htext
  have hplain := plain_lines hname htype
  have htakes := takes_lines (readLines_lines hname htype hcheck hsize)
  have hlines : Text.lines t.render = t.lines :=
    lines_flatMap fun line hline => (hplain line hline).1
  rw [hlines, length_lines]
  refine ⟨?_, rfl, fun k hk => ⟨?_, ?_⟩⟩
  · rintro u ⟨v, hv⟩ hne hbreak
    have hv' : v ≠ [] := by
      rintro rfl
      exact hne (by rw [← hv, List.append_nil])
    obtain ⟨before, part, more, after, hall, hu, rfl⟩ := exists_cut hv.symm hv'
    apply read_cut hplain htakes hall hu
    by_contra hmissing
    rw [not_or, not_ne_iff, not_ne_iff] at hmissing
    obtain ⟨rfl, rfl⟩ := hmissing
    exact hbreak hv
  · rw [render]
    nth_rewrite 2 [← List.take_append_drop k t.lines]
    rw [List.flatMap_append]
    exact List.prefix_append _ _
  · rw [← length_lines] at hk
    have hsplit : t.lines.take k ++ t.lines[k] :: t.lines.drop (k + 1) = t.lines := by
      rw [← List.drop_eq_getElem_cons, List.take_append_drop]
    rw [← hsplit] at htakes
    rw [read_flatMap fun line hline => hplain line (List.mem_of_mem_take hline),
      Due.readLines_eq_readFrom, htakes.readFrom_before, Nat.zero_add,
      List.length_take_of_le (Nat.le_of_lt hk)]

theorem cut_text_refused_quoteTable :
    quoteTable.render? = .ok quoteTable.render ∧ (Text.lines quoteTable.render).length = 6 ∧
      read (((Text.lines quoteTable.render).take 3).flatMap (· ++ ['\n'])) =
        .error (.truncated 3) ∧
      (read (quoteTable.render.take 50) = .error (.truncated 4) ∨
        ∃ e, read (quoteTable.render.take 50) = .error (.inLine 4 e)) := by
  have htext : quoteTable.render? = .ok quoteTable.render := rfl
  obtain ⟨hcut, hlen, hwhole⟩ := cut_text_refused (t := quoteTable) (by decide) htext
  refine ⟨htext, hlen, (hwhole 3 (by decide)).2, ?_⟩
  exact hcut _ (List.take_prefix 50 _) (by decide) (by decide)

end Munch.TableText
