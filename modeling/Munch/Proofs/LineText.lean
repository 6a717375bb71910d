import Munch.Proofs.RowText

namespace Munch

namespace Text

theorem foldr_consLine {line : List Char} (h : '\n' ∉ line) (ls : List (List Char)) :
    line.foldr consLine ([] :: ls) = line :: ls := by
  induction line with
  | nil => rfl
  | cons c line ih =>
      rw [List.mem_cons, not_or] at h
      rw [List.foldr_cons, ih h.2, consLine, if_neg (Ne.symm h.1)]

theorem lines_nil : lines [] = [] := rfl

theorem lines_append {line : List Char} (h : '\n' ∉ line) (cs : List Char) :
    lines (line ++ '\n' :: cs) = line :: lines cs := by
  rw [lines, List.foldr_append, List.foldr_cons]
  exact foldr_consLine h _

theorem lines_flatMap_append {ls : List (List Char)} (h : ∀ line ∈ ls, '\n' ∉ line)
    (cs : List Char) : lines (ls.flatMap (· ++ ['\n']) ++ cs) = ls ++ lines cs := by
  induction ls with
  | nil => rfl
  | cons line ls ih =>
      rw [List.flatMap_cons, List.append_assoc, List.append_assoc, List.singleton_append,
        lines_append (h line List.mem_cons_self), ih fun l hl => h l (List.mem_cons_of_mem _ hl),
        List.cons_append]

theorem lines_flatMap {ls : List (List Char)} (h : ∀ line ∈ ls, '\n' ∉ line) :
    lines (ls.flatMap (· ++ ['\n'])) = ls := by
  have hlines := lines_flatMap_append h []
  rwa [List.append_nil, lines_nil, List.append_nil] at hlines

/-- The last line needs no line break. -/
theorem lines_eq_singleton {line : List Char} (h : '\n' ∉ line) (hne : line ≠ []) :
    lines line = [line] := by
  induction line with
  | nil => exact (hne rfl).elim
  | cons c line ih =>
      rw [List.mem_cons, not_or] at h
      cases line with
      | nil => exact if_neg (Ne.symm h.1)
      | cons d line =>
          have hline := ih h.2 (List.cons_ne_nil d line)
          rw [lines, List.foldr_cons]
          rw [lines] at hline
          rw [hline, consLine, if_neg (Ne.symm h.1)]

theorem trimEnd_isPrefix (cs : List Char) : trimEnd cs <+: cs := by
  rw [← List.reverse_suffix, trimEnd, List.reverse_reverse]
  exact List.dropWhile_suffix _

theorem trimEnd_concat {c : Char} (hc : blank.contains c = false) (cs : List Char) :
    trimEnd (cs ++ [c]) = cs ++ [c] := by
  rw [trimEnd, List.reverse_append, List.reverse_singleton, List.singleton_append,
    List.dropWhile_cons_of_neg (by rw [hc]; exact Bool.false_ne_true), List.reverse_cons,
    List.reverse_reverse]

theorem not_blank_of_isAlphanumeric {c : Char} (h : c = '_' ∨ isAlphanumeric c = true) :
    blank.contains c = false := by
  rcases h with rfl | h
  · decide
  · by_contra hb
    rw [not_alphanumeric_of_blank (eq_true_of_ne_false hb)] at h
    cases h

theorem eq_or_isAlphanumeric_of_mem {cs : List Char} (h : isIdentifier cs = true) {c : Char}
    (hc : c ∈ cs) : c = '_' ∨ isAlphanumeric c = true := by
  cases cs with
  | nil => cases h
  | cons d cs =>
      simp only [isIdentifier, Bool.and_eq_true, Bool.or_eq_true, decide_eq_true_eq,
        List.all_eq_true] at h
      obtain ⟨hd, hcs⟩ := h
      rcases List.mem_cons.1 hc with rfl | hc
      · rw [isAlphanumeric, Bool.or_eq_true]
        tauto
      · exact hcs c hc

theorem not_blank_of_isIdentifier {cs : List Char} (h : isIdentifier cs = true) :
    ∀ c ∈ cs, blank.contains c = false :=
  fun _ hc => not_blank_of_isAlphanumeric (eq_or_isAlphanumeric_of_mem h hc)

theorem mem_splitDots {cs : List Char} {c : Char} (h : c ∈ cs) :
    c = '.' ∨ ∃ part ∈ splitDots cs, c ∈ part := by
  induction cs with
  | nil => cases h
  | cons d cs ih =>
      rw [splitDots]
      cases hsplit : splitDots cs with
      | nil =>
          rw [hsplit] at ih
          rcases List.mem_cons.1 h with rfl | h
          · exact .inr ⟨[c], List.mem_singleton_self _, List.mem_singleton_self c⟩
          · exact .inl ((ih h).resolve_right (by simp))
      | cons part parts =>
          rw [hsplit] at ih
          by_cases hd : d = '.'
          · rcases List.mem_cons.1 h with rfl | h
            · exact .inl hd
            · simpa [hd] using ih h
          · rcases List.mem_cons.1 h with rfl | h
            · simp [hd]
            · rcases ih h with hc | ⟨x, hx, hc⟩
              · exact .inl hc
              · rcases List.mem_cons.1 hx with rfl | hx
                · simp [hd, hc]
                · exact .inr ⟨x, by simp [hd, hx], hc⟩

theorem eq_or_isAlphanumeric_of_mem_dotted {cs : List Char} (h : isDottedIdentifier cs = true)
    {c : Char} (hc : c ∈ cs) : c = '.' ∨ c = '_' ∨ isAlphanumeric c = true := by
  rcases mem_splitDots hc with rfl | ⟨part, hpart, hc⟩
  · exact .inl rfl
  · exact .inr (eq_or_isAlphanumeric_of_mem (List.all_eq_true.1 h part hpart) hc)

theorem not_blank_of_isDottedIdentifier {cs : List Char} (h : isDottedIdentifier cs = true) :
    ∀ c ∈ cs, blank.contains c = false := by
  intro c hc
  rcases eq_or_isAlphanumeric_of_mem_dotted h hc with rfl | hc
  · decide
  · exact not_blank_of_isAlphanumeric hc

end Text

namespace TableText

open Text

theorem splitOnce_append {name : List Char} (h : ' ' ∉ name) (rest : List Char) :
    splitOnce " = ".toList (name ++ (" = ".toList ++ rest)) = some (name, rest) := by
  induction name with
  | nil =>
      have heat : eat? " = ".toList (' ' :: '=' :: ' ' :: rest) = some rest :=
        eat?_append " = ".toList rest
      change splitOnce " = ".toList (' ' :: '=' :: ' ' :: rest) = some ([], rest)
      rw [splitOnce, heat]
  | cons c name ih =>
      rw [List.mem_cons, not_or] at h
      have heat : eat? " = ".toList (c :: (name ++ (" = ".toList ++ rest))) = none := by
        rw [eat?, if_neg]
        change ¬ (' ' == c && _) = true
        simp [h.1]
      rw [List.cons_append, splitOnce, heat, ih h.2]
      rfl

theorem dropEnd?_append (cs what : List Char) : dropEnd? what (cs ++ what) = some cs := by
  rw [dropEnd?, if_pos (List.isSuffixOf_iff_suffix.2 (List.suffix_append cs what)),
    List.length_append, Nat.add_sub_cancel, List.take_left]

theorem readBindingLine_bindingLine {name typeRef : List Char} (hname : isIdentifier name = true)
    (htype : isDottedIdentifier typeRef = true) :
    readBindingLine (bindingLine name typeRef) = .ok (name, typeRef) := by
  have hspace : ' ' ∉ name := by
    intro hmem
    have hblank := not_blank_of_isIdentifier hname ' ' hmem
    cases hblank
  have hsplit := splitOnce_append hspace (typeRef ++ "(states, accepts)".toList)
  have hline : bindingLine name typeRef =
      name ++ (" = ".toList ++ (typeRef ++ "(states, accepts)".toList)) := by
    simp only [bindingLine, List.append_assoc]
  rw [hline, readBindingLine, hsplit]
  simp only [dropEnd?_append, hname, htype, Bool.and_self, if_true]

theorem newline_not_mem_commaSeparated {items : List (List Char)}
    (h : ∀ item ∈ items, '\n' ∉ item) : '\n' ∉ commaSeparated items := by
  induction items with
  | nil => exact List.not_mem_nil
  | cons item items ih =>
      cases items with
      | nil =>
          rw [commaSeparated_singleton]
          exact h item List.mem_cons_self
      | cons next items =>
          have hih := ih fun x hx => h x (List.mem_cons_of_mem _ hx)
          rw [commaSeparated_cons]
          simp [h item List.mem_cons_self, hih]

end TableText

end Munch
