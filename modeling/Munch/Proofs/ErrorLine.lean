import Munch.Proofs.LineByLine

namespace Munch

namespace Text

theorem newline_not_mem_lines (cs : List Char) : ∀ line ∈ lines cs, '\n' ∉ line := by
  induction cs with
  | nil => exact fun line h => absurd h List.not_mem_nil
  | cons c cs ih =>
      change ∀ line ∈ consLine c (lines cs), '\n' ∉ line
      generalize lines cs = ls at ih ⊢
      fun_cases consLine c ls with
      | case1 => exact List.forall_mem_cons.2 ⟨List.not_mem_nil, ih⟩
      | case2 hc => simpa using Ne.symm hc
      | case3 hc line rest =>
          rw [List.forall_mem_cons] at ih
          exact List.forall_mem_cons.2 ⟨by simpa [Ne.symm hc] using ih.1, ih.2⟩

/-- The lines with their breaks are the text again, but that it may lack the last break. -/
theorem flatMap_lines (cs : List Char) :
    (lines cs).flatMap (· ++ ['\n']) = cs ∨ (lines cs).flatMap (· ++ ['\n']) = cs ++ ['\n'] := by
  induction cs with
  | nil => exact .inl rfl
  | cons c cs ih =>
      change (consLine c (lines cs)).flatMap _ = c :: cs ∨
        (consLine c (lines cs)).flatMap _ = c :: cs ++ ['\n']
      generalize lines cs = ls at ih ⊢
      fun_cases consLine c ls with
      | case1 => simpa [‹c = '\n'›] using ih
      | case2 hc =>
          have hcs : cs = [] := by simpa using ih
          exact .inr (by rw [hcs]; rfl)
      | case3 hc line rest => simpa using ih

def firstLines (n : Nat) (cs : List Char) : List Char := ((lines cs).take n).flatMap (· ++ ['\n'])

theorem lines_firstLines (n : Nat) (cs : List Char) :
    lines (firstLines n cs) = (lines cs).take n :=
  lines_flatMap fun line hline => newline_not_mem_lines cs line (List.mem_of_mem_take hline)

theorem firstLines_isPrefix {n : Nat} {cs : List Char} (h : n < (lines cs).length) :
    firstLines n cs <+: cs := by
  have hall : (lines cs).flatMap (· ++ ['\n']) = firstLines n cs ++
      ((lines cs)[n] ++ '\n' :: ((lines cs).drop (n + 1)).flatMap (· ++ ['\n'])) := by
    nth_rewrite 1 [← List.take_append_drop n (lines cs)]
    rw [List.flatMap_append, List.drop_eq_getElem_cons h, List.flatMap_cons, List.append_assoc]
    rfl
  have hprefix : firstLines n cs <+: (lines cs).flatMap (· ++ ['\n']) := by
    rw [hall]
    exact List.prefix_append _ _
  rcases flatMap_lines cs with he | he
  · rwa [he] at hprefix
  · -- The break that the text may lack is not among the first lines.
    rw [he] at hprefix
    refine (List.prefix_concat_iff.1 hprefix).resolve_left fun hwhole => ?_
    rw [← he, hall] at hwhole
    have hlen := congrArg List.length hwhole
    simp at hlen

end Text

namespace TableText

open Text

namespace Due

variable {d : Due} {n k : Nat} {ls : List (List Char)} {e : LineError}

theorem exists_takes_of_wrong (h : d.readFrom n ls = .error (.inLine k e)) :
    ∃ before line after d', ls = before ++ line :: after ∧ d.Takes before d' ∧ d'.Open ∧
      d'.take line = .error e ∧ k = n + before.length + 1 := by
  rcases d.takes_cases ls with ⟨used, rest, t, rfl, hused⟩ |
    ⟨before, line, after, d', e', rfl, hbefore, hopen, hline⟩ | ⟨d', htakes, hopen⟩
  · rcases hused.readFrom_whole n rest with he | ⟨defect, he⟩
    all_goals
      rw [he] at h
      cases h
  · rw [hbefore.readFrom_wrong hopen hline] at h
    cases h
    exact ⟨before, line, after, d', rfl, hbefore, hopen, hline, rfl⟩
  · rw [htakes.readFrom_short hopen] at h
    cases h

theorem eq_length_of_short (h : d.readFrom n ls = .error (.truncated k)) : k = n + ls.length := by
  rcases d.takes_cases ls with ⟨used, rest, t, rfl, hused⟩ |
    ⟨before, line, after, d', e', rfl, hbefore, hopen, hline⟩ | ⟨d', htakes, hopen⟩
  · rcases hused.readFrom_whole n rest with he | ⟨defect, he⟩
    all_goals
      rw [he] at h
      cases h
  · rw [hbefore.readFrom_wrong hopen hline] at h
    cases h
  · rw [htakes.readFrom_short hopen] at h
    cases h
    rfl

end Due

/-- An error in a line is the work of that line and those before it: without it they are the
beginning of a table, and what comes behind it is not looked at. Nor is white space at the end of a
line. An error for missing lines tells how many there are. -/
theorem error_names_line (text : List Char) :
    (∀ n e, read text = .error (.inLine n e) →
      1 ≤ n ∧ n ≤ (Text.lines text).length ∧
      firstLines (n - 1) text <+: text ∧
      read (firstLines (n - 1) text) = .error (.truncated (n - 1)) ∧
      ∀ text', ((Text.lines text').take n).map trimEnd = ((Text.lines text).take n).map trimEnd →
        read text' = .error (.inLine n e)) ∧
    ∀ n, read text = .error (.truncated n) → n = (Text.lines text).length := by
  constructor
  · intro n e h
    rw [read, Due.readLines_eq_readFrom] at h
    obtain ⟨before, line, after, d, hlines, hbefore, hopen, hline, hn⟩ :=
      Due.exists_takes_of_wrong h
    have hlen := congrArg List.length hlines
    rw [List.length_map, List.length_append, List.length_cons] at hlen
    refine ⟨by omega, by omega, firstLines_isPrefix (by omega), ?_, fun text' htext' => ?_⟩
    · have hfirst : ((Text.lines text).take (n - 1)).map trimEnd = before := by
        rw [List.map_take, hlines]
        exact List.take_left' (by omega)
      rw [read, lines_firstLines, hfirst, Due.readLines_eq_readFrom, hbefore.readFrom_short hopen]
      congr 2
      omega
    · have hfirst : ((Text.lines text').map trimEnd).take n = before ++ [line] := by
        rw [← List.map_take, htext', List.map_take, hlines, hn, Nat.zero_add,
          List.take_length_add_append, List.take_succ_cons, List.take_zero]
      rw [read, ← List.take_append_drop n ((Text.lines text').map trimEnd), hfirst,
        List.append_assoc, List.singleton_append, Due.readLines_eq_readFrom,
        hbefore.readFrom_wrong hopen hline, hn]
  · intro n h
    rw [read, Due.readLines_eq_readFrom] at h
    rw [Due.eq_length_of_short h, List.length_map, Nat.zero_add]

def openRowText : List Char := "accepts = []\nstates = [\n    # 0\n    \x7b\x7d\n    # 1\n".toList

theorem error_names_line_openRow :
    read openRowText = .error (.inLine 4 (.expected [','] [])) ∧
      4 ≤ (Text.lines openRowText).length ∧
      read (firstLines 3 openRowText) = .error (.truncated 3) ∧
      3 = (Text.lines (firstLines 3 openRowText)).length ∧
      read (openRowText.take 38 ++ " \n    ]\n".toList) =
        .error (.inLine 4 (.expected [','] [])) := by
  have hlines : (Text.lines openRowText).map trimEnd = ["accepts = []".toList,
      "states = [".toList, "    # 0".toList, "    \x7b\x7d".toList, "    # 1".toList] := by
    cbv
  have hread : read openRowText = .error (.inLine 4 (.expected [','] [])) := by
    rw [read, hlines]
    rfl
  obtain ⟨-, hle, -, hfirst, hsame⟩ := (error_names_line openRowText).1 4 _ hread
  exact ⟨hread, hle, hfirst, (error_names_line _).2 3 hfirst, hsame _ (by cbv)⟩

end TableText

end Munch
