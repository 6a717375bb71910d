import Munch.Proofs.EntryText
import Munch.Proofs.Row
import Munch.TableText.Reader

namespace Munch

namespace TableText

open Text

theorem commaSeparated_singleton (item : List Char) : commaSeparated [item] = item := by
  simp [commaSeparated]

theorem commaSeparated_cons (item next : List Char) (items : List (List Char)) :
    commaSeparated (item :: next :: items) =
      item ++ (", ".toList ++ commaSeparated (next :: items)) := by
  simp [commaSeparated]

theorem exists_commaSeparated_cons (item : List Char) (items : List (List Char)) :
    ∃ tail, commaSeparated (item :: items) = item ++ tail := by
  cases items with
  | nil => exact ⟨[], by rw [commaSeparated_singleton, List.append_nil]⟩
  | cons next items => exact ⟨_, commaSeparated_cons item next items⟩

theorem eat?_comma {mark : Char} (hmark : mark ≠ ',') (rest : List Char) :
    eat? [mark] (", ".toList ++ rest) = none := by
  rw [eat?, if_neg]
  change ¬ (mark == ',' && _) = true
  simp [hmark]

theorem readEntries_last {r : Row Nat} {cs rest : List Char} {e : Char × Nat}
    (he : readEntry cs = .ok (e, '}' :: rest)) (hnew : r.get? e.1 = none) :
    readEntries r cs = .ok (r.insert e.1 e.2, rest) := by
  have heat : eat? ['}'] ('}' :: rest) = some rest := eat?_append ['}'] rest
  rw [readEntries, he]
  simp [hnew, heat]

theorem readEntries_more {r : Row Nat} {cs rest : List Char} {e : Char × Nat}
    (he : readEntry cs = .ok (e, ", ".toList ++ rest)) (hnew : r.get? e.1 = none) :
    readEntries r cs = readEntries (r.insert e.1 e.2) rest := by
  have heat : eat? ['}'] (", ".toList ++ rest) = none := eat?_comma (by decide) rest
  have hexpect := expect_append ", ".toList rest
  rw [readEntries, he]
  simp only [hnew, Option.isSome_none, Bool.false_eq_true, if_false, heat]
  rw [hexpect]

theorem readEntries_entries {e : Char × Nat} {es : List (Char × Nat)} {r : Row Nat}
    (hasc : (e :: es).Pairwise (·.1 < ·.1)) (hnew : ∀ x ∈ e :: es, r.get? x.1 = none)
    (hlt : ∀ x ∈ e :: es, x.2 < words64) (rest : List Char) :
    readEntries r (commaSeparated ((e :: es).map entry) ++ '}' :: rest) =
      .ok ((e :: es).foldl (fun r x => r.insert x.1 x.2) r, rest) := by
  induction es generalizing e r with
  | nil =>
      rw [List.map_singleton, commaSeparated_singleton]
      apply readEntries_last
      · exact readEntry_entry (hlt e List.mem_cons_self) (by simp)
      · exact hnew e List.mem_cons_self
  | cons x es ih =>
      obtain ⟨hfirst, hasc⟩ := List.pairwise_cons.1 hasc
      rw [List.map_cons, List.map_cons, commaSeparated_cons, List.append_assoc, List.append_assoc,
        readEntries_more (readEntry_entry (hlt e List.mem_cons_self) (by simp))
          (hnew e List.mem_cons_self)]
      apply ih hasc
      · intro y hy
        have hne : y.1 ≠ e.1 := fun heq => Char.lt_irrefl _ (heq ▸ hfirst y hy)
        rw [Row.get?_insert, if_neg hne]
        exact hnew y (List.mem_cons_of_mem _ hy)
      · exact fun y hy => hlt y (List.mem_cons_of_mem _ hy)

theorem eat?_entry (e : Char × Nat) (rest : List Char) : eat? ['}'] (entry e ++ rest) = none := by
  rw [entry, symbol]
  split <;> rfl

theorem readRow_row {r : Row Nat} (hlt : ∀ e ∈ r.entries, e.2 < words64) (rest : List Char) :
    readRow (row r ++ rest) = .ok (r, rest) := by
  have hexpect (cs : List Char) : expect ['{'] ('{' :: cs) = .ok cs := expect_append ['{'] cs
  have hfold := r.foldl_insert_entries
  have hasc := r.ascending
  rw [row, List.append_assoc, List.cons_append, readRow, hexpect]
  simp only [bind, Except.bind, List.singleton_append]
  cases hes : r.entries with
  | nil =>
      rw [hes] at hfold
      rw [← hfold]
      rfl
  | cons e es =>
      rw [hes] at hasc hlt hfold
      have heat : eat? ['}'] (commaSeparated ((e :: es).map entry) ++ '}' :: rest) = none := by
        obtain ⟨tail, htail⟩ := exists_commaSeparated_cons (entry e) (es.map entry)
        rw [List.map_cons, htail, List.append_assoc]
        exact eat?_entry e _
      rw [heat]
      dsimp only
      rw [readEntries_entries hasc (fun x _ => Row.get?_empty x.1) hlt, hfold]

theorem readFlag_flag (b : Bool) (rest : List Char) :
    readFlag (flag b ++ rest) = .ok (b, rest) := by
  cases b with
  | true =>
      rw [readFlag, flag, if_pos rfl, eat?_append]
  | false =>
      have hno : eat? "True".toList ("False".toList ++ rest) = none := rfl
      rw [readFlag, flag, if_neg Bool.false_ne_true, hno, eat?_append]

theorem readFlags_last {cs rest : List Char} {b : Bool} (h : readFlag cs = .ok (b, ']' :: rest)) :
    readFlags cs = .ok ([b], rest) := by
  have heat : eat? [']'] (']' :: rest) = some rest := eat?_append [']'] rest
  rw [readFlags, h]
  simp only [heat]

theorem readFlags_more {cs rest : List Char} {b : Bool}
    (h : readFlag cs = .ok (b, ", ".toList ++ rest)) :
    readFlags cs = (readFlags rest).map fun (bs, rest) => (b :: bs, rest) := by
  have heat : eat? [']'] (", ".toList ++ rest) = none := eat?_comma (by decide) rest
  have hexpect := expect_append ", ".toList rest
  rw [readFlags, h]
  simp only [heat]
  rw [hexpect]

theorem readFlags_flags (b : Bool) (bs : List Bool) (rest : List Char) :
    readFlags (commaSeparated ((b :: bs).map flag) ++ ']' :: rest) = .ok (b :: bs, rest) := by
  induction bs generalizing b with
  | nil =>
      rw [List.map_singleton, commaSeparated_singleton]
      exact readFlags_last (readFlag_flag b _)
  | cons b' bs ih =>
      rw [List.map_cons, List.map_cons, commaSeparated_cons, List.append_assoc, List.append_assoc,
        readFlags_more (readFlag_flag b _), ← List.map_cons, ih]
      rfl

theorem readAcceptsLine_flags (flags : List Bool) :
    readAcceptsLine ("accepts = [".toList ++ (commaSeparated (flags.map flag) ++ [']'])) =
      .ok flags := by
  have hexpect := expect_append "accepts = [".toList (commaSeparated (flags.map flag) ++ [']'])
  rw [readAcceptsLine, hexpect]
  cases flags with
  | nil => rfl
  | cons b bs =>
      have heat : eat? [']'] (commaSeparated ((b :: bs).map flag) ++ [']']) = none := by
        obtain ⟨tail, htail⟩ := exists_commaSeparated_cons (flag b) (bs.map flag)
        rw [List.map_cons, htail]
        cases b <;> rfl
      have hflags := readFlags_flags b bs []
      simp only [bind, Except.bind]
      rw [heat]
      dsimp only
      rw [hflags]
      rfl

theorem readAcceptsLine_acceptsLine (accepts : Array Bool) :
    readAcceptsLine (acceptsLine accepts) = .ok accepts.toList := by
  have hline : acceptsLine accepts =
      "accepts = [".toList ++ (commaSeparated (accepts.toList.map flag) ++ [']']) :=
    List.append_assoc _ _ _
  rw [hline]
  exact readAcceptsLine_flags accepts.toList

theorem readNumberLine_numeral {q : Nat} (hq : q < words64) :
    readNumberLine q ("# ".toList ++ numeral q) = .ok () := by
  have hnumber : readNumber (numeral q) = .ok (q, []) := by
    have h := readNumber_numeral hq [] (by simp)
    rwa [List.append_nil] at h
  rw [readNumberLine, expect_append]
  simp only [bind, Except.bind, hnumber, readEnd, if_true]

theorem readRowLine_row {r : Row Nat} (hlt : ∀ e ∈ r.entries, e.2 < words64) :
    readRowLine (row r ++ [',']) = .ok r := by
  have hexpect : expect [','] [','] = .ok [] := rfl
  rw [readRowLine, readRow_row hlt]
  simp only [bind, Except.bind, hexpect, readEnd]

end TableText

end Munch
