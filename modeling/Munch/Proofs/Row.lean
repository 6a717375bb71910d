import Mathlib.Data.List.Basic
import Mathlib.Order.Defs.LinearOrder
import Munch.Row

namespace Munch.Row

variable {α β : Type}

theorem lookup_cons_eq_ite (es : List (Char × α)) (c e : Char) (a : α) :
    ((e, a) :: es).lookup c = if c = e then some a else es.lookup c := by
  by_cases hc : c = e
  · subst e
    rw [List.lookup_cons_self, if_pos rfl]
  · rw [List.lookup_cons, beq_false_of_ne hc, if_neg hc]

theorem lookup_eq_none_of_lt {es : List (Char × α)} {c : Char} (h : ∀ e ∈ es, c < e.1) :
    es.lookup c = none := by
  rw [List.lookup_eq_none_iff]
  intro e he
  have hne : c ≠ e.1 := fun heq => Char.lt_irrefl _ (heq ▸ h e he)
  simpa using hne

theorem lookup_alterEntries {es : List (Char × α)} (h : es.Pairwise (·.1 < ·.1)) (c d : Char)
    (f : Option α → α) :
    (alterEntries c f es).lookup d = if d = c then some (f (es.lookup c)) else es.lookup d := by
  induction es with
  | nil => rw [alterEntries, lookup_cons_eq_ite, List.lookup_nil, List.lookup_nil]
  | cons e es ih =>
      obtain ⟨e, a⟩ := e
      obtain ⟨hlt, hes⟩ := List.pairwise_cons.1 h
      rw [alterEntries]
      by_cases hce : c < e
      · have hnone : ((e, a) :: es).lookup c = none := by
          apply lookup_eq_none_of_lt
          intro x hx
          rcases List.mem_cons.1 hx with rfl | hx
          · exact hce
          · exact Char.lt_trans hce (hlt x hx)
        rw [if_pos hce, lookup_cons_eq_ite, hnone]
      · rw [if_neg hce]
        by_cases heq : c = e
        · subst e
          rw [if_pos rfl, lookup_cons_eq_ite, lookup_cons_eq_ite, lookup_cons_eq_ite, if_pos rfl]
          by_cases hd : d = c <;> simp [hd]
        · rw [if_neg heq, lookup_cons_eq_ite, lookup_cons_eq_ite, lookup_cons_eq_ite, ih hes,
            if_neg heq]
          by_cases hd : d = c
          · subst d
            rw [if_neg heq, if_pos rfl, if_pos rfl]
          · rw [if_neg hd, if_neg hd]

theorem get?_alter (row : Row α) (c d : Char) (f : Option α → α) :
    (row.alter c f).get? d = if d = c then some (f (row.get? c)) else row.get? d :=
  lookup_alterEntries row.ascending c d f

theorem get?_empty (c : Char) : (empty : Row α).get? c = none := rfl

theorem get?_insert (row : Row α) (c d : Char) (a : α) :
    (row.insert c a).get? d = if d = c then some a else row.get? d := row.get?_alter c d _

theorem mem_entries_iff {row : Row α} {c : Char} {a : α} :
    (c, a) ∈ row.entries ↔ row.get? c = some a := by
  obtain ⟨es, h⟩ := row
  change (c, a) ∈ es ↔ es.lookup c = some a
  induction es with
  | nil => simp
  | cons e es ih =>
      obtain ⟨e, b⟩ := e
      obtain ⟨hlt, hes⟩ := List.pairwise_cons.1 h
      rw [List.mem_cons, lookup_cons_eq_ite, ih hes]
      by_cases hc : c = e
      · subst e
        rw [lookup_eq_none_of_lt hlt]
        simp [eq_comm]
      · simp [hc]

theorem nodup_entries (row : Row α) : row.entries.Nodup := by
  refine row.ascending.imp ?_
  rintro x y hxy rfl
  exact Char.lt_irrefl _ hxy

theorem ext_get? {row row' : Row α} (h : ∀ c, row.get? c = row'.get? c) : row = row' := by
  have hperm : row.entries.Perm row'.entries := by
    rw [List.perm_ext_iff_of_nodup row.nodup_entries row'.nodup_entries]
    rintro ⟨c, a⟩
    rw [mem_entries_iff, mem_entries_iff, h]
  have heq : row.entries = row'.entries := by
    refine List.Perm.eq_of_pairwise (fun x y _ _ hxy hyx => ?_) row.ascending row'.ascending hperm
    exact absurd (Char.lt_trans hxy hyx) (Char.lt_irrefl _)
  cases row
  cases row'
  cases heq
  rfl

theorem get?_map (f : α → β) (row : Row α) (c : Char) :
    (row.map f).get? c = (row.get? c).map f := by
  obtain ⟨es, h⟩ := row
  change (es.map fun e => (e.1, f e.2)).lookup c = (es.lookup c).map f
  clear h
  induction es with
  | nil => rfl
  | cons e es ih =>
      obtain ⟨e, a⟩ := e
      rw [List.map_cons, lookup_cons_eq_ite, lookup_cons_eq_ite, ih]
      by_cases hc : c = e <;> simp [hc]

theorem map_eq_self {f : α → α} {row : Row α} (h : ∀ e ∈ row.entries, f e.2 = e.2) :
    row.map f = row := by
  apply ext_get?
  intro c
  rw [get?_map]
  cases ha : row.get? c with
  | none => rfl
  | some a => rw [Option.map_some, h _ (mem_entries_iff.2 ha)]

/-- Grouping in any order gathers the values listed for each symbol. -/
theorem get?_foldr_alter (es : List (Char × α)) (c : Char) :
    (es.foldr (fun e row => row.alter e.1 fun old => e.2 :: old.getD []) empty).get? c =
      (if ∃ e ∈ es, e.1 = c then some ((es.filter (·.1 = c)).map (·.2)) else none) := by
  induction es with
  | nil => simp [get?_empty]
  | cons e es ih =>
      rw [List.foldr_cons, get?_alter]
      by_cases hc : c = e.1
      · subst hc
        have hself : ∃ d ∈ e :: es, d.1 = e.1 := ⟨e, List.mem_cons_self, rfl⟩
        rw [if_pos rfl, if_pos hself, ih, List.filter_cons_of_pos (by simp), List.map_cons]
        by_cases hex : ∃ d ∈ es, d.1 = e.1
        · rw [if_pos hex, Option.getD_some]
        · rw [if_neg hex, Option.getD_none, List.filter_eq_nil_iff.2, List.map_nil]
          intro d hd
          simpa using fun hde => hex ⟨d, hd, hde⟩
      · rw [if_neg hc, ih, List.filter_cons_of_neg (by simpa using Ne.symm hc)]
        have hiff : (∃ d ∈ e :: es, d.1 = c) ↔ ∃ d ∈ es, d.1 = c := by
          simp [Ne.symm hc]
        simp only [hiff]

theorem get?_group_eq_some {es : List (Char × α)} {c : Char} {as : List α}
    (h : (group es).get? c = some as) : as ≠ [] ∧ ∀ a, a ∈ as ↔ (c, a) ∈ es := by
  rw [group, gather, get?_foldr_alter] at h
  split at h
  case isFalse => cases h
  case isTrue hex =>
    cases h
    have hmem (a : α) : a ∈ ((es.mergeSort fun a b => a.1 ≤ b.1).filter (·.1 = c)).map (·.2) ↔
        (c, a) ∈ es := by
      simp
    obtain ⟨⟨d, a⟩, hd, rfl⟩ := hex
    exact ⟨List.ne_nil_of_mem ((hmem a).2 (List.mem_mergeSort.1 hd)), hmem⟩

theorem get?_group_eq_none {es : List (Char × α)} {c : Char} (h : (group es).get? c = none)
    (a : α) : (c, a) ∉ es := by
  rw [group, gather, get?_foldr_alter] at h
  split at h
  case isTrue => cases h
  case isFalse hex => exact fun ha => hex ⟨(c, a), List.mem_mergeSort.2 ha, rfl⟩

theorem entries_foldr_alter {es : List (Char × α)} (h : es.Pairwise (·.1 < ·.1)) :
    (es.foldr (fun e row => row.alter e.1 fun old => old.getD e.2) empty).entries = es := by
  induction es with
  | nil => rfl
  | cons e es ih =>
      obtain ⟨hfirst, hes⟩ := List.pairwise_cons.1 h
      rw [List.foldr_cons]
      change alterEntries e.1 _ (es.foldr _ empty).entries = e :: es
      rw [ih hes]
      cases es with
      | nil => rfl
      | cons d es =>
          rw [alterEntries, if_pos (hfirst d List.mem_cons_self)]
          rfl

theorem ofList_entries (r : Row α) : ofList r.entries = r := by
  have hsort : r.entries.mergeSort (fun a b => a.1 ≤ b.1) = r.entries := by
    apply List.mergeSort_of_pairwise
    exact r.ascending.imp fun hlt => decide_eq_true (Std.le_of_lt hlt)
  have hentries : (ofList r.entries).entries = r.entries := by
    rw [ofList, gather, hsort]
    exact entries_foldr_alter r.ascending
  cases hr : ofList r.entries
  rw [hr] at hentries
  cases r
  cases hentries
  rfl

theorem get?_foldl_insert {es : List (Char × α)} (hes : es.Pairwise (·.1 < ·.1)) (row : Row α)
    (c : Char) :
    (es.foldl (fun row e => row.insert e.1 e.2) row).get? c = (es.lookup c).or (row.get? c) := by
  induction es generalizing row with
  | nil => rfl
  | cons e es ih =>
      obtain ⟨d, a⟩ := e
      obtain ⟨hd, hes⟩ := List.pairwise_cons.1 hes
      rw [List.foldl_cons, ih hes, get?_insert, lookup_cons_eq_ite]
      by_cases hc : c = d
      · subst c
        rw [lookup_eq_none_of_lt hd]
        simp
      · simp [hc]

theorem foldl_insert_entries (row : Row α) :
    row.entries.foldl (fun row e => row.insert e.1 e.2) empty = row := by
  apply ext_get?
  intro c
  rw [get?_foldl_insert row.ascending, get?_empty, Option.or_none, get?]

end Munch.Row
