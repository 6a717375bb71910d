import Mathlib.Data.List.Basic
import Munch.Numbering

namespace Munch.Numbering

theorem take_append_cons_drop {α : Type} {l : List α} {i : Nat} {a : α} (h : l[i]? = some a) :
    l.take i ++ a :: l.drop (i + 1) = l := by
  obtain ⟨hi, rfl⟩ := List.getElem?_eq_some_iff.1 h
  rw [← List.drop_eq_getElem_cons hi, List.take_append_drop]

variable {α : Type} [BEq α] [Hashable α] (nb : Numbering α)

theorem idOf_eq {k : α} {i : Nat} (h : nb.keys[i]? = some k) : nb.idOf k = i := by
  rw [idOf, (nb.index_eq_some k i).2 h, Option.getD_some]

theorem key_unique {k : α} {i j : Nat} (hi : nb.keys[i]? = some k) (hj : nb.keys[j]? = some k) :
    i = j := (nb.idOf_eq hi).symm.trans (nb.idOf_eq hj)

theorem getElem?_idOf {k : α} (h : k ∈ nb.keys) : nb.keys[nb.idOf k]? = some k := by
  obtain ⟨i, hi⟩ := Array.mem_iff_getElem?.1 h
  rwa [nb.idOf_eq hi]

theorem idOf_lt {k : α} (h : k ∈ nb.keys) : nb.idOf k < nb.keys.size :=
  (Array.getElem?_eq_some_iff.1 (nb.getElem?_idOf h)).1

theorem idOf_inj {k l : α} (hk : k ∈ nb.keys) (hl : l ∈ nb.keys) :
    nb.idOf k = nb.idOf l ↔ k = l := by
  constructor
  · intro h
    have hk := nb.getElem?_idOf hk
    rw [h, nb.getElem?_idOf hl] at hk
    exact (Option.some.inj hk).symm
  · rintro rfl
    rfl

/-- A key keeps its number when keys are added at the end. -/
theorem idOf_eq_of_prefix {nb nb' : Numbering α} (h : nb.keys.toList <+: nb'.keys.toList) {k : α}
    (hk : k ∈ nb.keys) : nb.idOf k = nb'.idOf k := by
  refine (nb'.idOf_eq ?_).symm
  have hid := nb.getElem?_idOf hk
  rw [← Array.getElem?_toList] at hid ⊢
  obtain ⟨hlt, -⟩ := List.getElem?_eq_some_iff.1 hid
  rw [List.prefix_iff_getElem?.1 h _ hlt, ← List.getElem?_eq_getElem hlt, hid]

theorem nodup_keys : nb.keys.toList.Nodup := by
  refine List.pairwise_iff_getElem.2 fun i j hi hj hij he => Nat.ne_of_lt hij ?_
  refine nb.key_unique (k := nb.keys.toList[j]) ?_ ?_
  · rw [← he, ← Array.getElem?_toList]
    exact List.getElem?_eq_getElem hi
  · rw [← Array.getElem?_toList]
    exact List.getElem?_eq_getElem hj

section Add

variable [LawfulBEq α]

theorem idxOf_keys {k : α} (h : k ∈ nb.keys) : nb.keys.idxOf k = nb.idOf k := by
  have hlt : nb.keys.idxOf k < nb.keys.size := Array.idxOf_lt_length_of_mem h
  refine (nb.idOf_eq ?_).symm
  rw [Array.getElem?_eq_getElem hlt]
  exact congrArg some (eq_of_beq (Array.findIdx_getElem (w := hlt)))

theorem keys_add (k : α) :
    (nb.add k).keys = nb.keys ∧ k ∈ nb.keys ∨ (nb.add k).keys = nb.keys.push k ∧ k ∉ nb.keys := by
  rw [add]
  split
  case h_1 i hi =>
    exact .inl ⟨rfl, Array.mem_of_getElem? ((nb.index_eq_some k i).1 hi)⟩
  case h_2 hn =>
    refine .inr ⟨rfl, fun hk => ?_⟩
    rw [(nb.index_eq_some k _).2 (nb.getElem?_idOf hk)] at hn
    cases hn

theorem mem_keys_add {k l : α} : l ∈ (nb.add k).keys ↔ l ∈ nb.keys ∨ l = k := by
  rcases nb.keys_add k with ⟨h, hk⟩ | ⟨h, -⟩
  · rw [h]
    constructor
    · exact .inl
    · rintro (hl | rfl)
      · exact hl
      · exact hk
  · rw [h, Array.mem_push]

theorem prefix_add (k : α) : nb.keys.toList <+: (nb.add k).keys.toList := by
  rcases nb.keys_add k with ⟨h, -⟩ | ⟨h, -⟩
  · exact ⟨[], by rw [h, List.append_nil]⟩
  · rw [h, Array.toList_push]
    exact List.prefix_append _ _

theorem add_eq_self {k : α} (h : k ∈ nb.keys) : nb.add k = nb := by
  rw [add]
  split
  case h_1 => rfl
  case h_2 hnone =>
    rw [(nb.index_eq_some k _).2 (nb.getElem?_idOf h)] at hnone
    cases hnone

theorem addAll_cons (k : α) (ks : List α) : nb.addAll (k :: ks) = (nb.add k).addAll ks := rfl

theorem addAll_append (ks ls : List α) : nb.addAll (ks ++ ls) = (nb.addAll ks).addAll ls :=
  List.foldl_append

theorem mem_keys_addAll {ks : List α} {l : α} :
    l ∈ (nb.addAll ks).keys ↔ l ∈ nb.keys ∨ l ∈ ks := by
  induction ks generalizing nb with
  | nil => simp [addAll]
  | cons k ks ih => rw [addAll_cons, ih, mem_keys_add, List.mem_cons, or_assoc]

theorem prefix_addAll (ks : List α) : nb.keys.toList <+: (nb.addAll ks).keys.toList := by
  induction ks generalizing nb with
  | nil => exact List.prefix_rfl
  | cons k ks ih => exact (nb.prefix_add k).trans (ih (nb.add k))

theorem getElem?_addAll (ks : List α) {i : Nat} (h : i < nb.keys.size) :
    (nb.addAll ks).keys[i]? = nb.keys[i]? := by
  rw [← Array.getElem?_toList, ← Array.getElem?_toList]
  exact (List.prefix_iff_getElem?.1 (nb.prefix_addAll ks) i (by simpa using h)).trans
    (List.getElem?_eq_getElem (by simpa using h)).symm

theorem mem_keys_ofList {ks : List α} {l : α} : l ∈ (ofList ks).keys ↔ l ∈ ks := by
  rw [ofList, mem_keys_addAll]
  simp [empty]

theorem keys_ofList_singleton (k : α) : (ofList [k]).keys = #[k] := by
  rcases (empty : Numbering α).keys_add k with ⟨-, h⟩ | ⟨h, -⟩
  · exact absurd h (Array.not_mem_empty k)
  · exact h

theorem getElem?_ofList_zero (k : α) (ks : List α) : (ofList (k :: ks)).keys[0]? = some k := by
  change ((ofList [k]).addAll ks).keys[0]? = some k
  rw [getElem?_addAll, keys_ofList_singleton]
  · rfl
  · rw [keys_ofList_singleton]
    exact Nat.zero_lt_one

/-- Whatever has a smaller number than a key is listed before every place of the key. -/
theorem mem_of_lt {nb : Numbering α} {before after : List α} {k l : α} {i j : Nat}
    (h : nb = ofList (before ++ k :: after)) (hk : nb.keys[j]? = some k)
    (hl : nb.keys[i]? = some l) (hij : i < j) : l ∈ before := by
  have hsplit : nb = (ofList before).addAll (k :: after) :=
    h.trans (addAll_append empty before (k :: after))
  rw [hsplit] at hk hl
  have hj : j ≤ (ofList before).keys.size := by
    -- The key has its number as soon as its first place is passed.
    have hmem : k ∈ ((ofList before).add k).keys := (mem_keys_add _).2 (.inr rfl)
    have hid := getElem?_addAll _ after (idOf_lt _ hmem)
    rw [getElem?_idOf _ hmem, ← addAll_cons] at hid
    rw [key_unique _ hk hid]
    have hlt := idOf_lt _ hmem
    have hsize := size_add_le (ofList before) k
    omega
  rw [getElem?_addAll _ _ (by omega)] at hl
  exact mem_keys_ofList.1 (Array.mem_of_getElem? hl)

end Add

end Munch.Numbering
