import Mathlib.Data.List.Sublists
import Munch.Dfa.Subset
import Munch.Proofs.Closure
import Munch.Proofs.Follow
import Munch.Proofs.Numbering

namespace Munch.Nfa

open Nfa.Graph

variable (nfa : Nfa)

/-- The set that a word leads to from a set, if every symbol of it can be read. -/
def track (qs : List Nat) : List Char → Option (List Nat)
  | [] => some qs
  | c :: w => ((nfa.moves qs).get? c).bind (track · w)

def targets (qs : List Nat) : List (List Nat) := (nfa.moves qs).entries.map (·.2)

variable {nfa}

theorem get?_moves_eq_some {qs T : List Nat} {c : Char} (h : (nfa.moves qs).get? c = some T) :
    ∃ ts, T = nfa.closure ts ∧ ts ≠ [] ∧ ∀ t, t ∈ ts ↔ ∃ q ∈ qs, (c, t) ∈ nfa.edgesOf q := by
  rw [moves, Row.get?_map] at h
  obtain ⟨ts, hts, rfl⟩ := Option.map_eq_some_iff.1 h
  obtain ⟨hne, hmem⟩ := Row.get?_group_eq_some hts
  refine ⟨ts, rfl, hne, fun t => ?_⟩
  rw [hmem, List.mem_flatMap]

theorem get?_moves_eq_none {qs : List Nat} {c : Char} (h : (nfa.moves qs).get? c = none) {q : Nat}
    (hq : q ∈ qs) (t : Nat) : (c, t) ∉ nfa.edgesOf q := by
  rw [moves, Row.get?_map, Option.map_eq_none_iff] at h
  exact fun ht => Row.get?_group_eq_none h t (List.mem_flatMap.2 ⟨q, hq, ht⟩)

theorem mem_targets {qs T : List Nat} :
    T ∈ nfa.targets qs ↔ ∃ c, (nfa.moves qs).get? c = some T := by
  rw [targets, List.mem_map]
  constructor
  · rintro ⟨⟨c, T⟩, h, rfl⟩
    exact ⟨c, Row.mem_entries_iff.1 h⟩
  · rintro ⟨c, h⟩
    exact ⟨(c, T), Row.mem_entries_iff.2 h, rfl⟩

theorem track_append (qs : List Nat) (u v : List Char) :
    nfa.track qs (u ++ v) = (nfa.track qs u).bind (nfa.track · v) := by
  induction u generalizing qs with
  | nil => rfl
  | cons c u ih =>
      rw [List.cons_append, track, track]
      cases (nfa.moves qs).get? c with
      | none => rfl
      | some T => exact ih T

theorem track_concat (qs : List Nat) (w : List Char) (c : Char) :
    nfa.track qs (w ++ [c]) = (nfa.track qs w).bind fun T => (nfa.moves T).get? c := by
  rw [track_append]
  congr 1
  funext T
  rw [track]
  cases (nfa.moves T).get? c <;> rfl

theorem exists_cons_mem_words_iff {seeds ts : List Nat} {c : Char} {w : List Char} {z : Nat}
    (hts : ∀ t, t ∈ ts ↔ ∃ q ∈ nfa.closure seeds, (c, t) ∈ nfa.edgesOf q) :
    (∃ t ∈ ts, w ∈ words nfa.states t z) ↔ ∃ s ∈ seeds, c :: w ∈ words nfa.states s z := by
  constructor
  · rintro ⟨t, ht, hw⟩
    obtain ⟨q, hq, he⟩ := (hts t).1 ht
    obtain ⟨-, s, hs, hsq⟩ := mem_closure.1 hq
    exact ⟨s, hs, cons_mem_words_iff.2 ⟨q, t, hsq, he, hw⟩⟩
  · rintro ⟨s, hs, hw⟩
    obtain ⟨q, t, hsq, he, hw⟩ := cons_mem_words_iff.1 hw
    obtain ⟨st, hst, -⟩ := mem_edgesOf.1 he
    have hlt : q < nfa.states.size := (Array.getElem?_eq_some_iff.1 hst).1
    exact ⟨t, (hts t).2 ⟨q, mem_closure.2 ⟨hlt, s, hs, hsq⟩, he⟩, hw⟩

theorem mem_of_track {seeds T : List Nat} {w : List Char}
    (h : nfa.track (nfa.closure seeds) w = some T) (z : Nat) :
    z ∈ T ↔ z < nfa.states.size ∧ ∃ s ∈ seeds, w ∈ words nfa.states s z := by
  induction w generalizing seeds with
  | nil =>
      cases h
      simp only [mem_closure, nil_mem_words_iff]
  | cons c w ih =>
      obtain ⟨S, hS, hT⟩ := Option.bind_eq_some_iff.1 h
      obtain ⟨ts, rfl, -, hts⟩ := get?_moves_eq_some hS
      rw [ih hT, exists_cons_mem_words_iff hts]

theorem not_mem_words_of_track {seeds : List Nat} {w : List Char}
    (h : nfa.track (nfa.closure seeds) w = none) {s : Nat} (hs : s ∈ seeds) (z : Nat) :
    w ∉ words nfa.states s z := by
  induction w generalizing seeds s with
  | nil => cases h
  | cons c w ih =>
      intro hw
      cases hS : (nfa.moves (nfa.closure seeds)).get? c with
      | none =>
          obtain ⟨q, t, hsq, he, -⟩ := cons_mem_words_iff.1 hw
          obtain ⟨st, hst, -⟩ := mem_edgesOf.1 he
          have hlt : q < nfa.states.size := (Array.getElem?_eq_some_iff.1 hst).1
          exact get?_moves_eq_none hS (mem_closure.2 ⟨hlt, s, hs, hsq⟩) t he
      | some S =>
          obtain ⟨ts, rfl, -, hts⟩ := get?_moves_eq_some hS
          rw [track, hS] at h
          obtain ⟨t, ht, hw⟩ := (exists_cons_mem_words_iff hts).2 ⟨s, hs, hw⟩
          exact ih h ht hw

section Explore

variable (nfa)

def root : List Nat := nfa.closure [nfa.start]

variable {nfa}

theorem mem_track_root {w : List Char} {T : List Nat} (h : nfa.track nfa.root w = some T)
    (z : Nat) : z ∈ T ↔ z < nfa.states.size ∧ w ∈ words nfa.states nfa.start z := by
  rw [mem_of_track h]
  simp only [List.mem_singleton, exists_eq_left]

theorem mem_accepts_of_track {w : List Char} {T : List Nat} (h : nfa.track nfa.root w = some T)
    (k : UInt32) :
    k ∈ T.filterMap (fun q => nfa.states[q]?.bind (·.accept)) ↔
      ∃ q s, w ∈ words nfa.states nfa.start q ∧ nfa.states[q]? = some s ∧ s.accept = some k := by
  rw [List.mem_filterMap]
  constructor
  · rintro ⟨q, hq, hk⟩
    obtain ⟨s, hs, hk⟩ := Option.bind_eq_some_iff.1 hk
    exact ⟨q, s, ((mem_track_root h q).1 hq).2, hs, hk⟩
  · rintro ⟨q, s, hw, hs, hk⟩
    have hlt := (Array.getElem?_eq_some_iff.1 hs).1
    refine ⟨q, (mem_track_root h q).2 ⟨hlt, hw⟩, ?_⟩
    rw [hs, Option.bind_some, hk]

theorem explore_induction {P : List Nat → Prop}
    (hstep : ∀ qs, P qs → ∀ T ∈ nfa.targets qs, P T) {bound i : Nat}
    {sets : Numbering (List Nat)} (h : ∀ k ∈ sets.keys, P k) :
    ∀ k ∈ (nfa.explore bound i sets).keys, P k := by
  fun_induction explore nfa bound i sets with
  | case1 => exact h
  | case2 i sets hi qs hqs ih =>
      apply ih
      intro k hk
      rcases (Numbering.mem_keys_addAll _).1 hk with hk | hk
      · exact h k hk
      · exact hstep qs (h qs (Array.mem_of_getElem? hqs)) k hk
  | case3 => exact h

theorem subsets_induction {P : List Nat → Prop} (hroot : P nfa.root)
    (hstep : ∀ qs, P qs → ∀ T ∈ nfa.targets qs, P T) : ∀ k ∈ nfa.subsets.keys, P k := by
  refine explore_induction hstep fun k hk => ?_
  rw [Numbering.mem_keys_ofList, List.mem_singleton] at hk
  rwa [hk]

theorem sublist_of_mem_targets {qs T : List Nat} (h : T ∈ nfa.targets qs) :
    T.Sublist (List.range nfa.states.size) := by
  obtain ⟨c, hc⟩ := mem_targets.1 h
  obtain ⟨ts, rfl, -, -⟩ := get?_moves_eq_some hc
  exact closure_sublist ts

theorem size_keys_le {sets : Numbering (List Nat)}
    (h : ∀ k ∈ sets.keys, k.Sublist (List.range nfa.states.size)) :
    sets.keys.size ≤ Nat.pow 2 nfa.states.size := by
  have hsub : sets.keys.toList ⊆ (List.range nfa.states.size).sublists := by
    intro k hk
    exact List.mem_sublists.2 (h k (Array.mem_toList_iff.1 hk))
  have hle := (sets.nodup_keys.subperm hsub).length_le
  rwa [Array.length_toList, List.length_sublists, List.length_range] at hle

/-- Where the walk ends, the sets are numbered in the order in which they are met when the moves of
all sets are listed one after the other. -/
theorem explore_eq {i : Nat} {sets : Numbering (List Nat)} (hi : i ≤ sets.keys.size)
    (hsub : ∀ k ∈ sets.keys, k.Sublist (List.range nfa.states.size))
    (h : sets = .ofList (nfa.root :: (sets.keys.toList.take i).flatMap nfa.targets)) :
    nfa.explore (Nat.pow 2 nfa.states.size) i sets =
      .ofList (nfa.root ::
        (nfa.explore (Nat.pow 2 nfa.states.size) i sets).keys.toList.flatMap nfa.targets) := by
  have hdone {i : Nat} {sets : Numbering (List Nat)} (hi : sets.keys.size ≤ i)
      (h : sets = .ofList (nfa.root :: (sets.keys.toList.take i).flatMap nfa.targets)) :
      sets = .ofList (nfa.root :: sets.keys.toList.flatMap nfa.targets) := by
    rwa [List.take_of_length_le (by simpa using hi)] at h
  fun_induction explore nfa (Nat.pow 2 nfa.states.size) i sets with
  | case1 i sets _ hnone => exact hdone (Array.getElem?_eq_none_iff.1 hnone) h
  | case2 i sets hlt qs hqs ih =>
      have hi' : i < sets.keys.size := (Array.getElem?_eq_some_iff.1 hqs).1
      have hpre := sets.prefix_addAll (nfa.targets qs)
      have hlen := hpre.length_le
      rw [Array.length_toList, Array.length_toList] at hlen
      apply ih
      · exact Nat.succ_le_of_lt (hi'.trans_le hlen)
      · intro k hk
        rcases (Numbering.mem_keys_addAll _).1 hk with hk | hk
        · exact hsub k hk
        · exact sublist_of_mem_targets hk
      · have htake : (sets.addAll (nfa.targets qs)).keys.toList.take (i + 1) =
            sets.keys.toList.take i ++ [qs] := by
          obtain ⟨more, hmore⟩ := hpre
          rw [← hmore, List.take_append_of_le_length (by rwa [Array.length_toList]),
            List.take_add_one,
            Array.getElem?_toList, hqs]
          rfl
        change sets.addAll (nfa.targets qs) =
          .ofList (nfa.root ::
            ((sets.addAll (nfa.targets qs)).keys.toList.take (i + 1)).flatMap nfa.targets)
        rw [htake, List.flatMap_append, List.flatMap_singleton, ← List.cons_append,
          Numbering.ofList, Numbering.addAll_append, ← Numbering.ofList, ← h]
  | case3 i sets hge => exact hdone ((size_keys_le hsub).trans (Nat.not_lt.1 hge)) h

theorem subsets_eq :
    nfa.subsets = .ofList (nfa.root :: nfa.subsets.keys.toList.flatMap nfa.targets) := by
  apply explore_eq (Nat.zero_le _)
  · intro k hk
    rw [Numbering.mem_keys_ofList, List.mem_singleton] at hk
    rw [hk]
    exact closure_sublist _
  · rw [List.take_zero, List.flatMap_nil, root]

theorem getElem?_subsets_zero : nfa.subsets.keys[0]? = some nfa.root := by
  rw [subsets_eq]
  exact Numbering.getElem?_ofList_zero _ _

theorem mem_subsets_of_targets {qs T : List Nat} (hqs : qs ∈ nfa.subsets.keys)
    (hT : T ∈ nfa.targets qs) : T ∈ nfa.subsets.keys := by
  rw [subsets_eq, Numbering.mem_keys_ofList]
  exact List.mem_cons_of_mem _ (List.mem_flatMap.2 ⟨qs, Array.mem_toList_iff.2 hqs, hT⟩)

end Explore

section Determinize

def stateOf (nfa : Nfa) (qs : List Nat) : Dfa.State :=
  ⟨(nfa.moves qs).map nfa.subsets.idOf, (nfa.acceptOf qs).getD noRule⟩

theorem getElem?_determinize {i : Nat} {qs : List Nat} (h : nfa.subsets.keys[i]? = some qs) :
    nfa.determinize.states[i]? = some (nfa.stateOf qs) := by
  rw [determinize, Array.getElem?_map, h]
  rfl

theorem size_determinize : nfa.determinize.states.size = nfa.subsets.keys.size := by
  rw [determinize, Array.size_map]

theorem size_determinize_pos : 0 < nfa.determinize.states.size :=
  (Array.getElem?_eq_some_iff.1 (getElem?_determinize getElem?_subsets_zero)).1

theorem next_determinize {i : Nat} {qs : List Nat} (h : nfa.subsets.keys[i]? = some qs)
    (c : Char) :
    nfa.determinize.automaton.next i c = ((nfa.moves qs).get? c).map nfa.subsets.idOf := by
  rw [Dfa.next_automaton, getElem?_determinize h, Option.bind_some, stateOf, Row.get?_map]

theorem getElem?_idOf_of_get? {i : Nat} {qs T : List Nat} {c : Char}
    (h : nfa.subsets.keys[i]? = some qs) (hT : (nfa.moves qs).get? c = some T) :
    nfa.subsets.keys[nfa.subsets.idOf T]? = some T :=
  nfa.subsets.getElem?_idOf
    (mem_subsets_of_targets (Array.mem_of_getElem? h) (mem_targets.2 ⟨c, hT⟩))

/-- The states stand for the sets that words lead to. -/
theorem follow_determinize {i : Nat} {qs : List Nat} (h : nfa.subsets.keys[i]? = some qs)
    (w : List Char) :
    nfa.determinize.automaton.follow i w = (nfa.track qs w).map nfa.subsets.idOf := by
  induction w generalizing i qs with
  | nil => rw [Automaton.follow, track, Option.map_some, nfa.subsets.idOf_eq h]
  | cons c w ih =>
      rw [Automaton.follow, track, next_determinize h]
      cases hT : (nfa.moves qs).get? c with
      | none => rfl
      | some T => exact ih (getElem?_idOf_of_get? h hT)

theorem getElem?_idOf_of_track {i : Nat} {qs T : List Nat} {w : List Char}
    (h : nfa.subsets.keys[i]? = some qs) (hT : nfa.track qs w = some T) :
    nfa.subsets.keys[nfa.subsets.idOf T]? = some T := by
  induction w generalizing i qs with
  | nil =>
      cases hT
      rwa [nfa.subsets.idOf_eq h]
  | cons c w ih =>
      obtain ⟨S, hS, hT⟩ := Option.bind_eq_some_iff.1 hT
      exact ih (getElem?_idOf_of_get? h hS) hT

theorem exists_moves_of_next {p j : Nat} {c : Char}
    (h : nfa.determinize.automaton.next p c = some j) :
    ∃ qs T, nfa.subsets.keys[p]? = some qs ∧ (nfa.moves qs).get? c = some T ∧
      nfa.subsets.keys[j]? = some T := by
  cases hp : nfa.subsets.keys[p]? with
  | none =>
      rw [Dfa.next_automaton, determinize, Array.getElem?_map, hp] at h
      cases h
  | some qs =>
      rw [next_determinize hp] at h
      obtain ⟨T, hT, rfl⟩ := Option.map_eq_some_iff.1 h
      exact ⟨qs, T, rfl, hT, getElem?_idOf_of_get? hp hT⟩

theorem inRange_determinize : nfa.determinize.automaton.InRange := by
  intro q c r hr
  obtain ⟨-, T, -, -, hT⟩ := exists_moves_of_next hr
  rw [Dfa.size_automaton, size_determinize]
  exact (Array.getElem?_eq_some_iff.1 hT).1

theorem exists_follow_determinize {q : Nat} (h : q < nfa.determinize.states.size) :
    ∃ w, nfa.determinize.automaton.follow 0 w = some q := by
  have hall : ∀ k ∈ nfa.subsets.keys, ∃ w, nfa.track nfa.root w = some k := by
    refine subsets_induction ⟨[], rfl⟩ ?_
    rintro qs ⟨w, hw⟩ T hT
    obtain ⟨c, hc⟩ := mem_targets.1 hT
    refine ⟨w ++ [c], ?_⟩
    rw [track_concat, hw, Option.bind_some, hc]
  rw [size_determinize] at h
  obtain ⟨w, hw⟩ := hall _ (Array.getElem_mem h)
  refine ⟨w, ?_⟩
  rw [follow_determinize getElem?_subsets_zero, hw, Option.map_some,
    nfa.subsets.idOf_eq (Array.getElem?_eq_getElem h)]

end Determinize

end Munch.Nfa
