import Mathlib.Data.List.Shortlex
import Munch.Proofs.Subset

namespace Munch

abbrev ShorterOrLess : List Char → List Char → Prop := List.Shortlex (· < ·)

theorem shorterOrLess_wf : WellFounded ShorterOrLess :=
  List.Shortlex.wf (InvImage.wf Char.toNat Nat.lt_wfRel.wf)

theorem ShorterOrLess.concat {u v : List Char} (h : ShorterOrLess u v) (c d : Char) :
    ShorterOrLess (u ++ [c]) (v ++ [d]) := by
  rcases List.shortlex_def.1 h with hlt | ⟨heq, hlex⟩
  · apply List.Shortlex.of_length_lt
    rw [List.length_append, List.length_append]
    exact Nat.add_lt_add_right hlt 1
  · apply List.Shortlex.of_lex
    · rw [List.length_append, List.length_append, heq]
      rfl
    · clear h
      induction hlex with
      | nil => cases heq
      | cons _ ih => exact .cons (ih (Nat.succ.inj heq))
      | rel hlt => exact .rel hlt

namespace Automaton

variable (a : Automaton)

/-- In the list of all moves, by state and then by symbol, the states other than the initial one
are met in the order of their numbers. -/
def FirstSeen : Prop :=
  ∀ p c i j, a.next p c = some j → 0 < i → i < j →
    ∃ p' c', a.next p' c' = some i ∧ (p' < p ∨ p' = p ∧ c' < c)

/-- For every word to a state there is a smaller one to each state with a smaller number. -/
def ShortlexOrdered : Prop :=
  ∀ v i j, a.follow 0 v = some j → i < j → ∃ u, a.follow 0 u = some i ∧ ShorterOrLess u v

variable {a}

theorem FirstSeen.shortlexOrdered (h : a.FirstSeen) : a.ShortlexOrdered := by
  intro v
  induction v using List.reverseRecOn with
  | nil =>
      intro i j hj hij
      cases hj
      exact absurd hij (Nat.not_lt_zero i)
  | append_singleton v c ih =>
      intro i j hj hij
      rw [follow_concat] at hj
      obtain ⟨p, hp, hj⟩ := Option.bind_eq_some_iff.1 hj
      rcases Nat.eq_zero_or_pos i with rfl | hi
      · refine ⟨[], rfl, List.Shortlex.of_length_lt ?_⟩
        rw [List.length_append]
        exact Nat.succ_pos _
      · obtain ⟨p', c', hi, hlt | ⟨rfl, hlt⟩⟩ := h p c i j hj hi hij
        · obtain ⟨u, hu, huv⟩ := ih p' p hp hlt
          refine ⟨u ++ [c'], ?_, huv.concat c' c⟩
          rw [follow_concat, hu, Option.bind_some, hi]
        · refine ⟨v ++ [c'], ?_, ?_⟩
          · rw [follow_concat, hp, Option.bind_some, hi]
          · exact List.Shortlex.append_left ((List.shortlex_singleton_iff c' c).2 hlt) v

end Automaton

namespace Nfa

variable {nfa : Nfa}

theorem next_determinize_of_targets {p i : Nat} {qs S : List Nat} {c : Char}
    (hp : nfa.subsets.keys[p]? = some qs) (hi : nfa.subsets.keys[i]? = some S)
    (hS : (nfa.moves qs).get? c = some S) : nfa.determinize.automaton.next p c = some i := by
  rw [next_determinize hp, hS, Option.map_some, nfa.subsets.idOf_eq hi]

theorem firstSeen_determinize : nfa.determinize.automaton.FirstSeen := by
  intro p c i j hj hpos hij
  obtain ⟨qs, T, hp, hT, hj⟩ := exists_moves_of_next hj
  obtain ⟨hlt, -⟩ := Array.getElem?_eq_some_iff.1 hj
  obtain ⟨S, hi⟩ : ∃ S, nfa.subsets.keys[i]? = some S :=
    ⟨_, Array.getElem?_eq_getElem (hij.trans hlt)⟩
  -- The list that gives the numbers, cut at the place of this move.
  obtain ⟨es, es', hes⟩ := List.append_of_mem (Row.mem_entries_iff.2 hT)
  obtain ⟨before, after, hcut, hbefore⟩ : ∃ before after, nfa.subsets.keys.toList =
      before ++ qs :: after ∧ before = nfa.subsets.keys.toList.take p :=
    ⟨_, _, (Numbering.take_append_cons_drop (by rwa [Array.getElem?_toList])).symm, rfl⟩
  have heq : nfa.subsets = .ofList
      ((nfa.root :: (before.flatMap nfa.targets ++ es.map (·.2))) ++
        T :: (es'.map (·.2) ++ after.flatMap nfa.targets)) := by
    refine subsets_eq.trans ?_
    rw [hcut, List.flatMap_append, List.flatMap_cons, targets, hes, List.map_append,
      List.map_cons]
    simp only [List.cons_append, List.append_assoc]
  rcases List.mem_cons.1 (Numbering.mem_of_lt heq hj hi hij) with rfl | hS
  · exact absurd (nfa.subsets.key_unique getElem?_subsets_zero hi) hpos.ne
  rcases List.mem_append.1 hS with hS | hS
  · obtain ⟨qs', hqs', hS⟩ := List.mem_flatMap.1 hS
    obtain ⟨c', hc'⟩ := mem_targets.1 hS
    rw [hbefore] at hqs'
    obtain ⟨p', hp'⟩ := List.mem_iff_getElem?.1 hqs'
    rw [List.getElem?_take] at hp'
    split at hp'
    case isTrue hlt =>
      rw [Array.getElem?_toList] at hp'
      exact ⟨p', c', next_determinize_of_targets hp' hi hc', .inl hlt⟩
    case isFalse => cases hp'
  · obtain ⟨⟨c', S'⟩, he, rfl⟩ := List.mem_map.1 hS
    have hasc := (nfa.moves qs).ascending
    rw [hes] at hasc
    have hc' : (c', S') ∈ (nfa.moves qs).entries := by
      rw [hes]
      exact List.mem_append_left _ he
    refine ⟨p, c', next_determinize_of_targets hp hi (Row.mem_entries_iff.1 hc'), .inr ⟨rfl, ?_⟩⟩
    exact (List.pairwise_append.1 hasc).2.2 _ he _ List.mem_cons_self

theorem shortlexOrdered_determinize : nfa.determinize.automaton.ShortlexOrdered :=
  firstSeen_determinize.shortlexOrdered

end Nfa

end Munch
