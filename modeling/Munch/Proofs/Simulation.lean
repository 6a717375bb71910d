import Mathlib.Order.Bounds.Basic
import Munch.Proofs.Subset

namespace Munch.Nfa

open Nfa.Graph

structure InRange (nfa : Nfa) : Prop where
  start : nfa.start < nfa.states.size
  epsilon : ∀ s ∈ nfa.states, ∀ r ∈ s.epsilon, r < nfa.states.size
  edge : ∀ s ∈ nfa.states, ∀ e ∈ s.edges, e.2 < nfa.states.size

def reached (nfa : Nfa) (w : List Char) : Set Nat := {q | w ∈ words nfa.states nfa.start q}

def rulesReached (nfa : Nfa) (w : List Char) : Set UInt32 :=
  {k | ∃ q s, q ∈ nfa.reached w ∧ nfa.states[q]? = some s ∧ s.accept = some k}

variable {nfa : Nfa}

namespace InRange

variable (h : nfa.InRange)

include h

theorem strays_eq_false (qs : List Nat) : nfa.strays qs = false := by
  rw [strays, List.any_eq_false]
  intro q _
  rw [Bool.or_eq_true, List.any_eq_true, List.any_eq_true, not_or]
  constructor
  · rintro ⟨r, hr, hle⟩
    obtain ⟨s, hs, hr⟩ := mem_epsilonOf.1 hr
    exact absurd (of_decide_eq_true hle)
      (Nat.not_le.2 (h.epsilon s (Array.mem_of_getElem? hs) r hr))
  · rintro ⟨e, he, hle⟩
    obtain ⟨s, hs, he⟩ := mem_edgesOf.1 he
    exact absurd (of_decide_eq_true hle)
      (Nat.not_le.2 (h.edge s (Array.mem_of_getElem? hs) e he))

theorem determinize?_eq : nfa.determinize? = some nfa.determinize := by
  have hstart : decide (nfa.states.size ≤ nfa.start) = false :=
    decide_eq_false (Nat.not_le.2 h.start)
  have hstrays : nfa.subsets.keys.any nfa.strays = false :=
    Array.any_eq_false'.2 fun qs _ => by rw [h.strays_eq_false, Bool.not_eq_true]
  rw [determinize?, hstart, hstrays]
  rfl

/-- A set that can be moved to has a member, since the states that the moves lead to exist. -/
theorem exists_mem_of_track {w : List Char} {T : List Nat} (hT : nfa.track nfa.root w = some T) :
    ∃ q, q ∈ T := by
  rcases List.eq_nil_or_concat' w with rfl | ⟨u, c, rfl⟩
  · cases hT
    exact ⟨nfa.start, mem_closure.2 ⟨h.start, _, List.mem_singleton_self _, .refl⟩⟩
  · rw [track_concat] at hT
    obtain ⟨S, -, hT⟩ := Option.bind_eq_some_iff.1 hT
    obtain ⟨ts, rfl, hne, hts⟩ := get?_moves_eq_some hT
    obtain ⟨t, ht⟩ := List.exists_mem_of_ne_nil ts hne
    obtain ⟨q, -, he⟩ := (hts t).1 ht
    obtain ⟨s, hs, he⟩ := mem_edgesOf.1 he
    have hlt := h.edge s (Array.mem_of_getElem? hs) _ he
    exact ⟨t, mem_closure.2 ⟨hlt, t, ht, .refl⟩⟩

theorem reached_nonempty {w : List Char} {T : List Nat} (hT : nfa.track nfa.root w = some T) :
    (nfa.reached w).Nonempty := by
  obtain ⟨q, hq⟩ := h.exists_mem_of_track hT
  exact ⟨q, ((mem_track_root hT q).1 hq).2⟩

end InRange

theorem reached_eq_empty {w : List Char} (hT : nfa.track nfa.root w = none) :
    nfa.reached w = ∅ :=
  Set.eq_empty_of_forall_notMem fun q =>
    not_mem_words_of_track hT (List.mem_singleton_self nfa.start) q

theorem isLeast_rulesReached {w : List Char} {T : List Nat} {k : UInt32}
    (hT : nfa.track nfa.root w = some T) (hk : nfa.acceptOf T = some k) :
    IsLeast (nfa.rulesReached w) k := by
  rw [acceptOf, List.min?_eq_some_iff] at hk
  obtain ⟨hmem, hle⟩ := hk
  exact ⟨(mem_accepts_of_track hT k).1 hmem, fun l hl => hle l ((mem_accepts_of_track hT l).2 hl)⟩

theorem rulesReached_eq_empty {w : List Char} {T : List Nat}
    (hT : nfa.track nfa.root w = some T) (hnone : nfa.acceptOf T = none) :
    nfa.rulesReached w = ∅ := by
  rw [acceptOf, List.min?_eq_none_iff] at hnone
  apply Set.eq_empty_of_forall_notMem
  intro k hk
  have hmem := (mem_accepts_of_track hT k).2 hk
  rw [hnone] at hmem
  exact List.not_mem_nil hmem

theorem ne_noRule_of_mem_rulesReached (h : ∀ s ∈ nfa.states, s.accept ≠ some noRule)
    {w : List Char} {k : UInt32} (hk : k ∈ nfa.rulesReached w) : k ≠ noRule := by
  rintro rfl
  obtain ⟨q, s, -, hs, hk⟩ := hk
  exact h s (Array.mem_of_getElem? hs) hk

/-- The deterministic automaton follows a word just if some walk does, and to the first of the rules
that the walks lead to. -/
theorem determinize_simulates (h : nfa.InRange)
    (hrules : ∀ s ∈ nfa.states, s.accept ≠ some noRule) :
    ∃ d, nfa.determinize? = some d ∧ d.automaton.InRange ∧ ∀ w,
      (nfa.reached w = ∅ ∧ d.automaton.follow? 0 w = .ok none) ∨
        (nfa.reached w).Nonempty ∧ ∃ i s, d.automaton.follow? 0 w = .ok (some i) ∧
          d.states[i]? = some s ∧
          (IsLeast (nfa.rulesReached w) s.rule ∧ s.isAccepting = true ∨
            nfa.rulesReached w = ∅ ∧ s.rule = noRule) := by
  refine ⟨nfa.determinize, h.determinize?_eq, inRange_determinize, fun w => ?_⟩
  rw [Automaton.follow?_eq inRange_determinize (Dfa.size_automaton _ ▸ size_determinize_pos),
    follow_determinize getElem?_subsets_zero]
  cases hT : nfa.track nfa.root w with
  | none => exact .inl ⟨reached_eq_empty hT, rfl⟩
  | some T =>
      have hstate := getElem?_determinize (getElem?_idOf_of_track getElem?_subsets_zero hT)
      refine .inr ⟨h.reached_nonempty hT, _, _, rfl, hstate, ?_⟩
      rw [stateOf]
      cases hk : nfa.acceptOf T with
      | none => exact .inr ⟨rulesReached_eq_empty hT hk, rfl⟩
      | some k =>
          have hleast := isLeast_rulesReached hT hk
          exact .inl ⟨hleast, decide_eq_true (ne_noRule_of_mem_rulesReached hrules hleast.1)⟩

def circle : Nfa :=
  ⟨#[{ edges := [('a', 0), ('a', 0)], epsilon := [1] },
    { edges := [('a', 2)], epsilon := [0], accept := some 5 },
    { edges := [('b', 2)], accept := some 3 }], 0⟩

theorem determinize_simulates_circle :
    circle.InRange ∧ ∃ d i s, circle.determinize? = some d ∧
      d.automaton.follow? 0 ['a'] = .ok (some i) ∧ d.states[i]? = some s ∧ s.rule = 3 := by
  have hrange : circle.InRange := ⟨by decide, by decide, by decide⟩
  obtain ⟨d, hd, -, hwords⟩ := determinize_simulates hrange (by decide)
  have hreached : 2 ∈ circle.reached ['a'] :=
    ⟨2, .epsilon rfl List.mem_cons_self (.edge rfl List.mem_cons_self (.stop 0 2))⟩
  have hrule : 3 ∈ circle.rulesReached ['a'] := ⟨2, _, hreached, rfl, rfl⟩
  refine ⟨hrange, d, ?_⟩
  rcases hwords ['a'] with ⟨hnone, -⟩ | ⟨-, i, s, hi, hs, ⟨hleast, -⟩ | ⟨hnone, -⟩⟩
  · rw [hnone] at hreached
    exact absurd hreached (Set.notMem_empty 2)
  · refine ⟨i, s, hd, hi, hs, UInt32.le_antisymm (hleast.2 hrule) ?_⟩
    obtain ⟨q, t, -, ht, hk⟩ := hleast.1
    have hall : ∀ t ∈ circle.states, t.accept.all (3 ≤ ·) = true := by decide
    have hle := hall t (Array.mem_of_getElem? ht)
    rw [hk] at hle
    exact of_decide_eq_true hle
  · rw [hnone] at hrule
    exact absurd hrule (Set.notMem_empty 3)

end Munch.Nfa
