import Mathlib.Logic.Relation
import Munch.Proofs.Walk

namespace Munch.Nfa

open Relation

variable (nfa : Nfa)

def Silent : Nat → Nat → Prop := ReflTransGen fun q r => r ∈ nfa.epsilonOf q

def Marked (seen : Array Bool) (q : Nat) : Prop := seen[q]? = some true

theorem marked_set {seen : Array Bool} {q r : Nat} (hq : q < seen.size) :
    Marked (seen.set q true hq) r ↔ r = q ∨ Marked seen r := by
  rw [Marked, Array.getElem?_set]
  by_cases h : q = r
  · simp [h]
  · simp [h, Ne.symm h, Marked]

variable {nfa}

theorem marked_reach_of_marked {pending : List Nat} {seen : Array Bool} {r : Nat}
    (hr : Marked seen r) : Marked (nfa.reach pending seen) r := by
  fun_induction reach nfa pending seen with
  | case1 => exact hr
  | case2 seen q pending h ih => exact ih ((marked_set h.1).2 (.inr hr))
  | case3 seen q pending h ih => exact ih hr

theorem marked_of_not_fresh {seen : Array Bool} {q : Nat} (hq : q < seen.size)
    (h : ¬ ∃ hq : q < seen.size, seen[q] = false) : Marked seen q := by
  rw [Marked, Array.getElem?_eq_getElem hq]
  cases hb : seen[q] with
  | false => exact absurd ⟨hq, hb⟩ h
  | true => rfl

theorem marked_reach_of_pending {pending : List Nat} {seen : Array Bool} {r : Nat}
    (hr : r ∈ pending) (hlt : r < seen.size) : Marked (nfa.reach pending seen) r := by
  fun_induction reach nfa pending seen with
  | case1 => simp at hr
  | case2 seen q pending h ih =>
      rcases List.mem_cons.1 hr with rfl | hr
      · exact marked_reach_of_marked ((marked_set h.1).2 (.inl rfl))
      · exact ih (List.mem_append_right _ hr) (by rwa [Array.size_set])
  | case3 seen q pending h ih =>
      rcases List.mem_cons.1 hr with rfl | hr
      · exact marked_reach_of_marked (marked_of_not_fresh hlt h)
      · exact ih hr hlt

/-- What a marked state moves to is marked or pending. This holds at every step, and in the end
nothing is pending. -/
theorem marked_reach_of_move {pending : List Nat} {seen : Array Bool}
    (hinv : ∀ q, Marked seen q → ∀ r ∈ nfa.epsilonOf q, r < seen.size →
      Marked seen r ∨ r ∈ pending) {q r : Nat} (hq : Marked (nfa.reach pending seen) q)
    (hr : r ∈ nfa.epsilonOf q) (hlt : r < seen.size) : Marked (nfa.reach pending seen) r := by
  fun_induction reach nfa pending seen with
  | case1 seen => exact (hinv q hq r hr hlt).resolve_right List.not_mem_nil
  | case2 seen p pending h ih =>
      refine ih (fun q' hq' r' hr' hlt' => ?_) hq (by rwa [Array.size_set])
      rw [Array.size_set] at hlt'
      rw [marked_set]
      rcases (marked_set h.1).1 hq' with rfl | hq'
      · exact .inr (List.mem_append_left _ hr')
      · rcases hinv q' hq' r' hr' hlt' with hm | hp
        · exact .inl (.inr hm)
        · rcases List.mem_cons.1 hp with rfl | hp
          · exact .inl (.inl rfl)
          · exact .inr (List.mem_append_right _ hp)
  | case3 seen p pending h ih =>
      refine ih (fun q' hq' r' hr' hlt' => ?_) hq hlt
      rcases hinv q' hq' r' hr' hlt' with hm | hp
      · exact .inl hm
      · rcases List.mem_cons.1 hp with rfl | hp
        · exact .inl (marked_of_not_fresh hlt' h)
        · exact .inr hp

theorem silent_of_marked_reach {pending : List Nat} {seen : Array Bool} {r : Nat}
    (hr : Marked (nfa.reach pending seen) r) : Marked seen r ∨ ∃ p ∈ pending, nfa.Silent p r := by
  fun_induction reach nfa pending seen with
  | case1 => exact .inl hr
  | case2 seen q pending h ih =>
      rcases ih hr with hm | ⟨p, hp, hpr⟩
      · rcases (marked_set h.1).1 hm with rfl | hm
        · exact .inr ⟨r, List.mem_cons_self, .refl⟩
        · exact .inl hm
      · rcases List.mem_append.1 hp with hp | hp
        · exact .inr ⟨q, List.mem_cons_self, .head hp hpr⟩
        · exact .inr ⟨p, List.mem_cons_of_mem q hp, hpr⟩
  | case3 seen q pending h ih =>
      rcases ih hr with hm | ⟨p, hp, hpr⟩
      · exact .inl hm
      · exact .inr ⟨p, List.mem_cons_of_mem q hp, hpr⟩

theorem lt_size_of_mem_epsilonOf {q r : Nat} (h : r ∈ nfa.epsilonOf q) : q < nfa.states.size := by
  by_contra hn
  rw [epsilonOf, Array.getElem?_eq_none (Nat.not_lt.1 hn)] at h
  simp at h

theorem mem_closure {seeds : List Nat} {r : Nat} :
    r ∈ nfa.closure seeds ↔ r < nfa.states.size ∧ ∃ q ∈ seeds, nfa.Silent q r := by
  have hnone (q : Nat) : ¬ Marked (Array.replicate nfa.states.size false) q := by
    rw [Marked, Array.getElem?_replicate]
    split <;> simp
  have hmem : r ∈ nfa.closure seeds ↔ r < nfa.states.size ∧
      Marked (nfa.reach seeds (Array.replicate nfa.states.size false)) r := by
    rw [closure, List.mem_filter, List.mem_range, Array.getD_eq_getD_getElem?, Marked]
    cases (nfa.reach seeds (Array.replicate nfa.states.size false))[r]? <;> simp
  rw [hmem]
  clear hmem
  constructor
  · rintro ⟨hlt, hm⟩
    exact ⟨hlt, (silent_of_marked_reach hm).resolve_left (hnone r)⟩
  · rintro ⟨hlt, q, hq, hqr⟩
    refine ⟨hlt, ?_⟩
    -- Backwards along the moves, since all states on the way but the last exist anyway.
    induction hqr with
    | refl => exact marked_reach_of_pending hq (by simpa using hlt)
    | @tail p r hqp hpr ih =>
        have hp := lt_size_of_mem_epsilonOf hpr
        exact marked_reach_of_move (fun q' hq' => absurd hq' (hnone q')) (ih hp) hpr
          (by simpa using hlt)

theorem closure_sublist (seeds : List Nat) :
    (nfa.closure seeds).Sublist (List.range nfa.states.size) := List.filter_sublist

section Words

open Nfa.Graph

theorem mem_epsilonOf {q r : Nat} :
    r ∈ nfa.epsilonOf q ↔ ∃ s, nfa.states[q]? = some s ∧ r ∈ s.epsilon := by
  rw [epsilonOf]
  cases nfa.states[q]? <;> simp

theorem mem_edgesOf {q : Nat} {e : Char × Nat} :
    e ∈ nfa.edgesOf q ↔ ∃ s, nfa.states[q]? = some s ∧ e ∈ s.edges := by
  rw [edgesOf]
  cases nfa.states[q]? <;> simp

theorem Silent.words_le {q r : Nat} (h : nfa.Silent q r) (z : Nat) :
    words nfa.states r z ≤ words nfa.states q z := by
  induction h using ReflTransGen.head_induction_on with
  | refl => exact le_rfl
  | head hqp _ ih =>
      obtain ⟨s, hs, hp⟩ := mem_epsilonOf.1 hqp
      exact ih.trans (words_le_of_epsilon hs hp z)

/-- A walk is silent up to its first symbol, or to its end. -/
theorem silent_of_walk {n q z : Nat} {w : List Char} (h : Walk nfa.states n q w z) :
    (w = [] ∧ nfa.Silent q z) ∨
      ∃ c v p r, w = c :: v ∧ nfa.Silent q p ∧ (c, r) ∈ nfa.edgesOf p ∧
        v ∈ words nfa.states r z := by
  induction h with
  | stop n q => exact .inl ⟨rfl, .refl⟩
  | epsilon hq hr _ ih =>
      have hmove := mem_epsilonOf.2 ⟨_, hq, hr⟩
      rcases ih with ⟨hw, hrz⟩ | ⟨c, v, p, t, hw, hrp, ht, hv⟩
      · exact .inl ⟨hw, .head hmove hrz⟩
      · exact .inr ⟨c, v, p, t, hw, .head hmove hrp, ht, hv⟩
  | edge hq hr h => exact .inr ⟨_, _, _, _, rfl, .refl, mem_edgesOf.2 ⟨_, hq, hr⟩, _, h⟩

theorem nil_mem_words_iff {q z : Nat} : [] ∈ words nfa.states q z ↔ nfa.Silent q z := by
  constructor
  · rintro ⟨n, h⟩
    rcases silent_of_walk h with ⟨-, h⟩ | ⟨c, v, p, r, h, -⟩
    · exact h
    · cases h
  · intro h
    exact h.words_le z (one_le_words z rfl)

theorem cons_mem_words_iff {c : Char} {w : List Char} {q z : Nat} :
    c :: w ∈ words nfa.states q z ↔
      ∃ p r, nfa.Silent q p ∧ (c, r) ∈ nfa.edgesOf p ∧ w ∈ words nfa.states r z := by
  constructor
  · rintro ⟨n, h⟩
    rcases silent_of_walk h with ⟨h, -⟩ | ⟨d, v, p, r, he, hp, hr, hv⟩
    · cases h
    · cases he
      exact ⟨p, r, hp, hr, hv⟩
  · rintro ⟨p, r, hp, hr, n, h⟩
    obtain ⟨s, hs, hr⟩ := mem_edgesOf.1 hr
    exact hp.words_le z ⟨n + 1, .edge hs hr h⟩

end Words

end Munch.Nfa
