import Munch.Proofs.Minimal

namespace Munch

namespace Dfa

/-- All states can be reached and told apart, and they are numbered by the smallest words that lead
to them. -/
structure Canonical (d : Dfa) : Prop where
  pos : 0 < d.states.size
  inRange : d.automaton.InRange
  reached : ∀ q < d.states.size, ∃ w, d.automaton.follow 0 w = some q
  distinct : ∀ q < d.states.size, ∀ r < d.states.size, (∀ w, d.answer q w = d.answer r w) → q = r
  ordered : d.automaton.ShortlexOrdered

namespace Canonical

variable {d d' : Dfa}

theorem follow_lt (h : d.Canonical) {w : List Char} {q : Nat}
    (hq : d.automaton.follow 0 w = some q) : q < d.states.size :=
  Dfa.follow_lt h.inRange h.pos hq

theorem exists_follow (h : d.Canonical) (heq : ∀ w, d.answer 0 w = d'.answer 0 w)
    {w : List Char} {q : Nat}
    (hq : d.automaton.follow 0 w = some q) : ∃ r, d'.automaton.follow 0 w = some r := by
  have hsome := answer_isSome h.inRange h.pos hq
  rw [heq] at hsome
  cases hr : d'.automaton.follow 0 w with
  | none =>
      rw [answer, hr] at hsome
      cases hsome
  | some r => exact ⟨r, rfl⟩

theorem follow_eq_of_follow_eq (h' : d'.Canonical) (heq : ∀ w, d.answer 0 w = d'.answer 0 w)
    {u v : List Char} {q r r' : Nat} (hu : d.automaton.follow 0 u = some q)
    (hv : d.automaton.follow 0 v = some q) (hu' : d'.automaton.follow 0 u = some r)
    (hv' : d'.automaton.follow 0 v = some r') : r = r' := by
  refine h'.distinct r (h'.follow_lt hu') r' (h'.follow_lt hv') fun w => ?_
  calc
    d'.answer r w = d'.answer 0 (u ++ w) := (answer_append hu' w).symm
    _ = d.answer 0 (u ++ w) := (heq _).symm
    _ = d.answer q w := answer_append hu w
    _ = d.answer 0 (v ++ w) := (answer_append hv w).symm
    _ = d'.answer 0 (v ++ w) := heq _
    _ = d'.answer r' w := answer_append hv' w

theorem not_lt_of_smaller (h' : d'.Canonical)
    (heq : ∀ w, d.answer 0 w = d'.answer 0 w) {w : List Char}
    (ih : ∀ u, ShorterOrLess u w → ∀ q r, d.automaton.follow 0 u = some q →
      d'.automaton.follow 0 u = some r → q = r) {q r : Nat}
    (hq : d.automaton.follow 0 w = some q) (hr : d'.automaton.follow 0 w = some r) : ¬ q < r := by
  intro hlt
  obtain ⟨u, hu, huw⟩ := h'.ordered w q r hr hlt
  obtain ⟨p, hp⟩ := exists_follow h' (fun w => (heq w).symm) hu
  cases ih u huw p q hp hu
  exact hlt.ne (follow_eq_of_follow_eq h' heq hp hq hu hr)

theorem follow_eq (h : d.Canonical) (h' : d'.Canonical)
    (heq : ∀ w, d.answer 0 w = d'.answer 0 w) (w : List Char) :
    d.automaton.follow 0 w = d'.automaton.follow 0 w := by
  have hsame : ∀ q r, d.automaton.follow 0 w = some q → d'.automaton.follow 0 w = some r →
      q = r := by
    induction w using shorterOrLess_wf.induction with
    | h w ih =>
        intro q r hq hr
        rcases Nat.lt_trichotomy q r with hlt | rfl | hlt
        · exact absurd hlt (not_lt_of_smaller h' heq ih hq hr)
        · rfl
        · refine absurd hlt (not_lt_of_smaller h (fun w => (heq w).symm) ?_ hr hq)
          exact fun u hu r q hr hq => (ih u hu q r hq hr).symm
  cases hq : d.automaton.follow 0 w with
  | some q =>
      obtain ⟨r, hr⟩ := exists_follow h heq hq
      rw [hr, hsame q r hq hr]
  | none =>
      cases hr : d'.automaton.follow 0 w with
      | none => rfl
      | some r =>
          obtain ⟨q, hq'⟩ := exists_follow h' (fun w => (heq w).symm) hr
          rw [hq] at hq'
          cases hq'

theorem size_le (h : d.Canonical) (h' : d'.Canonical)
    (heq : ∀ w, d.answer 0 w = d'.answer 0 w) : d.states.size ≤ d'.states.size := by
  by_contra hlt
  obtain ⟨w, hw⟩ := h.reached d'.states.size (Nat.not_le.1 hlt)
  rw [follow_eq h h' heq] at hw
  exact absurd (h'.follow_lt hw) (Nat.lt_irrefl _)

/-- A canonical automaton is determined by the ends of the words. -/
theorem unique (h : d.Canonical) (h' : d'.Canonical)
    (heq : ∀ w, d.answer 0 w = d'.answer 0 w) : d = d' := by
  have hsize : d.states.size = d'.states.size :=
    Nat.le_antisymm (size_le h h' heq) (size_le h' h fun w => (heq w).symm)
  have hstates : d.states = d'.states := by
    refine Array.ext hsize fun q hq hq' => ?_
    obtain ⟨w, hw⟩ := h.reached q hq
    have hw' := hw
    rw [follow_eq h h' heq] at hw'
    have hnext : d.states[q].next = d'.states[q].next := by
      refine Row.ext_get? fun c => ?_
      have hc := follow_eq h h' heq (w ++ [c])
      rw [Automaton.follow_concat, Automaton.follow_concat, hw, hw', Option.bind_some,
        Option.bind_some, next_automaton, next_automaton, Array.getElem?_eq_getElem hq,
        Array.getElem?_eq_getElem hq'] at hc
      exact hc
    have hrule : d.states[q].rule = d'.states[q].rule := by
      have hr := heq w
      rw [answer, answer, hw, hw', Option.bind_some, Option.bind_some,
        Array.getElem?_eq_getElem hq, Array.getElem?_eq_getElem hq'] at hr
      exact Option.some.inj hr
    cases hs : d.states[q]
    cases hs' : d'.states[q]
    rw [hs, hs'] at hnext hrule
    cases hnext
    cases hrule
    rfl
  cases d
  cases d'
  exact congrArg Dfa.mk hstates

end Canonical

theorem canonical_minimize {d : Dfa} (hpos : 0 < d.states.size) (hrange : d.automaton.InRange)
    (hreached : ∀ q < d.states.size, ∃ w, d.automaton.follow 0 w = some q)
    (hordered : d.automaton.ShortlexOrdered) : d.minimize.Canonical where
  pos := by
    have hdense := (fair_stablePartition hrange).1.dense
    rw [(states_minimize hrange).1]
    exact (Nat.zero_le _).trans_lt (hdense.lt 0 hpos)
  inRange := inRange_minimize hrange
  reached b hb := by
    obtain ⟨q, hq, rfl⟩ := exists_of_lt_minimize hrange hb
    obtain ⟨w, hw⟩ := hreached q hq
    refine ⟨w, ?_⟩
    rw [follow_zero_minimize hrange hpos, hw, Option.map_some]
  distinct b hb b' hb' := eq_of_answer_minimize hrange hb hb'
  ordered := shortlexOrdered_minimize hrange hpos hordered

end Dfa

theorem Nfa.canonical_minimize_determinize (nfa : Nfa) : nfa.determinize.minimize.Canonical := by
  apply Dfa.canonical_minimize
  · exact size_determinize_pos
  · exact inRange_determinize
  · exact fun q => exists_follow_determinize
  · exact shortlexOrdered_determinize

end Munch
