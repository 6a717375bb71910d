import Munch.Proofs.Compiled
import Munch.Proofs.Merging
import Munch.Proofs.Simulation

namespace Munch

namespace Partition.Dense

variable {p : Partition} {n : Nat} (h : p.Dense n)

include h

theorem of_eq_self (hinj : ∀ q < n, ∀ r < n, p.of q = p.of r → q = r) {q : Nat} (hq : q < n) :
    p.of q = q := by
  induction q using Nat.strong_induction_on with
  | h q ih =>
      rcases Nat.lt_trichotomy (p.of q) q with hlt | heq | hgt
      · -- A smaller number is taken by the state that has it.
        exact hinj _ (hlt.trans hq) q hq (ih _ hlt (hlt.trans hq))
      · exact heq
      · obtain ⟨r, hr, hrq⟩ := h.first q hq q hgt
        rw [ih r hr (hr.trans hq)] at hrq
        exact absurd hrq hr.ne

theorem count_eq (hof : ∀ q < n, p.of q = q) : p.count = n := by
  apply Nat.le_antisymm
  · by_contra hlt
    obtain ⟨q, hq, hqn⟩ := h.full n (Nat.not_le.1 hlt)
    rw [hof q hq] at hqn
    exact absurd hqn hq.ne
  · by_contra hlt
    have hcount := h.lt p.count (Nat.not_le.1 hlt)
    rw [hof p.count (Nat.not_le.1 hlt)] at hcount
    exact absurd hcount (Nat.lt_irrefl _)

end Partition.Dense

namespace Dfa

def Reduced (d : Dfa) : Prop :=
  ∀ q < d.states.size, ∀ r < d.states.size, (∀ w, d.answer q w = d.answer r w) → q = r

variable {d : Dfa}

section Minimize

variable (hrange : d.automaton.InRange)

include hrange

theorem Reduced.of_eq_self (h : d.Reduced) {q : Nat} (hq : q < d.states.size) :
    d.stablePartition.of q = q := by
  refine (fair_stablePartition hrange).1.dense.of_eq_self (fun q hq r hr heq => ?_) hq
  exact h q hq r hr ((of_stablePartition_eq_iff hrange hq hr).1 heq)

theorem Reduced.leader_eq_self (h : d.Reduced) {q : Nat} (hq : q < d.stablePartition.count) :
    d.leader q = q := by
  obtain ⟨hlt, hof⟩ := leader_spec hrange hq
  rwa [h.of_eq_self hrange hlt] at hof

/-- What is reduced stays as it is, with the numbers of the states. -/
theorem Reduced.minimize_eq_self (h : d.Reduced) : d.minimize = d := by
  have hcount : d.stablePartition.count = d.states.size :=
    (fair_stablePartition hrange).1.dense.count_eq fun q => h.of_eq_self hrange
  obtain ⟨hsize, hget⟩ := states_minimize hrange
  rw [hcount] at hsize hget
  have hstates : d.minimize.states = d.states := by
    refine Array.ext hsize fun q hq' hq => ?_
    have hrow : d.states[q].next.map d.stablePartition.of = d.states[q].next := by
      apply Row.map_eq_self
      intro e he
      apply h.of_eq_self hrange
      exact inRange_automaton_iff.1 hrange _ (Array.getElem_mem hq) e he
    have hq' := hget q hq
    rw [h.leader_eq_self hrange (hcount ▸ hq), Array.getElem?_eq_getElem hq, Option.map_some,
      hrow] at hq'
    exact (Array.getElem?_eq_some_iff.1 hq').2
  exact congrArg Dfa.mk hstates

theorem minimize?_minimize : d.minimize.minimize? = some d.minimize := by
  have hrange' := inRange_minimize hrange
  have hreduced : d.minimize.Reduced := fun b hb c hc => eq_of_answer_minimize hrange hb hc
  rw [minimize?_of_inRange hrange', hreduced.minimize_eq_self hrange']

end Minimize

theorem ofTables_toTables (names : List String) : ofTables (d.toTables names) = d := by
  have hstates : (ofTables (d.toTables names)).states = d.states := by
    apply Array.ext
    · simp [ofTables, toTables, automaton]
    · intro q hq hq'
      simp [ofTables, toTables, automaton]
  exact congrArg Dfa.mk hstates

end Dfa

theorem Nfa.inRange_ofRules {rules : List Rule} (h : ∀ rule ∈ rules, rule.pattern.flaw? = none) :
    (Nfa.ofRules rules).InRange where
  start := by
    obtain ⟨fs, -, hroot⟩ := hung_ofRules h
    exact (Array.getElem?_eq_some_iff.1 hroot).1
  epsilon s hs r hr := by
    obtain ⟨q, hq⟩ := Array.mem_iff_getElem?.1 hs
    exact ((moves_ofRules h hq).1 r hr).2
  edge s hs e he := by
    obtain ⟨q, hq⟩ := Array.mem_iff_getElem?.1 hs
    exact ((moves_ofRules h hq).2 e he).2

theorem Nfa.ofRules?_of_tables {rules : List Rule} {t : Tables} (h : Tables.ofRules? rules = .ok t) :
    Nfa.ofRules? rules = .ok (Nfa.ofRules rules) := by
  rw [Tables.ofRules?] at h
  rw [Nfa.ofRules?]
  cases hflaw : Rule.flaw? rules with
  | none => rfl
  | some e =>
      rw [hflaw] at h
      cases h

namespace Dfa

/-- A second minimization changes nothing. Compiled tables hold what the first one gives. -/
theorem minimize_idempotent :
    (∀ d : Dfa, d.automaton.InRange → ∃ m, d.minimize? = some m ∧ m.minimize? = some m) ∧
      ∀ rules t, Tables.ofRules? rules = .ok t →
        (ofTables t).minimize? = some (ofTables t) ∧ ∃ nfa d, Nfa.ofRules? rules = .ok nfa ∧
          nfa.determinize? = some d ∧ d.minimize? = some (ofTables t) := by
  constructor
  · intro d hrange
    exact ⟨d.minimize, minimize?_of_inRange hrange, minimize?_minimize hrange⟩
  · intro rules t ht
    obtain ⟨hflaw, rfl⟩ := Tables.ofRules?_eq_ok ht
    have hrange : (Nfa.ofRules rules).determinize.automaton.InRange := Nfa.inRange_determinize
    rw [ofTables_toTables]
    have hdeterminize := (Nfa.inRange_ofRules hflaw).determinize?_eq
    exact ⟨minimize?_minimize hrange, _, _, Nfa.ofRules?_of_tables ht, hdeterminize,
      minimize?_of_inRange hrange⟩

theorem minimize_idempotent_tails :
    tails.automaton.InRange ∧ (∃ m, tails.minimize? = some m ∧ m.minimize? = some m) ∧
      (ofTables (Tables.ofRules Tables.keywordRules)).minimize? =
        some (ofTables (Tables.ofRules Tables.keywordRules)) := by
  have hok : Tables.ofRules? Tables.keywordRules = .ok (Tables.ofRules Tables.keywordRules) := rfl
  exact ⟨inRange_tails, minimize_idempotent.1 tails inRange_tails,
    (minimize_idempotent.2 _ _ hok).1⟩

end Dfa

end Munch
