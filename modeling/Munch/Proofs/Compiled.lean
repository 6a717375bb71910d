import Munch.Proofs.Verdict

namespace Munch

namespace Dfa

variable {d : Dfa} {names : List String} {q : Nat} {s : State}

theorem ruleAt_toTables (h : d.states[q]? = some s) :
    (d.toTables names).ruleAt q = if s.rule = noRule then none else some s.rule := by
  rw [Tables.ruleAt, toTables, Array.getElem?_map, h]
  by_cases hs : s.rule = noRule <;> simp [hs]

theorem isAccepting?_automaton (h : d.states[q]? = some s) :
    d.automaton.isAccepting? q = .ok s.isAccepting := by
  rw [Automaton.isAccepting?, automaton, Array.getElem?_map, h]
  rfl

end Dfa

def Dfa.ofRules (rules : List Rule) : Dfa := (Nfa.ofRules rules).determinize.minimize

theorem Dfa.canonical_ofRules (rules : List Rule) : (Dfa.ofRules rules).Canonical :=
  Nfa.canonical_minimize_determinize _

theorem Dfa.answer_ofRules_iff {rules : List Rule}
    (h : ∀ rule ∈ rules, rule.pattern.flaw? = none) (hlen : rules.length ≤ 2 ^ 32 - 1)
    (w : List Char) (r : UInt32) :
    (Dfa.ofRules rules).answer 0 w = some r ↔ Rule.Viable rules w ∧ r = Rule.verdict rules w := by
  rw [← Nfa.answer_determinize_iff h hlen, ofRules,
    answer_zero_minimize Nfa.inRange_determinize Nfa.size_determinize_pos]

theorem Dfa.ofRules_eq_of_winner?_eq {rules rules' : List Rule}
    (h : ∀ rule ∈ rules, rule.pattern.flaw? = none) (hlen : rules.length ≤ 2 ^ 32 - 1)
    (h' : ∀ rule ∈ rules', rule.pattern.flaw? = none) (hlen' : rules'.length ≤ 2 ^ 32 - 1)
    (heq : ∀ w, Rule.winner? rules w = Rule.winner? rules' w) :
    Dfa.ofRules rules = Dfa.ofRules rules' := by
  apply (canonical_ofRules rules).unique (canonical_ofRules rules')
  intro w
  ext r
  rw [answer_ofRules_iff h hlen, answer_ofRules_iff h' hlen']
  simp only [Rule.Viable, Rule.verdict, heq]

def Rule.Rewrites (rule rule' : Rule) : Prop := rule.pattern.Rewrites rule'.pattern

theorem Rule.winner?_eq_of_rewrites {rules rules' : List Rule}
    (h : ∀ rule ∈ rules, rule.pattern.flaw? = none)
    (h' : ∀ rule ∈ rules', rule.pattern.flaw? = none)
    (hr : List.Forall₂ Rule.Rewrites rules rules')
    (w : List Char) : winner? rules w = winner? rules' w := by
  rw [winner?, winner?]
  induction hr with
  | nil => rfl
  | @cons rule rule' rules rules' hr _ ih =>
      have hmatch : rule.pattern.matchesAll w.toArray = rule'.pattern.matchesAll w.toArray := by
        rw [Bool.eq_iff_iff,
          Pattern.matchesAll_iff (Pattern.countsOrdered_of_flaw? (h rule List.mem_cons_self)),
          Pattern.matchesAll_iff (Pattern.countsOrdered_of_flaw? (h' rule' List.mem_cons_self)),
          Pattern.Rewrites.language_eq hr]
      rw [List.findIdx?_cons, List.findIdx?_cons, hmatch,
        ih (fun rule hrule => h rule (List.mem_cons_of_mem _ hrule))
          fun rule hrule => h' rule (List.mem_cons_of_mem _ hrule)]

namespace Tables

variable {rules : List Rule} {t : Tables}

theorem ofRules?_eq_ok (h : ofRules? rules = .ok t) :
    (∀ rule ∈ rules, rule.pattern.flaw? = none) ∧
      t = (Dfa.ofRules rules).toTables (Rule.names rules) := by
  rw [ofRules?] at h
  split at h
  · cases h
  · cases h
    exact ⟨Rule.pattern_flaw?_eq_none ‹_›, rfl⟩

/-- What a word leads to: to no state if nothing that begins with it is matched, else to one that
tells the winner. -/
theorem follow_cases (hlen : rules.length ≤ 2 ^ 32 - 1) (ht : ofRules? rules = .ok t)
    (w : List Char) :
    ¬ Rule.Viable rules w ∧ t.automaton.follow 0 w = none ∨
      Rule.Viable rules w ∧ ∃ s, t.automaton.follow 0 w = some s ∧
        t.ruleAt s = (Rule.winner? rules w).map .ofNat ∧
        t.automaton.isAccepting? s = .ok (Rule.winner? rules w).isSome := by
  obtain ⟨hflaw, rfl⟩ := ofRules?_eq_ok ht
  have hiff := Dfa.answer_ofRules_iff hflaw hlen w
  rw [Dfa.answer] at hiff
  change _ ∧ (Dfa.ofRules rules).automaton.follow 0 w = none ∨
    _ ∧ ∃ s, (Dfa.ofRules rules).automaton.follow 0 w = some s ∧ _
  cases hs : (Dfa.ofRules rules).automaton.follow 0 w with
  | none =>
      refine .inl ⟨fun hv => ?_, rfl⟩
      have hsome := (hiff _).2 ⟨hv, rfl⟩
      rw [hs] at hsome
      cases hsome
  | some q =>
      have hlt := (Dfa.canonical_ofRules rules).follow_lt hs
      have hq := Array.getElem?_eq_getElem hlt
      rw [hs, Option.bind_some, hq, Option.map_some] at hiff
      obtain ⟨hviable, hrule⟩ := (hiff _).1 rfl
      refine .inr ⟨hviable, q, rfl, ?_, ?_⟩
      · rw [Dfa.ruleAt_toTables hq, hrule]
        exact Rule.ite_verdict hlen w
      · change (Dfa.ofRules rules).automaton.isAccepting? q = _
        rw [Dfa.isAccepting?_automaton hq, Dfa.State.isAccepting, hrule]
        exact congrArg Except.ok (Rule.decide_verdict_ne hlen w)

theorem inRange_of_ofRules? (ht : ofRules? rules = .ok t) :
    t.automaton.InRange ∧ 0 < t.automaton.states.size := by
  obtain ⟨-, rfl⟩ := ofRules?_eq_ok ht
  have hcanonical := Dfa.canonical_ofRules rules
  refine ⟨hcanonical.inRange, ?_⟩
  change 0 < (Dfa.ofRules rules).automaton.states.size
  rw [Dfa.size_automaton]
  exact hcanonical.pos

/-- Following a word through the tables ends with the first rule that matches it. -/
theorem classifies (hlen : rules.length ≤ 2 ^ 32 - 1) (ht : ofRules? rules = .ok t)
    (w : List Char) :
    (∀ i, Rule.winner? rules w = some i → ∃ s, t.automaton.follow? 0 w = .ok (some s) ∧
        t.ruleAt s = some (.ofNat i)) ∧
      (Rule.winner? rules w = none → t.automaton.follow? 0 w = .ok none ∨
        ∃ s, t.automaton.follow? 0 w = .ok (some s) ∧ t.ruleAt s = none ∧
          t.automaton.isAccepting? s = .ok false) ∧
      ∀ rule, rules = [rule] →
        t.automaton.acceptsWord w = .ok (rule.pattern.matchesAll w.toArray) := by
  obtain ⟨hrange, hpos⟩ := inRange_of_ofRules? ht
  rw [Automaton.follow?_eq hrange hpos]
  have hsingle (rule : Rule) (hrule : rules = [rule]) :
      (Rule.winner? rules w).isSome = rule.pattern.matchesAll w.toArray := by
    rw [hrule, Rule.winner?, List.findIdx?_isSome, List.any_cons, List.any_nil, Bool.or_false]
  rcases follow_cases hlen ht w with ⟨hviable, hnone⟩ | ⟨-, s, hs, hrule, haccept⟩
  · have hwinner : Rule.winner? rules w = none := by
      by_contra hne
      refine hviable (.inr ⟨[], ?_⟩)
      rw [List.append_nil]
      exact Option.isSome_iff_ne_none.2 hne
    refine ⟨fun i hi => ?_, fun _ => .inl (by rw [hnone]), fun rule hrule => ?_⟩
    · rw [hwinner] at hi
      cases hi
    · rw [Automaton.acceptsWord_of_stuck hrange hpos hnone, ← hsingle rule hrule, hwinner]
      rfl
  · refine ⟨fun i hi => ⟨s, by rw [hs], ?_⟩, fun hi => .inr ⟨s, by rw [hs], ?_, ?_⟩,
      fun rule hsome => ?_⟩
    · rw [hrule, hi, Option.map_some]
    · rw [hrule, hi, Option.map_none]
    · rw [haccept, hi, Option.isSome_none]
    · rw [Automaton.acceptsWord_of_follow hs, haccept, hsingle rule hsome]

def keywordRules : List Rule :=
  [⟨"if", .concat (.literal 'i') (.literal 'f')⟩, ⟨"word", .repeated (.range 'a' 'z') 1 none⟩]

theorem classifies_keyword :
    ∃ s, (ofRules keywordRules).automaton.follow? 0 ['i', 'f'] = .ok (some s) ∧
      (ofRules keywordRules).ruleAt s = some 0 := by
  have hok : ofRules? keywordRules = .ok (ofRules keywordRules) := rfl
  exact (classifies (by decide) hok ['i', 'f']).1 0 (by decide)

def Alike (t t' : Tables) : Prop :=
  t.automaton.states = t'.automaton.states ∧ t.automaton.accepts = t'.automaton.accepts ∧
    t.ruleOf = t'.ruleOf

/-- Rules with the same winners have the same tables, state for state. So have rules that are only
written in another way. -/
theorem depends_on_winners {rules rules' : List Rule} (hlen : rules.length ≤ 2 ^ 32 - 1)
    (hlen' : rules'.length ≤ 2 ^ 32 - 1) {t t' : Tables} (ht : ofRules? rules = .ok t)
    (ht' : ofRules? rules' = .ok t') :
    ((∀ w, Rule.winner? rules w = Rule.winner? rules' w) → t.Alike t') ∧
      (List.Forall₂ Rule.Rewrites rules rules' → t.Alike t') := by
  obtain ⟨hflaw, rfl⟩ := ofRules?_eq_ok ht
  obtain ⟨hflaw', rfl⟩ := ofRules?_eq_ok ht'
  have halike (heq : ∀ w, Rule.winner? rules w = Rule.winner? rules' w) :
      ((Dfa.ofRules rules).toTables (Rule.names rules)).Alike
        ((Dfa.ofRules rules').toTables (Rule.names rules')) := by
    rw [Dfa.ofRules_eq_of_winner?_eq hflaw hlen hflaw' hlen' heq]
    exact ⟨rfl, rfl, rfl⟩
  exact ⟨halike, fun hr => halike (Rule.winner?_eq_of_rewrites hflaw hflaw' hr)⟩

def signRules : List Rule := [⟨"sign", .alternate (.literal '+') (.literal '-')⟩]

def operatorRules : List Rule := [⟨"operator", .alternate (.literal '-') (.literal '+')⟩]

theorem depends_on_winners_swap :
    (∀ w, Rule.winner? signRules w = Rule.winner? operatorRules w) ∧
      (ofRules signRules).Alike (ofRules operatorRules) := by
  have hswap : List.Forall₂ Rule.Rewrites signRules operatorRules :=
    .cons (Pattern.Rewrites.swap _ _) .nil
  have hsame := Rule.winner?_eq_of_rewrites (Rule.pattern_flaw?_eq_none rfl)
    (Rule.pattern_flaw?_eq_none rfl) hswap
  have hok : ofRules? signRules = .ok (ofRules signRules) := rfl
  have hok' : ofRules? operatorRules = .ok (ofRules operatorRules) := rfl
  exact ⟨hsame, (depends_on_winners (by decide) (by decide) hok hok').1 hsame⟩

end Tables

end Munch
