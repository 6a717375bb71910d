import Munch.Proofs.Checked
import Munch.Proofs.Compiled

namespace Munch

theorem Pattern.replicate_mem_pow {p : Pattern} {w : List Char} (h : w ∈ p.language) (n : Nat) :
    (List.replicate n w).flatten ∈ p.language ^ n := by
  refine Language.mem_pow.2 ⟨List.replicate n w, rfl, List.length_replicate, fun v hv => ?_⟩
  rwa [List.eq_of_mem_replicate hv]

theorem Pattern.exists_mem_language {p : Pattern} (h : p.flaw? = none) : ∃ w, w ∈ p.language := by
  induction p with
  | literal c => exact ⟨[c], rfl⟩
  | range lo hi =>
      rw [flaw?] at h
      split at h
      case isTrue => cases h
      case isFalse hle => exact ⟨[lo], lo, rfl, Char.le_refl lo, Char.not_lt.1 hle⟩
  | concat p q ihp ihq =>
      obtain ⟨hp, hq⟩ := Option.or_eq_none_iff.1 h
      obtain ⟨u, hu⟩ := ihp hp
      obtain ⟨v, hv⟩ := ihq hq
      exact ⟨u ++ v, Language.append_mem_mul hu hv⟩
  | alternate p q ihp _ =>
      obtain ⟨w, hw⟩ := ihp (Option.or_eq_none_iff.1 h).1
      exact ⟨w, .inl hw⟩
  | repeated p least most ih =>
      cases most with
      | none =>
          obtain ⟨w, hw⟩ := ih h
          exact ⟨_, least, le_rfl, fun m hm => absurd hm (Option.not_mem_none m),
            replicate_mem_pow hw least⟩
      | some most =>
          have hle := (countsOrdered_of_flaw? h).1
          have hbound : ∀ m ∈ some most, least ≤ m := by
            rintro m ⟨⟩
            exact hle
          rw [flaw?, if_neg (Nat.not_lt.2 hle)] at h
          split at h
          case isTrue hzero =>
            refine ⟨[], least, le_rfl, hbound, ?_⟩
            rw [Nat.le_zero.1 (hle.trans hzero.le)]
            exact Language.nil_mem_one
          case isFalse =>
            obtain ⟨w, hw⟩ := ih h
            exact ⟨_, least, le_rfl, hbound, replicate_mem_pow hw least⟩

namespace Rule

variable {rules : List Rule} {w w' : List Char}

theorem exists_winner (h : ∀ rule ∈ rules, rule.pattern.flaw? = none) (hne : rules ≠ []) :
    ∃ w, (winner? rules w).isSome := by
  obtain ⟨rule, hrule⟩ := List.exists_mem_of_ne_nil rules hne
  obtain ⟨w, hw⟩ := Pattern.exists_mem_language (h rule hrule)
  refine ⟨w, isSome_winner?_iff.2 ⟨rule, hrule, ?_⟩⟩
  exact (Pattern.matchesAll_iff (Pattern.countsOrdered_of_flaw? (h rule hrule)) w).2 hw

theorem Viable.exists_winner (hw : Viable rules w)
    (h : ∀ rule ∈ rules, rule.pattern.flaw? = none) (hne : rules ≠ []) :
    ∃ v, (winner? rules (w ++ v)).isSome := by
  rcases hw with rfl | hv
  · exact Rule.exists_winner h hne
  · exact hv

/-- A word can be continued wherever another one can that has the same verdicts behind it. -/
theorem Viable.append_congr (hlen : rules.length ≤ 2 ^ 32 - 1) (hw' : Viable rules w')
    (h : ∀ v, verdict rules (w ++ v) = verdict rules (w' ++ v)) {v : List Char}
    (hv : Viable rules (w ++ v)) : Viable rules (w' ++ v) := by
  rcases hv with hnil | ⟨x, hx⟩
  · rw [(List.append_eq_nil_iff.1 hnil).2, List.append_nil]
    exact hw'
  · right
    refine ⟨x, ?_⟩
    rw [List.append_assoc] at hx ⊢
    rw [← decide_verdict_ne hlen, ← h, decide_verdict_ne hlen]
    exact hx

end Rule

namespace Tables

def ruleAfter (t : Tables) (w : List Char) : Option UInt32 :=
  (t.automaton.follow 0 w).bind t.ruleAt

variable {rules : List Rule} {t : Tables}

theorem ruleAfter_append {w : List Char} {q : Nat} (h : t.automaton.follow 0 w = some q)
    (v : List Char) : t.ruleAfter (w ++ v) = (t.automaton.follow q v).bind t.ruleAt := by
  rw [ruleAfter, Automaton.follow_append, h]
  rfl

theorem exists_follow_of_ruleAfter {w v : List Char} (h : (t.ruleAfter (w ++ v)).isSome) :
    ∃ q, t.automaton.follow 0 w = some q := by
  cases hq : t.automaton.follow 0 w with
  | none =>
      rw [ruleAfter, Automaton.follow_append, hq] at h
      cases h
  | some q => exact ⟨q, rfl⟩

theorem check_of_ofRules? (ht : ofRules? rules = .ok t) : t.check = .ok () := by
  obtain ⟨hrange, hpos⟩ := inRange_of_ofRules? ht
  obtain ⟨-, rfl⟩ := ofRules?_eq_ok ht
  refine check_eq_ok_iff.2 ⟨Automaton.check_eq_ok_iff.2 ⟨hpos, ?_, hrange⟩, ?_⟩
  · simp [Dfa.toTables, Dfa.automaton]
  · simp [Dfa.toTables, Dfa.automaton]

variable (hlen : rules.length ≤ 2 ^ 32 - 1) (ht : ofRules? rules = .ok t)

include ht in
theorem exists_follow_of_ofRules? {q : Nat} (hq : q < t.automaton.states.size) :
    ∃ w, t.automaton.follow 0 w = some q := by
  obtain ⟨-, rfl⟩ := ofRules?_eq_ok ht
  exact (Dfa.canonical_ofRules rules).reached q (by rwa [← Dfa.size_automaton])

include hlen ht

theorem viable_of_follow {w : List Char} {q : Nat} (hq : t.automaton.follow 0 w = some q) :
    Rule.Viable rules w := by
  rcases follow_cases hlen ht w with ⟨-, hnone⟩ | ⟨hviable, -⟩
  · rw [hq] at hnone
    cases hnone
  · exact hviable

theorem ruleAfter_eq (w : List Char) : t.ruleAfter w = (Rule.winner? rules w).map .ofNat := by
  rcases follow_cases hlen ht w with ⟨hviable, hnone⟩ | ⟨-, s, hs, hrule, -⟩
  · rw [ruleAfter, hnone, Option.bind_none, eq_comm, Option.map_eq_none_iff]
    by_contra hne
    refine hviable (.inr ⟨[], ?_⟩)
    rw [List.append_nil]
    exact Option.isSome_iff_ne_none.2 hne
  · rw [ruleAfter, hs, Option.bind_some, hrule]

theorem verdict_eq_getD (w : List Char) : Rule.verdict rules w = (t.ruleAfter w).getD noRule := by
  rw [ruleAfter_eq hlen ht, Rule.verdict]
  cases Rule.winner? rules w <;> rfl

theorem exists_accepting (hne : rules ≠ []) {q : Nat} (hq : q < t.automaton.states.size) :
    ∃ v r, t.automaton.follow q v = some r ∧ t.automaton.isAccepting? r = .ok true := by
  obtain ⟨w, hw⟩ := exists_follow_of_ofRules? ht hq
  obtain ⟨v, hv⟩ := (viable_of_follow hlen ht hw).exists_winner (ofRules?_eq_ok ht).1 hne
  rcases follow_cases hlen ht (w ++ v) with ⟨hviable, -⟩ | ⟨-, r, hr, -, haccept⟩
  · refine absurd (.inr ⟨[], ?_⟩) hviable
    rwa [List.append_nil]
  · rw [Automaton.follow_append, hw] at hr
    exact ⟨v, r, hr, by rw [haccept, hv]⟩

theorem exists_rule_of_lt {q : Nat} (hq : q < t.automaton.states.size) :
    ∃ k, t.ruleOf[q]? = some k ∧ t.automaton.isAccepting? q = .ok (decide (k ≠ noRule)) ∧
      (k ≠ noRule → ∃ rule, rules[k.toNat]? = some rule ∧ t.ruleAt q = some k ∧
        t.ruleName k = some rule.name) := by
  obtain ⟨w, hw⟩ := exists_follow_of_ofRules? ht hq
  obtain ⟨k, hk⟩ : ∃ k, t.ruleOf[q]? = some k := by
    rw [← (check_eq_ok_iff.1 (check_of_ofRules? ht)).2] at hq
    exact ⟨_, Array.getElem?_eq_getElem hq⟩
  refine ⟨k, hk, ?_⟩
  rcases follow_cases hlen ht w with ⟨-, hnone⟩ | ⟨-, s, hs, hrule, haccept⟩
  · rw [hw] at hnone
    cases hnone
  cases hw.symm.trans hs
  rw [haccept, hrule]
  rw [ruleAt, hk] at hrule
  cases hi : Rule.winner? rules w with
  | none =>
      rw [hi] at hrule
      have hk : k = noRule := by simpa using hrule
      exact ⟨by simp [hk], fun hne => absurd hk hne⟩
  | some i =>
      rw [hi] at hrule
      obtain ⟨rfl, hne⟩ : k = .ofNat i ∧ UInt32.ofNat i ≠ noRule := by
        simpa [Option.filter_eq_some_iff] using hrule
      obtain ⟨⟨rule, hrule, -⟩, -⟩ := Rule.winner?_eq_some_iff.1 hi
      have hlt := (Rule.winner?_lt hi).trans_le hlen
      have htoNat : (UInt32.ofNat i).toNat = i :=
        UInt32.toNat_ofNat_of_lt' (by rw [UInt32.size]; omega)
      refine ⟨by simp [hne], fun _ => ⟨rule, by rw [htoNat, hrule], rfl, ?_⟩⟩
      rw [ruleName, htoNat, (ofRules?_eq_ok ht).2]
      change (Rule.names rules)[i]? = some rule.name
      rw [Rule.names, List.getElem?_map, hrule, Option.map_some]

/-- Compiled tables are sound. Each state accepts just if it has a rule, and this rule has a name.
All states can be reached, and from each of them there is a way to accept, if there are rules at
all. -/
theorem compiled_trim :
    t.check = .ok () ∧ t.names.length = rules.length ∧
      ∀ q < t.automaton.states.size,
        (∃ k, t.ruleOf[q]? = some k ∧ t.automaton.isAccepting? q = .ok (decide (k ≠ noRule)) ∧
          (k ≠ noRule → ∃ rule, rules[k.toNat]? = some rule ∧ t.ruleAt q = some k ∧
            t.ruleName k = some rule.name)) ∧
        (∃ w, t.automaton.follow? 0 w = .ok (some q)) ∧
        (rules ≠ [] → ∃ w r, t.automaton.follow? q w = .ok (some r) ∧
          t.automaton.isAccepting? r = .ok true) := by
  obtain ⟨hrange, hpos⟩ := inRange_of_ofRules? ht
  refine ⟨check_of_ofRules? ht, ?_, fun q hq => ⟨exists_rule_of_lt hlen ht hq, ?_, fun hne => ?_⟩⟩
  · rw [(ofRules?_eq_ok ht).2]
    exact List.length_map _
  · obtain ⟨w, hw⟩ := exists_follow_of_ofRules? ht hq
    exact ⟨w, by rw [Automaton.follow?_eq hrange hpos, hw]⟩
  · obtain ⟨v, r, hr, haccept⟩ := exists_accepting hlen ht hne hq
    exact ⟨v, r, by rw [Automaton.follow?_eq hrange hq, hr], haccept⟩

omit hlen ht in
theorem compiled_trim_keyword :
    (ofRules keywordRules).check = .ok () ∧ (ofRules keywordRules).names.length = 2 ∧
      ∃ w r, (ofRules keywordRules).automaton.follow? 0 w = .ok (some r) ∧
        (ofRules keywordRules).automaton.isAccepting? r = .ok true := by
  have hok : ofRules? keywordRules = .ok (ofRules keywordRules) := rfl
  obtain ⟨hcheck, hnames, hstates⟩ := compiled_trim (by decide) hok
  exact ⟨hcheck, hnames, (hstates 0 (inRange_of_ofRules? hok).2).2.2 (List.cons_ne_nil _ _)⟩

/-- There are no more states than codes, if the code of a word tells the verdict on every
continuation. -/
theorem size_le_of_code {α : Type} (codes : List α) (code : List Char → α)
    (hmem : ∀ w, Rule.Viable rules w → code w ∈ codes)
    (hcode : ∀ w w', Rule.Viable rules w → Rule.Viable rules w' → code w = code w' →
      ∀ v, Rule.verdict rules (w ++ v) = Rule.verdict rules (w' ++ v)) :
    t.automaton.states.size ≤ codes.length := by
  classical
  have hviable {w : List Char} {q : Nat} (hq : t.automaton.follow 0 w = some q) :
      Rule.Viable rules w := viable_of_follow hlen ht hq
  obtain ⟨hflaw, rfl⟩ := ofRules?_eq_ok ht
  have hcanonical := Dfa.canonical_ofRules rules
  choose! word hword using hcanonical.reached
  change (Dfa.ofRules rules).automaton.states.size ≤ codes.length
  rw [Dfa.size_automaton, ← Finset.card_range (Dfa.ofRules rules).states.size]
  refine (Finset.card_le_card_of_injOn (t := codes.toFinset) (fun q => code (word q))
    (fun q hq => ?_) fun q hq r hr heq => ?_).trans codes.toFinset_card_le
  · have hq := hword q (Finset.mem_range.1 hq)
    exact Finset.mem_coe.2 (List.mem_toFinset.2 (hmem _ (hviable hq)))
  · have hq := hword q (Finset.mem_range.1 hq)
    have hr := hword r (Finset.mem_range.1 hr)
    have hsame := hcode _ _ (hviable hq) (hviable hr) heq
    refine hcanonical.distinct q (hcanonical.follow_lt hq) r (hcanonical.follow_lt hr) fun v => ?_
    rw [← Dfa.answer_append hq, ← Dfa.answer_append hr]
    ext k
    rw [Dfa.answer_ofRules_iff hflaw hlen, Dfa.answer_ofRules_iff hflaw hlen, hsame]
    refine and_congr_left fun _ => ⟨?_, ?_⟩
    · exact (hviable hr).append_congr hlen hsame
    · exact (hviable hq).append_congr hlen fun v => (hsame v).symm

/-- No sound tables that tell the same rule for each word are smaller than the compiled ones. -/
theorem size_le_of_ruleAfter_eq {u : Tables} (hu : u.check = .ok ())
    (hsame : ∀ w, u.ruleAfter w = t.ruleAfter w) :
    t.automaton.states.size ≤ u.automaton.states.size := by
  obtain ⟨hpos, -, hrange⟩ := Automaton.check_eq_ok_iff.1 (check_eq_ok_iff.1 hu).1
  have hfollow {w : List Char} (hw : Rule.Viable rules w) :
      ∃ q, u.automaton.follow 0 w = some q := by
    rcases hw with rfl | ⟨v, hv⟩
    · exact ⟨0, rfl⟩
    · apply exists_follow_of_ruleAfter (v := v)
      rw [hsame, ruleAfter_eq hlen ht, Option.isSome_map]
      exact hv
  have hcodes :
      ((List.range u.automaton.states.size).map some).length = u.automaton.states.size := by
    rw [List.length_map, List.length_range]
  rw [← hcodes]
  apply size_le_of_code hlen ht _ (u.automaton.follow 0)
  · intro w hw
    obtain ⟨q, hq⟩ := hfollow hw
    rw [hq]
    exact List.mem_map_of_mem (List.mem_range.2 (Automaton.follow_lt hrange hpos hq))
  · intro w w' hw _ heq v
    obtain ⟨q, hq⟩ := hfollow hw
    rw [verdict_eq_getD hlen ht, verdict_eq_getD hlen ht, ← hsame, ← hsame, ruleAfter_append hq,
      ruleAfter_append (heq.symm.trans hq)]

omit hlen ht

def letterRules : List Rule := [⟨"letter", .literal 'a'⟩]

def paddedTables : Tables :=
  ⟨⟨#[⟨[('a', 1)], List.pairwise_singleton _ _⟩, .empty, .empty], #[false, true, false]⟩,
    #[noRule, 0, noRule], ["letter"]⟩

theorem winner?_letterRules (w : List Char) :
    Rule.winner? letterRules w = if w = ['a'] then some 0 else none := by
  have hmatch : (Pattern.literal 'a').matchesAll w.toArray = decide (w = ['a']) := by
    rw [Bool.eq_iff_iff, Pattern.matchesAll_iff (p := .literal 'a') trivial, decide_eq_true_iff]
    exact Pattern.mem_language_literal
  rw [Rule.winner?, letterRules, List.findIdx?_singleton, hmatch]
  simp only [decide_eq_true_eq]

theorem ruleAfter_paddedTables (w : List Char) :
    paddedTables.ruleAfter w = if w = ['a'] then some 0 else none := by
  cases w with
  | nil => rfl
  | cons c w =>
      have hnext : paddedTables.automaton.next 0 c = if c = 'a' then some 1 else none :=
        Row.lookup_cons_eq_ite [] c 'a' 1
      rw [ruleAfter, Automaton.follow, hnext]
      by_cases hc : c = 'a'
      · cases w with
        | nil => simp [hc, Automaton.follow, paddedTables, ruleAt, noRule]
        | cons d w => simp [hc, Automaton.follow, Automaton.next, paddedTables, Row.get?, Row.empty]
      · simp [hc]

theorem size_le_of_ruleAfter_eq_padded :
    paddedTables.check = .ok () ∧
      (∀ w, paddedTables.ruleAfter w = (ofRules letterRules).ruleAfter w) ∧
      (ofRules letterRules).automaton.states.size ≤ 3 := by
  have hok : ofRules? letterRules = .ok (ofRules letterRules) := rfl
  have hcheck : paddedTables.check = .ok () := rfl
  have hsame (w : List Char) : paddedTables.ruleAfter w = (ofRules letterRules).ruleAfter w := by
    rw [ruleAfter_eq (by decide) hok, ruleAfter_paddedTables, winner?_letterRules]
    split <;> rfl
  exact ⟨hcheck, hsame, size_le_of_ruleAfter_eq (by decide) hok hcheck hsame⟩

end Tables

end Munch
