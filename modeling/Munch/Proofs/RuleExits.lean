import Munch.Proofs.Reduced

namespace Munch

theorem Rule.toNat_ofNat {rules : List Rule} (hlen : rules.length ≤ 2 ^ 32 - 1) {i : Nat}
    (hi : i < rules.length) : (UInt32.ofNat i).toNat = i := by
  apply UInt32.toNat_ofNat_of_lt'
  rw [UInt32.size]
  omega

theorem Rule.ofNat_inj {rules : List Rule} (hlen : rules.length ≤ 2 ^ 32 - 1) {i k : Nat}
    (hi : i < rules.length) (hk : k < rules.length) (h : UInt32.ofNat i = .ofNat k) : i = k := by
  rw [← Rule.toNat_ofNat hlen hi, h, Rule.toNat_ofNat hlen hk]

namespace Nfa

open Nfa.Graph

def tagAt (nfa : Nfa) (q : Nat) : Option UInt32 := nfa.states[q]?.bind (·.accept)

theorem tagAt_eq_some_iff {nfa : Nfa} {q : Nat} {t : UInt32} :
    nfa.tagAt q = some t ↔ ∃ s, nfa.states[q]? = some s ∧ s.accept = some t :=
  Option.bind_eq_some_iff

/-- Of the states of the parts only the exits accept a rule. -/
theorem Hung.exit_of_accept {G : Graph} {lo i : Nat} {rules : List Rule} {fs : List Fragment}
    (h : Hung G lo i rules fs) {q : Nat} {s : State} {t : UInt32} (hq : lo ≤ q)
    (hs : G[q]? = some s) (ht : s.accept = some t) :
    ∃ k f, fs[k]? = some f ∧ f.exit = q ∧ t = .ofNat (i + k) := by
  induction h with
  | nil i =>
      have := (Array.getElem?_eq_some_iff.1 hs).1
      omega
  | @cons g g₁ i _ _ f fs hw hk hx h ih =>
      by_cases hqg : q < g₁.size
      · by_cases hqx : q = f.exit
        · subst q
          rw [hx] at hs
          cases hs
          cases ht
          exact ⟨0, f, rfl, rfl, rfl⟩
        · rw [hk q hq hqg (List.mem_singleton.not.2 hqx)] at hs
          have hnone := (hw.shape.within q s hq hs).1
          rw [ht] at hnone
          cases hnone
      · obtain ⟨k, f', hf', hexit, rfl⟩ := ih (Nat.not_lt.1 hqg)
        exact ⟨k + 1, f', hf', hexit, by rw [Nat.add_right_comm, Nat.add_assoc]⟩

theorem ofRules?_eq_ok {rules : List Rule} {nfa : Nfa} (h : ofRules? rules = .ok nfa) :
    (∀ rule ∈ rules, rule.pattern.flaw? = none) ∧ nfa = ofRules rules := by
  rw [ofRules?] at h
  split at h
  · cases h
  · cases h
    exact ⟨Rule.pattern_flaw?_eq_none ‹_›, rfl⟩

section OfRules

variable {rules : List Rule} (h : ∀ rule ∈ rules, rule.pattern.flaw? = none)

include h

theorem exists_exits : ∃ exits : List Nat, exits.length = rules.length ∧
    ∀ q t, (ofRules rules).tagAt q = some t ↔ ∃ k, exits[k]? = some q ∧ t = .ofNat k := by
  obtain ⟨fs, hfs, hroot⟩ := hung_ofRules h
  refine ⟨fs.map (·.exit), ?_, fun q t => ?_⟩
  · rw [List.length_map, hfs.length_eq]
  rw [tagAt_eq_some_iff]
  constructor
  · rintro ⟨s, hs, ht⟩
    by_cases hq : q = 0
    · subst q
      rw [hroot] at hs
      cases hs
      cases ht
    · obtain ⟨k, f, hf, rfl, rfl⟩ := hfs.exit_of_accept (Nat.pos_of_ne_zero hq) hs ht
      refine ⟨k, ?_, by rw [Nat.zero_add]⟩
      rw [List.getElem?_map, hf, Option.map_some]
  · rintro ⟨k, hk, rfl⟩
    rw [List.getElem?_map] at hk
    obtain ⟨f, hf, rfl⟩ := Option.map_eq_some_iff.1 hk
    have hlt : k < rules.length := hfs.length_eq ▸ (List.getElem?_eq_some_iff.1 hf).1
    obtain ⟨hx, -⟩ := hfs.part (List.getElem?_eq_getElem hlt) hf
    rw [Nat.zero_add] at hx
    exact ⟨_, hx, rfl⟩

theorem mem_words_exit_iff (hlen : rules.length ≤ 2 ^ 32 - 1) {i exit : Nat} {rule : Rule}
    (hrule : rules[i]? = some rule)
    (hexit : ∀ q, (ofRules rules).tagAt q = some (.ofNat i) ↔ q = exit) (w : List Char) :
    w ∈ words (ofRules rules).states 0 exit ↔ w ∈ rule.pattern.language := by
  have haccept := accept_ofRules_iff h w (.ofNat i)
  constructor
  · intro hw
    obtain ⟨s, hs, ht⟩ := tagAt_eq_some_iff.1 ((hexit exit).2 rfl)
    obtain ⟨k, rule', hk, hmem, hik⟩ := haccept.1 ⟨exit, s, hw, hs, ht⟩
    obtain rfl := Rule.ofNat_inj hlen (List.getElem?_eq_some_iff.1 hrule).1
      (List.getElem?_eq_some_iff.1 hk).1 hik
    cases hrule.symm.trans hk
    exact hmem
  · intro hw
    obtain ⟨q, s, hq, hs, ht⟩ := haccept.2 ⟨i, rule, hrule, hw, rfl⟩
    rwa [(hexit q).1 (tagAt_eq_some_iff.2 ⟨s, hs, ht⟩)] at hq

end OfRules

/-- In the graph of the rules each rule has one exit, to which the walks from the start spell the
words of the rule. No other state accepts anything. -/
theorem walks_to_exits {rules : List Rule} {nfa : Nfa} (hlen : rules.length ≤ 2 ^ 32 - 1)
    (h : ofRules? rules = .ok nfa) :
    nfa.InRange ∧ (∀ q k, nfa.tagAt q = some k → k.toNat < rules.length) ∧
      ∀ i rule, rules[i]? = some rule → ∃ exit,
        (∀ q, nfa.tagAt q = some (.ofNat i) ↔ q = exit) ∧
          ∀ w, w ∈ words nfa.states nfa.start exit ↔ w ∈ rule.pattern.language := by
  obtain ⟨hflaw, rfl⟩ := ofRules?_eq_ok h
  obtain ⟨exits, hlength, htag⟩ := exists_exits hflaw
  have hlt {k q : Nat} (hk : exits[k]? = some q) : k < rules.length :=
    hlength ▸ (List.getElem?_eq_some_iff.1 hk).1
  refine ⟨inRange_ofRules hflaw, fun q k hk => ?_, fun i rule hrule => ?_⟩
  · obtain ⟨k, hexit, rfl⟩ := (htag q _).1 hk
    rw [Rule.toNat_ofNat hlen (hlt hexit)]
    exact hlt hexit
  · have hi := (List.getElem?_eq_some_iff.1 hrule).1
    have hget := List.getElem?_eq_getElem (hlength.symm ▸ hi : i < exits.length)
    have hexit (q : Nat) : (ofRules rules).tagAt q = some (.ofNat i) ↔ q = exits[i] := by
      rw [htag]
      constructor
      · rintro ⟨k, hk, hik⟩
        obtain rfl := Rule.ofNat_inj hlen hi (hlt hk) hik
        rw [hget] at hk
        exact (Option.some.inj hk).symm
      · rintro rfl
        exact ⟨i, hget, rfl⟩
    exact ⟨exits[i], hexit, mem_words_exit_iff hflaw hlen hrule hexit⟩

def nestedRules : List Rule :=
  [⟨"runs", .repeated (.repeated (.literal 'a') 0 (some 2)) 1 none⟩,
    ⟨"pair", .concat (.literal 'a') (.repeated (.range 'a' 'c') 1 (some 1))⟩]

theorem walks_to_exits_nested :
    ∃ exit, (∀ q, (ofRules nestedRules).tagAt q = some 0 ↔ q = exit) ∧
      ['a', 'a', 'a'] ∈ words (ofRules nestedRules).states 0 exit ∧
      ['a', 'b'] ∉ words (ofRules nestedRules).states 0 exit := by
  have hok : ofRules? nestedRules = .ok (ofRules nestedRules) := rfl
  obtain ⟨-, -, hexits⟩ := walks_to_exits (by decide) hok
  obtain ⟨exit, htag, hwords⟩ := hexits 0 _ rfl
  have hordered : (Pattern.repeated (.repeated (.literal 'a') 0 (some 2)) 1 none).CountsOrdered :=
    Pattern.countsOrdered_of_flaw? rfl
  refine ⟨exit, htag, (hwords _).2 ?_, (hwords _).not.2 ?_⟩
  · rw [← Pattern.matchesAll_iff hordered]
    decide
  · rw [← Pattern.matchesAll_iff hordered]
    decide

end Nfa

end Munch
