import Munch.Compile
import Munch.Proofs.Canonical
import Munch.Proofs.Matching
import Munch.Proofs.RuleGraph

namespace Munch

namespace Rule

def winner? (rules : List Rule) (w : List Char) : Option Nat :=
  rules.findIdx? fun rule => rule.pattern.matchesAll w.toArray

def verdict (rules : List Rule) (w : List Char) : UInt32 :=
  (winner? rules w).elim noRule .ofNat

/-- Some rule matches the word or a longer one. The empty word counts in any case. -/
def Viable (rules : List Rule) (w : List Char) : Prop :=
  w = [] ∨ ∃ v, (winner? rules (w ++ v)).isSome

variable {rules : List Rule}

theorem pattern_flaw?_eq_none (h : flaw? rules = none) :
    ∀ rule ∈ rules, rule.pattern.flaw? = none := by
  intro rule hrule
  rw [flaw?, List.findSome?_eq_none_iff] at h
  obtain ⟨i, hi⟩ := List.mem_iff_getElem?.1 hrule
  have hmap := h (rule, i) (List.mem_zipIdx_iff_getElem?.2 hi)
  exact Option.map_eq_none_iff.1 hmap

theorem winner?_eq_some_iff {w : List Char} {i : Nat} :
    winner? rules w = some i ↔
      (∃ rule, rules[i]? = some rule ∧ rule.pattern.matchesAll w.toArray = true) ∧
        ∀ k rule, rules[k]? = some rule → rule.pattern.matchesAll w.toArray = true → i ≤ k := by
  rw [winner?, List.findIdx?_eq_some_iff_getElem]
  constructor
  · rintro ⟨hi, hm, hfirst⟩
    refine ⟨⟨rules[i], List.getElem?_eq_getElem hi, hm⟩, fun k rule hk hrule => ?_⟩
    by_contra hlt
    obtain ⟨hk, rfl⟩ := List.getElem?_eq_some_iff.1 hk
    exact hfirst k (Nat.not_le.1 hlt) hrule
  · rintro ⟨⟨rule, hi, hm⟩, hfirst⟩
    obtain ⟨hlt, rfl⟩ := List.getElem?_eq_some_iff.1 hi
    refine ⟨hlt, hm, fun k hk hrule => absurd hk (Nat.not_lt.2 ?_)⟩
    exact hfirst k _ (List.getElem?_eq_getElem (hk.trans hlt)) hrule

theorem isSome_winner?_iff {w : List Char} :
    (winner? rules w).isSome ↔ ∃ rule ∈ rules, rule.pattern.matchesAll w.toArray = true := by
  rw [winner?, List.findIdx?_isSome, List.any_eq_true]

theorem winner?_lt {w : List Char} {i : Nat} (h : winner? rules w = some i) : i < rules.length := by
  obtain ⟨⟨rule, hi, -⟩, -⟩ := winner?_eq_some_iff.1 h
  exact (List.getElem?_eq_some_iff.1 hi).1

theorem ofNat_ne_noRule {i : Nat} (h : i < 2 ^ 32 - 1) : UInt32.ofNat i ≠ noRule := by
  intro he
  have hn := congrArg UInt32.toNat he
  rw [UInt32.toNat_ofNat_of_lt' (by rw [UInt32.size]; omega)] at hn
  rw [hn] at h
  exact absurd h (by decide)

theorem ite_verdict (hlen : rules.length ≤ 2 ^ 32 - 1) (w : List Char) :
    (if verdict rules w = noRule then none else some (verdict rules w)) =
      (winner? rules w).map .ofNat := by
  rw [verdict]
  cases hw : winner? rules w with
  | none => rfl
  | some i => exact if_neg (ofNat_ne_noRule ((winner?_lt hw).trans_le hlen))

theorem decide_verdict_ne (hlen : rules.length ≤ 2 ^ 32 - 1) (w : List Char) :
    decide (verdict rules w ≠ noRule) = (winner? rules w).isSome := by
  rw [verdict]
  cases hw : winner? rules w with
  | none => rfl
  | some i => exact decide_eq_true (ofNat_ne_noRule ((winner?_lt hw).trans_le hlen))

end Rule

namespace Nfa

open Nfa.Graph

variable {rules : List Rule} (h : ∀ rule ∈ rules, rule.pattern.flaw? = none)

include h

theorem exists_accept_iff (w : List Char) (t : UInt32) :
    (∃ q s, w ∈ words (ofRules rules).states 0 q ∧ (ofRules rules).states[q]? = some s ∧
        s.accept = some t) ↔
      ∃ (k : Nat) (rule : Rule), rules[k]? = some rule ∧
        rule.pattern.matchesAll w.toArray = true ∧ t = .ofNat k := by
  rw [accept_ofRules_iff h]
  refine exists_congr fun k => exists_congr fun rule => and_congr_right fun hk => ?_
  rw [Pattern.matchesAll_iff (Pattern.countsOrdered_of_flaw? (h rule (List.mem_of_getElem? hk)))]

theorem mem_accepts_iff {w : List Char} {T : List Nat}
    (hT : (ofRules rules).track (ofRules rules).root w = some T) (t : UInt32) :
    t ∈ T.filterMap (fun q => (ofRules rules).states[q]?.bind (·.accept)) ↔
      ∃ (k : Nat) (rule : Rule), rules[k]? = some rule ∧
        rule.pattern.matchesAll w.toArray = true ∧ t = .ofNat k := by
  rw [← exists_accept_iff h]
  exact mem_accepts_of_track hT t

theorem acceptOf_eq (hlen : rules.length ≤ 2 ^ 32 - 1) {w : List Char} {T : List Nat}
    (hT : (ofRules rules).track (ofRules rules).root w = some T) :
    (ofRules rules).acceptOf T = (Rule.winner? rules w).map .ofNat := by
  cases hw : Rule.winner? rules w with
  | none =>
      rw [acceptOf, Option.map_none, List.min?_eq_none_iff, List.eq_nil_iff_forall_not_mem]
      intro t ht
      obtain ⟨k, rule, hk, hm, -⟩ := (mem_accepts_iff h hT t).1 ht
      have hsome := Rule.isSome_winner?_iff.2 ⟨rule, List.mem_of_getElem? hk, hm⟩
      rw [hw] at hsome
      cases hsome
  | some i =>
      obtain ⟨⟨rule, hi, hm⟩, hfirst⟩ := Rule.winner?_eq_some_iff.1 hw
      rw [acceptOf, Option.map_some, List.min?_eq_some_iff]
      refine ⟨(mem_accepts_iff h hT _).2 ⟨i, rule, hi, hm, rfl⟩, fun t ht => ?_⟩
      obtain ⟨k, rule, hk, hm, rfl⟩ := (mem_accepts_iff h hT t).1 ht
      have hlt := (List.getElem?_eq_some_iff.1 hk).1
      have hle := hfirst k rule hk hm
      have hsize : UInt32.size = 2 ^ 32 := rfl
      exact (UInt32.ofNat_le_iff_le (by omega) (by omega)).2 hle

/-- Behind a word that is not empty there is a state, and from there a way to accept. -/
theorem exists_winner_of_track {w : List Char} {T : List Nat} (hne : w ≠ [])
    (hT : (ofRules rules).track (ofRules rules).root w = some T) :
    ∃ v, (Rule.winner? rules (w ++ v)).isSome := by
  obtain ⟨u, c, rfl⟩ := (List.eq_nil_or_concat' w).resolve_left hne
  have hmem := mem_track_root hT
  rw [track_concat] at hT
  obtain ⟨S, -, hT⟩ := Option.bind_eq_some_iff.1 hT
  obtain ⟨ts, rfl, hts, hedge⟩ := get?_moves_eq_some hT
  obtain ⟨t, ht⟩ := List.exists_mem_of_ne_nil ts hts
  obtain ⟨q, -, he⟩ := (hedge t).1 ht
  obtain ⟨s, hs, he⟩ := mem_edgesOf.1 he
  obtain ⟨hpos, hlt⟩ := (moves_ofRules h hs).2 _ he
  obtain ⟨-, hw⟩ := (hmem t).1 (mem_closure.2 ⟨hlt, t, ht, .refl⟩)
  obtain ⟨x, k, hx, v, hv⟩ := live_ofRules h hpos hlt
  have haccept := (exists_accept_iff h (u ++ [c] ++ v) k).1
    ⟨x, _, words_mul_words_le 0 t x (Language.append_mem_mul hw hv), hx, rfl⟩
  obtain ⟨i, rule, hi, hm, -⟩ := haccept
  exact ⟨v, Rule.isSome_winner?_iff.2 ⟨rule, List.mem_of_getElem? hi, hm⟩⟩

theorem not_winner_of_track {w : List Char}
    (hT : (ofRules rules).track (ofRules rules).root w = none) (v : List Char) :
    ¬ (Rule.winner? rules (w ++ v)).isSome := by
  have hnone : (ofRules rules).track (ofRules rules).root (w ++ v) = none := by
    rw [track_append, hT]
    rfl
  intro hsome
  obtain ⟨rule, hrule, hm⟩ := Rule.isSome_winner?_iff.1 hsome
  obtain ⟨k, hk⟩ := List.mem_iff_getElem?.1 hrule
  obtain ⟨q, s, hw, -⟩ := (exists_accept_iff h (w ++ v) (.ofNat k)).2 ⟨k, rule, hk, hm, rfl⟩
  exact not_mem_words_of_track hnone (List.mem_singleton_self 0) q hw

theorem answer_determinize_iff (hlen : rules.length ≤ 2 ^ 32 - 1) (w : List Char) (r : UInt32) :
    (ofRules rules).determinize.answer 0 w = some r ↔
      Rule.Viable rules w ∧ r = Rule.verdict rules w := by
  rw [Dfa.answer, follow_determinize getElem?_subsets_zero]
  cases hT : (ofRules rules).track (ofRules rules).root w with
  | none =>
      constructor
      · intro hr
        cases hr
      · rintro ⟨rfl | ⟨v, hv⟩, -⟩
        · cases hT
        · exact absurd hv (not_winner_of_track h hT v)
  | some T =>
      have hviable : Rule.Viable rules w := by
        by_cases hw : w = []
        · exact .inl hw
        · exact .inr (exists_winner_of_track h hw hT)
      have hrule : ((ofRules rules).stateOf T).rule = Rule.verdict rules w := by
        rw [stateOf, acceptOf_eq h hlen hT, Rule.verdict]
        cases Rule.winner? rules w <;> rfl
      rw [Option.map_some, Option.bind_some,
        getElem?_determinize (getElem?_idOf_of_track getElem?_subsets_zero hT), Option.map_some,
        hrule, Option.some.injEq, eq_comm]
      exact (and_iff_right hviable).symm

end Nfa

end Munch
