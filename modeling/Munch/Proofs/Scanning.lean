import Mathlib.Order.Bounds.Basic
import Munch.Proofs.Compiled
import Munch.Scan

namespace Munch

/-- The offsets up to which the input from `s` on can still become a match. -/
def Rule.reach (rules : List Rule) (input : List Char) (s : Nat) : Set Nat :=
  {m | s ≤ m ∧ m ≤ input.length ∧ (m = s ∨ ∃ rule ∈ rules, ∃ w, input.extract s m <+: w ∧
    rule.pattern.matchesAll w.toArray = true)}

theorem Rule.mem_reach_iff {rules : List Rule} {input : List Char} {s m : Nat} :
    m ∈ reach rules input s ↔ s ≤ m ∧ m ≤ input.length ∧ Viable rules (input.extract s m) := by
  refine and_congr_right fun hs => and_congr_right fun hm => or_congr ?_ ?_
  · rw [← List.length_eq_zero_iff, List.extract_eq_take_drop, List.length_take, List.length_drop]
    omega
  · constructor
    · rintro ⟨rule, hrule, w, ⟨v, rfl⟩, hw⟩
      exact ⟨v, isSome_winner?_iff.2 ⟨rule, hrule, hw⟩⟩
    · rintro ⟨v, hv⟩
      obtain ⟨rule, hrule, hw⟩ := isSome_winner?_iff.1 hv
      exact ⟨rule, hrule, _, List.prefix_append _ v, hw⟩

theorem Cause.ofRest_drop (input : List Char) (m : Nat) :
    ofRest (input.drop m) = input[m]?.elim endOfInput symbol := by
  cases h : input[m]? with
  | none =>
      rw [List.drop_eq_nil_of_le (List.getElem?_eq_none_iff.1 h)]
      rfl
  | some c =>
      obtain ⟨hlt, rfl⟩ := List.getElem?_eq_some_iff.1 h
      rw [List.drop_eq_getElem_cons hlt]
      rfl

def Cursor.item (a : Automaton) (input : List Char) (s : Nat) (closed : Bool) :
    Except ScanFailure Token :=
  let stop := s + (a.run 0 (input.drop s)).length
  if closed then .ok ⟨s, stop, (a.run 0 (input.drop s)).state⟩
  else .error ⟨s, stop, input[stop]?.elim .endOfInput .symbol⟩

theorem Cursor.next_ofInput {a : Automaton} {input : List Char} {s : Nat} {closed : Bool}
    (hs : s < input.length) (h : a.closes (a.run 0 (input.drop s)) = .ok closed) :
    ∃ cur, (ofInput input s).next a = .ok (some (item a input s closed), cur) := by
  have hrest : (a.run 0 (input.drop s)).rest =
      input.drop (s + (a.run 0 (input.drop s)).length) := by
    rw [← List.drop_drop]
    exact (a.run_spec 0 (input.drop s)).2.1
  have hne : ¬ (false || (input.drop s).isEmpty) = true := by
    simp [hs]
  rw [next_eq_run, ofInput, if_neg hne]
  dsimp only
  rw [h, Nat.min_eq_left hs.le, item, ← Cause.ofRest_drop, ← hrest]
  cases closed
  · exact ⟨_, rfl⟩
  · exact ⟨_, rfl⟩

namespace Cursor

variable {a : Automaton} {cur cur' : Cursor}

theorem next_of_closes {s : Nat} {cs : List Char} {closed : Bool} (hne : cs ≠ [])
    (h : a.closes (a.run 0 cs) = .ok closed) :
    next a ⟨s, cs, false⟩ =
      let stop := s + (a.run 0 cs).length
      let rest := cs.drop (a.run 0 cs).length
      .ok (if closed then (some (.ok ⟨s, stop, (a.run 0 cs).state⟩), ⟨stop, rest, false⟩)
        else (some (.error ⟨s, stop, .ofRest rest⟩), ⟨stop, rest, true⟩)) := by
  have hgo : ¬ (false || cs.isEmpty) = true := by simpa using hne
  rw [next_eq_run, if_neg hgo]
  dsimp only
  rw [h, (a.run_spec 0 cs).2.1]
  rfl

theorem next_eq_ok {found : Option (Except ScanFailure Token)}
    (h : cur.next a = .ok (found, cur')) :
    let s := a.run 0 cur.rest
    let stop := cur.position + s.length
    (found = none ∧ cur' = cur) ∨
      (found = some (.ok ⟨cur.position, stop, s.state⟩) ∧ cur' = ⟨stop, s.rest, false⟩) ∨
      found = some (.error ⟨cur.position, stop, .ofRest s.rest⟩) ∧ cur' = ⟨stop, s.rest, true⟩ := by
  dsimp only
  by_cases hend : (cur.failed || cur.rest.isEmpty) = true
  · rw [next_eq_run, if_pos hend] at h
    cases h
    exact .inl ⟨rfl, rfl⟩
  · rw [next_eq_run, if_neg hend] at h
    dsimp only at h
    cases hcloses : a.closes (a.run 0 cur.rest) with
    | error d =>
        rw [hcloses] at h
        cases h
    | ok closed =>
        rw [hcloses] at h
        cases closed with
        | true =>
            cases h
            exact .inr (.inl ⟨rfl, rfl⟩)
        | false =>
            cases h
            exact .inr (.inr ⟨rfl, rfl⟩)

theorem drain_of_token {tok : Token} (h : cur.next a = .ok (some (.ok tok), cur')) :
    (cur.drain a).tokens = tok :: (cur'.drain a).tokens ∧
      (cur.drain a).ending = (cur'.drain a).ending := by
  rw [drain]
  split <;> simp_all

theorem drain_of_failure {e : ScanFailure} (h : cur.next a = .ok (some (.error e), cur')) :
    (cur.drain a).tokens = [] ∧ (cur.drain a).ending = .failed e := by
  rw [drain]
  split <;> simp_all

theorem drain_nil (a : Automaton) (s : Nat) :
    (drain a ⟨s, [], false⟩).tokens = [] ∧ (drain a ⟨s, [], false⟩).ending = .complete := by
  have hnext : next a ⟨s, [], false⟩ = .ok (none, ⟨s, [], false⟩) := rfl
  rw [drain]
  split <;> simp_all

end Cursor

namespace Tables

variable {rules : List Rule} {t : Tables}

theorem isGreatest_reach (hlen : rules.length ≤ 2 ^ 32 - 1) (ht : ofRules? rules = .ok t)
    (input : List Char) {s : Nat} (hs : s ≤ input.length) :
    IsGreatest (Rule.reach rules input s) (s + (t.automaton.run 0 (input.drop s)).length) := by
  have hrun := t.automaton.length_run 0 (input.drop s)
  rw [List.length_drop] at hrun
  constructor
  · refine Rule.mem_reach_iff.2 ⟨Nat.le_add_right _ _, by omega, ?_⟩
    rw [List.extract_eq_take_drop, Nat.add_sub_cancel_left]
    rcases follow_cases hlen ht ((input.drop s).take (t.automaton.run 0 (input.drop s)).length) with
      ⟨-, hnone⟩ | ⟨hviable, -⟩
    · rw [(t.automaton.run_spec 0 (input.drop s)).1] at hnone
      cases hnone
    · exact hviable
  · intro m hm
    obtain ⟨hsm, hm, hviable⟩ := Rule.mem_reach_iff.1 hm
    rw [List.extract_eq_take_drop] at hviable
    rcases follow_cases hlen ht ((input.drop s).take (m - s)) with ⟨hnot, -⟩ | ⟨-, q, hq, -⟩
    · exact absurd hviable hnot
    · have hle := Automaton.le_length_run (by rw [List.length_drop]; omega) hq
      omega

theorem closes_run (hlen : rules.length ≤ 2 ^ 32 - 1) (ht : ofRules? rules = .ok t)
    (cs : List Char) :
    t.ruleAt (t.automaton.run 0 cs).state =
        (Rule.winner? rules (cs.take (t.automaton.run 0 cs).length)).map .ofNat ∧
      t.automaton.closes (t.automaton.run 0 cs) =
        .ok ((Rule.winner? rules (cs.take (t.automaton.run 0 cs).length)).isSome &&
          0 < (t.automaton.run 0 cs).length) := by
  obtain ⟨hrange, hpos⟩ := inRange_of_ofRules? ht
  have hfollow := (t.automaton.run_spec 0 cs).1
  rcases follow_cases hlen ht (cs.take (t.automaton.run 0 cs).length) with
    ⟨-, hnone⟩ | ⟨-, q, hq, hrule, haccept⟩
  · rw [hfollow] at hnone
    cases hnone
  · cases hfollow.symm.trans hq
    refine ⟨hrule, ?_⟩
    rw [Automaton.closes_run hrange hpos, haccept]
    rfl

/-- The first item of a scan from `s` on. It ends where no longer match is possible, and it is a
token if it is a match itself. -/
theorem first_item (hlen : rules.length ≤ 2 ^ 32 - 1) (ht : ofRules? rules = .ok t)
    (input : List Char) {s : Nat} (hs : s < input.length) :
    ∃ m item cur, IsGreatest (Rule.reach rules input s) m ∧
      (Cursor.ofInput input s).next t.automaton = .ok (some item, cur) ∧
      (∀ i, s < m → Rule.winner? rules (input.extract s m) = some i →
        ∃ q, item = .ok ⟨s, m, q⟩ ∧ t.ruleAt q = some (.ofNat i)) ∧
      (m = s ∨ Rule.winner? rules (input.extract s m) = none →
        item = .error ⟨s, m, input[m]?.elim .endOfInput .symbol⟩) := by
  have hgreatest := isGreatest_reach hlen ht input hs.le
  obtain ⟨hrule, hcloses⟩ := closes_run hlen ht (input.drop s)
  obtain ⟨cur, hcur⟩ := Cursor.next_ofInput hs hcloses
  have hword : input.extract s (s + (t.automaton.run 0 (input.drop s)).length) =
      (input.drop s).take (t.automaton.run 0 (input.drop s)).length := by
    rw [List.extract_eq_take_drop, Nat.add_sub_cancel_left]
  rw [← hword] at hrule hcur
  refine ⟨_, _, cur, hgreatest, hcur, fun i hlt hi => ?_, fun hnone => ?_⟩
  · refine ⟨(t.automaton.run 0 (input.drop s)).state, ?_, ?_⟩
    · have hpos : 0 < (t.automaton.run 0 (input.drop s)).length := by omega
      rw [hi, Cursor.item, if_pos (by simp [hpos])]
    · rw [hrule, hi, Option.map_some]
  · rw [Cursor.item, if_neg]
    rcases hnone with hzero | hnone
    · have hzero : (t.automaton.run 0 (input.drop s)).length = 0 := by omega
      simp [hzero]
    · rw [hnone]
      exact Bool.false_ne_true

theorem first_item_keyword :
    ∃ q cur, (Cursor.ofInput ['i', 'f'] 0).next (ofRules keywordRules).automaton =
        .ok (some (.ok ⟨0, 2, q⟩), cur) ∧ (ofRules keywordRules).ruleAt q = some 0 := by
  have hok : ofRules? keywordRules = .ok (ofRules keywordRules) := rfl
  obtain ⟨m, item, cur, hm, hnext, htoken, -⟩ :=
    first_item (by decide) hok ['i', 'f'] (s := 0) (by decide)
  have hmem : 2 ∈ Rule.reach keywordRules ['i', 'f'] 0 :=
    ⟨by decide, by decide, .inr ⟨_, List.mem_cons_self, ['i', 'f'], List.prefix_rfl, by decide⟩⟩
  have hle : m ≤ 2 := hm.1.2.1
  have hge : 2 ≤ m := hm.2 hmem
  obtain rfl : m = 2 := Nat.le_antisymm hle hge
  obtain ⟨q, rfl, hq⟩ := htoken 0 (by decide) (by decide)
  exact ⟨q, cur, hnext, hq⟩

end Tables

end Munch
