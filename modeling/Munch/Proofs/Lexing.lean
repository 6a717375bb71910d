import Munch.Proofs.Grammar
import Munch.Proofs.Scanning

namespace Munch

open Direct

namespace TokenKind

theorem mem_all (k : TokenKind) : k ∈ all := by
  cases k <;> simp [all]

theorem length_rules_le : rules.length ≤ 2 ^ 32 - 1 := by
  decide

theorem flaw?_rules : Rule.flaw? rules = none := rfl

theorem matchesAll_iff (k : TokenKind) (w : List Char) :
    k.pattern.matchesAll w.toArray = true ↔ front w = .token k w.length := by
  have hmem : (⟨k.name, k.pattern⟩ : Rule) ∈ rules := List.mem_map.2 ⟨k, k.mem_all, rfl⟩
  have hflaw := Rule.pattern_flaw?_eq_none flaw?_rules _ hmem
  rw [Pattern.matchesAll_iff (Pattern.countsOrdered_of_flaw? hflaw)]
  constructor
  · exact front_of_mem_language
  · intro h
    have hw := (mem_language_of_front h).2
    rwa [List.take_length] at hw

theorem isSome_winner?_iff {w : List Char} :
    (Rule.winner? rules w).isSome ↔ ∃ k, front w = .token k w.length := by
  rw [Rule.isSome_winner?_iff]
  constructor
  · rintro ⟨rule, hrule, hw⟩
    obtain ⟨k, -, rfl⟩ := List.mem_map.1 hrule
    exact ⟨k, (matchesAll_iff k w).1 hw⟩
  · rintro ⟨k, hk⟩
    exact ⟨_, List.mem_map.2 ⟨k, k.mem_all, rfl⟩, (matchesAll_iff k w).2 hk⟩

/-- No word is of two kinds, so priorities do not matter. -/
theorem winner?_of_front {w : List Char} {k : TokenKind} (h : front w = .token k w.length) :
    ∃ i, Rule.winner? rules w = some i ∧ ofRule? (.ofNat i) = some k := by
  obtain ⟨i, hi⟩ := Option.isSome_iff_exists.1 (isSome_winner?_iff.2 ⟨k, h⟩)
  have hlt := (Rule.winner?_lt hi).trans_le length_rules_le
  obtain ⟨⟨rule, hrule, hw⟩, -⟩ := Rule.winner?_eq_some_iff.1 hi
  rw [rules, List.getElem?_map] at hrule
  obtain ⟨k', hk', rfl⟩ := Option.map_eq_some_iff.1 hrule
  cases h.symm.trans ((matchesAll_iff k' w).1 hw)
  refine ⟨i, hi, ?_⟩
  rw [ofRule?, UInt32.toNat_ofNat_of_lt' (by rw [UInt32.size]; omega), hk']

theorem viable_front (cs : List Char) :
    (front cs).length ≤ cs.length ∧ Rule.Viable rules (cs.take (front cs).length) := by
  cases h : front cs with
  | token k n =>
      obtain ⟨hle, hmem⟩ := mem_language_of_front h
      refine ⟨hle, .inr ⟨[], isSome_winner?_iff.2 ⟨k, ?_⟩⟩⟩
      rw [List.append_nil]
      exact front_of_mem_language hmem
  | failure n cause =>
      obtain ⟨hle, -, rfl | ⟨-, v, hv⟩⟩ := front_eq_failure h
      · exact ⟨hle, .inl rfl⟩
      · refine ⟨hle, .inr ⟨v, isSome_winner?_iff.2 ⟨.blockComment, ?_⟩⟩⟩
        rw [Front.length, hv, List.length_append, List.length_take_of_le hle]

theorem not_viable_beyond_front {cs : List Char} (h : (front cs).length < cs.length) :
    ¬ Rule.Viable rules (cs.take ((front cs).length + 1)) := by
  rintro (hnil | ⟨v, hv⟩)
  · have hlen := congrArg List.length hnil
    rw [List.length_take_of_le h] at hlen
    cases hlen
  · obtain ⟨k, hk⟩ := isSome_winner?_iff.1 hv
    rw [front_take_append h] at hk
    have hlen := congrArg Front.length hk
    rw [Front.length, List.length_append, List.length_take_of_le h] at hlen
    omega

end TokenKind

theorem Rule.Viable.of_prefix {rules : List Rule} {u w : List Char} (h : Viable rules w)
    (hu : u <+: w) : Viable rules u := by
  obtain ⟨v, rfl⟩ := hu
  rcases h with hnil | ⟨x, hx⟩
  · exact .inl (List.append_eq_nil_iff.1 hnil).1
  · rw [List.append_assoc] at hx
    exact .inr ⟨v ++ x, hx⟩

/-- The scan has tokens of known kinds only, and with its ending they give the result. -/
def Scan.Tells (t : Tables) (input : List Char) (s : Scan)
    (result : Except ScanFailure (List Lexeme)) : Prop :=
  (∀ tok ∈ s.tokens, ((t.ruleAt tok.state).bind TokenKind.ofRule?).isSome) ∧
    ∃ ls, t.lexemes input s.tokens = .ok ls ∧
      (s.ending = .complete ∧ result = .ok ls ∨ ∃ e, s.ending = .failed e ∧ result = .error e)

namespace Tables

theorem lexemes_cons {t : Tables} {input : List Char} {tok : Token} {toks : List Token}
    {k : TokenKind} {ls : List Lexeme} (hk : (t.ruleAt tok.state).bind TokenKind.ofRule? = some k)
    (hls : t.lexemes input toks = .ok ls) :
    t.lexemes input (tok :: toks) =
      .ok (if k.isTrivia then ls else ⟨k, tok.start, tok.stop - tok.start⟩ :: ls) := by
  rw [lexemes, hk, hls]
  rfl

variable {t : Tables} (ht : ofRules? TokenKind.rules = .ok t)

include ht

theorem length_run_eq_front (cs : List Char) :
    (t.automaton.run 0 cs).length = (front cs).length := by
  have hgreatest := isGreatest_reach TokenKind.length_rules_le ht cs (s := 0) (Nat.zero_le _)
  rw [List.drop_zero, Nat.zero_add] at hgreatest
  obtain ⟨-, hle, hviable⟩ := Rule.mem_reach_iff.1 hgreatest.1
  apply Nat.le_antisymm
  · -- One symbol more would be a beginning of a word, but the front ends before it.
    by_contra hlt
    have hlt := Nat.not_le.1 hlt
    apply TokenKind.not_viable_beyond_front (hlt.trans_le hle)
    apply hviable.of_prefix
    exact List.take_prefix_take_left hlt
  · obtain ⟨hfront, hviable⟩ := TokenKind.viable_front cs
    apply hgreatest.2
    exact Rule.mem_reach_iff.2 ⟨Nat.zero_le _, hfront, hviable⟩

theorem next_of_front_token {cs : List Char} {k : TokenKind} {n : Nat} (h : front cs = .token k n)
    (s : Nat) :
    ∃ q, (t.ruleAt q).bind TokenKind.ofRule? = some k ∧
      Cursor.next t.automaton ⟨s, cs, false⟩ =
        .ok (some (.ok ⟨s, s + n, q⟩), ⟨s + n, cs.drop n, false⟩) := by
  have hlen : (t.automaton.run 0 cs).length = n := by
    rw [length_run_eq_front ht, h, Front.length]
  have hne : cs ≠ [] := by
    rintro rfl
    cases h
  obtain ⟨hrule, hcloses⟩ := closes_run TokenKind.length_rules_le ht cs
  obtain ⟨i, hi, hkind⟩ := TokenKind.winner?_of_front
    (front_of_mem_language (mem_language_of_front h).2)
  rw [hlen, hi] at hrule hcloses
  refine ⟨(t.automaton.run 0 cs).state, ?_, ?_⟩
  · rw [hrule]
    exact hkind
  · rw [Cursor.next_of_closes hne hcloses, hlen]
    simp [pos_of_front_eq_token h]

theorem next_of_front_failure {cs : List Char} {n : Nat} {cause : Cause} (hne : cs ≠ [])
    (h : front cs = .failure n cause) (s : Nat) :
    Cursor.next t.automaton ⟨s, cs, false⟩ =
      .ok (some (.error ⟨s, s + n, cause⟩), ⟨s + n, cs.drop n, true⟩) := by
  have hlen : (t.automaton.run 0 cs).length = n := by
    rw [length_run_eq_front ht, h, Front.length]
  obtain ⟨hle, rfl, hopen⟩ := front_eq_failure h
  obtain ⟨-, hcloses⟩ := closes_run TokenKind.length_rules_le ht cs
  have hclosed : ((Rule.winner? TokenKind.rules (cs.take n)).isSome && decide (0 < n)) = false := by
    rcases hopen with rfl | ⟨hopen, -⟩
    · exact Bool.and_false _
    · rw [Bool.and_eq_false_iff]
      left
      rw [← Bool.not_eq_true, TokenKind.isSome_winner?_iff]
      rintro ⟨k, hk⟩
      rw [List.length_take_of_le hle] at hk
      exact hopen k hk
  rw [hlen, hclosed] at hcloses
  rw [Cursor.next_of_closes hne hcloses, hlen]
  rfl

theorem drain_tells (input : List Char) (s : Nat) (cs : List Char) :
    (Cursor.drain t.automaton ⟨s, cs, false⟩).Tells t input (lexFrom s cs) := by
  fun_induction lexFrom s cs with
  | case1 s =>
      obtain ⟨htokens, hending⟩ := Cursor.drain_nil t.automaton s
      rw [Scan.Tells, htokens, hending]
      exact ⟨fun tok htok => absurd htok List.not_mem_nil, [], rfl, .inl ⟨rfl, rfl⟩⟩
  | case2 s c cs n cause hfront =>
      have hnext := next_of_front_failure ht (List.cons_ne_nil c cs) hfront s
      obtain ⟨htokens, hending⟩ := Cursor.drain_of_failure hnext
      rw [Scan.Tells, htokens, hending]
      exact ⟨fun tok htok => absurd htok List.not_mem_nil, [], rfl, .inr ⟨_, rfl, rfl⟩⟩
  | case3 s c cs k n hfront ih =>
      obtain ⟨q, hkind, hnext⟩ := next_of_front_token ht hfront s
      obtain ⟨htokens, hending⟩ := Cursor.drain_of_token hnext
      obtain ⟨hknown, ls, hls, hresult⟩ := ih
      rw [Scan.Tells, htokens, hending, List.forall_mem_cons]
      refine ⟨⟨by rw [hkind]; rfl, hknown⟩, _, lexemes_cons hkind hls, ?_⟩
      rw [Nat.add_sub_cancel_left]
      rcases hresult with ⟨hcomplete, hlex⟩ | ⟨e, hfailed, hlex⟩
      · rw [hlex]
        exact .inl ⟨hcomplete, rfl⟩
      · rw [hlex]
        exact .inr ⟨e, hfailed, rfl⟩

omit ht in
/-- The built-in grammar compiles to a lexer that does what the direct one does. It knows the kind of
every token. -/
theorem lex_builtin :
    ∃ t, ofRules? TokenKind.rules = .ok t ∧ ∀ input,
      t.lex input = (Direct.lex input).mapError .scan ∧
        ∀ tok ∈ (t.automaton.scan input).tokens,
          ((t.ruleAt tok.state).bind TokenKind.ofRule?).isSome := by
  have ht : ofRules? TokenKind.rules = .ok (ofRules TokenKind.rules) := by
    rw [ofRules?, TokenKind.flaw?_rules]
  refine ⟨_, ht, fun input => ?_⟩
  have hscan : (ofRules TokenKind.rules).automaton.scan input =
      Cursor.drain (ofRules TokenKind.rules).automaton ⟨0, input, false⟩ := by
    rw [Automaton.scan, Cursor.ofInput, Nat.zero_min, List.drop_zero]
  obtain ⟨hknown, ls, hls, hresult⟩ := drain_tells ht input 0 input
  rw [lex, Direct.lex, hscan, hls]
  refine ⟨?_, hknown⟩
  rcases hresult with ⟨hcomplete, hlex⟩ | ⟨e, hfailed, hlex⟩
  · rw [hcomplete, hlex]
    rfl
  · rw [hfailed, hlex]
    rfl

end Tables

end Munch
