import Munch.Proofs.Parts

namespace Munch.Nfa

open Nfa.Graph Pattern

/-- The patterns that are grown for the rules, on the graphs that they are grown on. -/
inductive Grown (rules : List Rule) : Pattern → Graph → Prop
  | rule {before after : List Rule} {rule : Rule} (h : rules = before ++ rule :: after) :
      Grown rules rule.pattern (growRules before 0 #[{}])
  | part {p p' : Pattern} {g g' : Graph} (h : Grown rules p g) (hpart : Part p g p' g') :
      Grown rules p' g'

/-- Growing the pattern has made a block of new states with no moves out of it and no moves at its
exit. In the end only the exit leads out of the block, and moves into it lead to its entry. -/
structure Block (nfa : Nfa) (p : Pattern) (g : Graph) : Prop where
  size_eq : (p.grow g).1.size = g.size + p.stateCount
  shape : Shape g (p.grow g).1 (p.grow g).2.entry [(p.grow g).2.exit]
  keeps : Keeps g (p.grow g).1 nfa.states [(p.grow g).2.exit]
  leaves : ∀ q t, Graph.Leads nfa.states q t → g.size ≤ q → q < g.size + p.stateCount →
    q ≠ (p.grow g).2.exit → g.size ≤ t ∧ t < g.size + p.stateCount
  enters : ∀ q t, Graph.Leads nfa.states q t → g.size ≤ t → t < g.size + p.stateCount →
    t ≠ (p.grow g).2.entry →
    g.size ≤ q ∧ q < g.size + p.stateCount ∧ q ≠ (p.grow g).2.exit

section Hang

variable {base g G : Graph} {f : Fragment} {rule : Rule} {rules : List Rule}

theorem closed_hang (hp : rule.pattern.flaw? = none) (hc : G.Closed) (i : Nat) :
    (hang i rule G).Closed := by
  have hs := shape_grow hp G
  intro q t hqt
  rw [size_hang]
  rcases leads_link (leads_accept hqt) with hold | rfl
  · exact hs.closed hc q t hold
  · exact hs.entry_lt

theorem Kept.hang (h : Kept base g f G) (hpos : 0 < base.size) (hp : rule.pattern.flaw? = none)
    (i : Nat) : Kept base g f (hang i rule G) := by
  have hs := shape_grow hp G
  have hexit := h.outside (hs.exit_ge _ (List.mem_singleton_self _)) [f.exit]
  exact ((h.grow hs).link (.inl hpos) (h.outside hs.entry_ge _)).accept hexit _

theorem kept_hang_self (hpos : 0 < g.size) (hp : rule.pattern.flaw? = none) (hc : g.Closed)
    (i : Nat) :
    Kept g (rule.pattern.grow g).1 (rule.pattern.grow g).2 (Nfa.hang i rule g) :=
  ((kept_self hp hc).link (.inl hpos) (outside_entry _ g)).accept (outside_exit _ g) _

theorem growRules_append (before after : List Rule) (i : Nat) (g : Graph) :
    growRules (before ++ after) i g =
      growRules after (i + before.length) (growRules before i g) := by
  induction before generalizing i g with
  | nil => rfl
  | cons rule before ih =>
      rw [List.cons_append, growRules_cons, growRules_cons, ih, List.length_cons,
        Nat.add_right_comm, Nat.add_assoc]

variable (h : ∀ rule ∈ rules, rule.pattern.flaw? = none)

include h

theorem closed_growRules (hc : G.Closed) (i : Nat) : (growRules rules i G).Closed := by
  induction rules generalizing G i with
  | nil => exact hc
  | cons rule rules ih =>
      have hrest : ∀ r ∈ rules, r.pattern.flaw? = none :=
        fun r hr => h r (List.mem_cons_of_mem rule hr)
      exact ih hrest (closed_hang (h rule List.mem_cons_self) hc i) (i + 1)

theorem Kept.growRules (hk : Kept base g f G) (hpos : 0 < base.size) (i : Nat) :
    Kept base g f (growRules rules i G) := by
  induction rules generalizing G i with
  | nil => exact hk
  | cons rule rules ih =>
      have hrest : ∀ r ∈ rules, r.pattern.flaw? = none :=
        fun r hr => h r (List.mem_cons_of_mem rule hr)
      exact ih hrest (hk.hang hpos (h rule List.mem_cons_self) i) (i + 1)

end Hang

namespace Grown

variable {rules : List Rule} {p : Pattern} {g : Graph}

theorem kept (hflaw : ∀ rule ∈ rules, rule.pattern.flaw? = none) (h : Grown rules p g) :
    p.flaw? = none ∧ g.Closed ∧
      Kept g (p.grow g).1 (p.grow g).2 (ofRules rules).states := by
  induction h with
  | @rule before after rule h =>
      subst rules
      have hbefore : ∀ r ∈ before, r.pattern.flaw? = none :=
        fun r hr => hflaw r (List.mem_append_left _ hr)
      have hafter : ∀ r ∈ after, r.pattern.flaw? = none :=
        fun r hr => hflaw r (List.mem_append_right _ (List.mem_cons_of_mem _ hr))
      have hp : rule.pattern.flaw? = none :=
        hflaw rule (List.mem_append_right _ List.mem_cons_self)
      have hroot : Graph.Closed #[{}] := by
        rintro q t ⟨s, hs, ht⟩
        obtain rfl : s = {} := List.mem_singleton.1 (Array.mem_toList_iff.2
          (Array.mem_of_getElem? hs))
        exact absurd ht State.not_leads_bare
      have hclosed := closed_growRules hbefore hroot 0
      have hpos : 0 < (growRules before 0 #[{}]).size := by
        rw [size_growRules hbefore]
        exact Nat.add_pos_left Nat.zero_lt_one _
      refine ⟨hp, hclosed, ?_⟩
      rw [ofRules, growRules_append, growRules_cons]
      exact (kept_hang_self hpos hp hclosed _).growRules hafter hpos _
  | part _ hpart ih =>
      obtain ⟨hp, hc, hkept⟩ := ih
      exact ⟨hpart.flaw?_eq_none hp, hpart.closed hp hc,
        (hpart.kept hp hc).trans hkept (hpart.base_le hp) (hpart.outside_exit hp hc)
          (hpart.outside_entry hp)⟩

theorem block (hflaw : ∀ rule ∈ rules, rule.pattern.flaw? = none) (h : Grown rules p g) :
    (ofRules rules).Block p g := by
  obtain ⟨hp, -, hkept⟩ := h.kept hflaw
  have hsize := size_grow hp g
  have hshape := shape_grow hp g
  refine ⟨hsize, hshape, hkept.keeps, fun q t hqt hq hlt hne => ?_, fun q t hqt ht hlt hne => ?_⟩
  · rw [← hsize] at hlt ⊢
    obtain ⟨s, hs, ht⟩ := hqt.of_eq (hkept.keeps q hq hlt (List.mem_singleton.not.2 hne)).symm
    exact (hshape.within q s hq hs).leads ht
  · by_contra hout
    have hq : Outside g (p.grow g).1 [(p.grow g).2.exit] q := by
      rw [Outside, List.mem_singleton]
      omega
    rcases hkept.enters q t hqt hq with hlt' | hge | hmem
    · omega
    · omega
    · exact hne (List.mem_singleton.1 hmem)

theorem exists_end (h : Grown rules p g) {q : Nat} (hq : g.size ≤ q)
    (hlt : q < (p.grow g).1.size) :
    ∃ p' g', Grown rules p' g' ∧ (q = (p'.grow g').2.entry ∨ q = (p'.grow g').2.exit) := by
  induction hn : sizeOf p using Nat.strong_induction_on generalizing p g with
  | h n ih =>
      rcases exists_part hq hlt with hentry | hexit | ⟨p', g', hpart, hq', hlt'⟩
      · exact ⟨p, g, h, .inl hentry⟩
      · exact ⟨p, g, h, .inr hexit⟩
      · exact ih _ (hn ▸ hpart.sizeOf_lt) (h.part hpart) hq' hlt' rfl

end Grown

theorem exists_rule_of_lt {rules : List Rule} {q : Nat} (hq : 0 < q)
    (hlt : q < (growRules rules 0 #[{}]).size) :
    ∃ before rule after, rules = before ++ rule :: after ∧
      (growRules before 0 #[{}]).size ≤ q ∧
      q < (rule.pattern.grow (growRules before 0 #[{}])).1.size := by
  induction rules using List.reverseRecOn with
  | nil => exact absurd hlt (Nat.not_lt.2 hq)
  | append_singleton rules rule ih =>
      rcases Nat.lt_or_ge q (growRules rules 0 #[{}]).size with hbefore | hge
      · obtain ⟨before, rule', after, rfl, hin⟩ := ih hbefore
        refine ⟨before, rule', after ++ [rule], ?_, hin⟩
        rw [List.append_assoc, List.cons_append]
      · rw [growRules_append, growRules_cons, growRules, size_hang] at hlt
        exact ⟨rules, rule, [], rfl, hge, hlt⟩

/-- The graph of the rules has one state beside those that the sizes of the patterns give. Each
pattern that is grown for it has a block of its own, and each state but the first is an end of
one. -/
theorem ofRules_blocks {rules : List Rule} {nfa : Nfa} (h : ofRules? rules = .ok nfa) :
    nfa.states.size = 1 + (rules.map (·.pattern.stateCount)).sum ∧
      (∀ p g, Grown rules p g → nfa.Block p g) ∧
      ∀ q, 0 < q → q < nfa.states.size →
        ∃ p g, Grown rules p g ∧ (q = (p.grow g).2.entry ∨ q = (p.grow g).2.exit) := by
  obtain ⟨hflaw, rfl⟩ := ofRules?_eq_ok h
  refine ⟨size_growRules hflaw 0 #[{}], fun p g hgrown => hgrown.block hflaw,
    fun q hq hlt => ?_⟩
  obtain ⟨before, rule, after, hrules, hge, hin⟩ := exists_rule_of_lt hq hlt
  exact (Grown.rule hrules).exists_end hge hin

theorem ofRules_blocks_nested :
    (ofRules nestedRules).states.size = 21 ∧ ∃ g : Graph, g.size = 13 ∧
      Grown nestedRules (.literal 'a') g ∧ (ofRules nestedRules).Block (.literal 'a') g := by
  have hok : ofRules? nestedRules = .ok (ofRules nestedRules) := rfl
  obtain ⟨hsize, hblocks, -⟩ := ofRules_blocks hok
  have hrule : Grown nestedRules _ _ := .rule (List.nil_append nestedRules).symm
  have hgrown := (hrule.part (.circle _ _ 1)).part (.optional _ _ (by decide : 1 < 2 - 0))
  exact ⟨hsize, _, rfl, hgrown, hblocks _ _ hgrown⟩

end Munch.Nfa
