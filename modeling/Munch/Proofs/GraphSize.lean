import Munch.Proofs.RuleExits

namespace Munch

def Pattern.stateCount : Pattern → Nat
  | literal _ | range _ _ => 2
  | concat p q => p.stateCount + q.stateCount
  | alternate p q => p.stateCount + q.stateCount + 2
  | repeated p least none => 2 + (least + 1) * p.stateCount
  | repeated p _ (some most) => 2 + most * p.stateCount

namespace Nfa

open Nfa.Graph

section Copies

variable {grow : Graph → Graph × Fragment} {n : Nat}
variable (hgrow : ∀ g, (grow g).1.size = g.size + n)

include hgrow

theorem size_chain (k : Nat) (g : Graph) (last : Nat) :
    (chain grow k g last).1.size = g.size + k * n := by
  induction k generalizing g last with
  | zero => rw [chain, Nat.zero_mul, Nat.add_zero]
  | succ k ih =>
      rw [chain, ih, size_link, hgrow, Nat.succ_mul]
      omega

theorem size_chainOut (out k : Nat) (g : Graph) (last : Nat) :
    (chainOut grow out k g last).1.size = g.size + k * n := by
  induction k generalizing g last with
  | zero => rw [chainOut, Nat.zero_mul, Nat.add_zero]
  | succ k ih =>
      rw [chainOut, ih, size_link, size_link, hgrow, Nat.succ_mul]
      omega

end Copies

end Nfa

namespace Pattern

open Nfa Nfa.Graph

def copies (p : Pattern) (k : Nat) (g : Graph) : Graph × Nat := chain p.grow k (g.add {}) g.size

/-- The exit of a repetition behind its first copies, and more copies that can be left by it. -/
def moreCopies (p : Pattern) (least k : Nat) (g : Graph) : Graph × Nat :=
  chainOut p.grow (p.copies least g).1.size k ((p.copies least g).1.add {}) (p.copies least g).2

theorem grow_repeated_none (p : Pattern) (least : Nat) (g : Graph) :
    (repeated p least none).grow g =
      let c := p.copies least g
      let r := p.grow (c.1.add {})
      ((((r.1.link c.2 r.2.entry).link c.2 c.1.size).link r.2.exit r.2.entry).link
        r.2.exit c.1.size, ⟨g.size, c.1.size⟩) := rfl

theorem grow_repeated_some (p : Pattern) (least most : Nat) (g : Graph) :
    (repeated p least (some most)).grow g =
      let c := p.moreCopies least (most - least) g
      (c.1.link c.2 (p.copies least g).1.size, ⟨g.size, (p.copies least g).1.size⟩) := rfl

theorem flaw?_body {p : Pattern} {least most : Nat}
    (h : (repeated p least (some most)).flaw? = none) :
    least ≤ most ∧ (most ≠ 0 → p.flaw? = none) := by
  rw [flaw?] at h
  split at h
  · cases h
  · refine ⟨Nat.not_lt.1 ‹_›, fun hne => ?_⟩
    rwa [if_neg hne] at h

theorem size_grow {p : Pattern} (h : p.flaw? = none) (g : Graph) :
    (p.grow g).1.size = g.size + p.stateCount := by
  induction p generalizing g with
  | literal c => exact Ways.size_bridge g [c]
  | range lo hi => exact Ways.size_bridge g (symbols lo hi)
  | concat p q ihp ihq =>
      obtain ⟨hp, hq⟩ := Option.or_eq_none_iff.1 h
      rw [grow, size_link, ihq hq, ihp hp, stateCount, Nat.add_assoc]
  | alternate p q ihp ihq =>
      obtain ⟨hp, hq⟩ := Option.or_eq_none_iff.1 h
      rw [grow, size_link, size_link, size_add, size_add, ihq hq, ihp hp, stateCount]
      omega
  | repeated p least most ih =>
      cases most with
      | none =>
          have hp : p.flaw? = none := h
          rw [grow_repeated_none]
          simp only [size_link]
          rw [ih hp, size_add, copies, size_chain (ih hp), size_add, stateCount, Nat.succ_mul]
          omega
      | some most =>
          obtain ⟨hle, hp⟩ := flaw?_body h
          rw [grow_repeated_some]
          simp only [size_link]
          rcases Nat.eq_zero_or_pos most with rfl | hpos
          · -- No copy is made, so the body may have a flaw.
            obtain rfl := Nat.le_zero.1 hle
            rw [stateCount, Nat.zero_mul]
            exact (size_add _ _).trans (congrArg (· + 1) (size_add g {}))
          · have hgrow := ih (hp hpos.ne')
            obtain ⟨k, rfl⟩ := Nat.exists_eq_add_of_le hle
            rw [moreCopies, size_chainOut hgrow, size_add, copies, size_chain hgrow, size_add,
              stateCount, Nat.add_sub_cancel_left, Nat.add_mul]
            omega

end Pattern

namespace Nfa

theorem size_growRules {rules : List Rule} (h : ∀ rule ∈ rules, rule.pattern.flaw? = none)
    (i : Nat) (g : Graph) :
    (growRules rules i g).size = g.size + (rules.map (·.pattern.stateCount)).sum := by
  induction rules generalizing i g with
  | nil => rfl
  | cons rule rules ih =>
      rw [growRules_cons, ih fun r hr => h r (List.mem_cons_of_mem rule hr), size_hang,
        Pattern.size_grow (h rule List.mem_cons_self), List.map_cons, List.sum_cons, Nat.add_assoc]

end Nfa

end Munch
