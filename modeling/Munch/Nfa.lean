import Munch.Rule

namespace Munch

structure Nfa.State where
  edges : List (Char × Nat) := []
  epsilon : List Nat := []
  accept : Option UInt32 := none

structure Nfa where
  states : Array Nfa.State
  start : Nat

namespace Nfa

variable (nfa : Nfa)

def edgesOf (q : Nat) : List (Char × Nat) := nfa.states[q]?.elim [] (·.edges)

def epsilonOf (q : Nat) : List Nat := nfa.states[q]?.elim [] (·.epsilon)

def reach (pending : List Nat) (seen : Array Bool) : Array Bool :=
  match pending with
  | [] => seen
  | q :: pending =>
    if h : ∃ hq : q < seen.size, seen[q] = false then
      reach (nfa.epsilonOf q ++ pending) (seen.set q true h.1)
    else reach pending seen
termination_by (seen.count false, pending.length)
decreasing_by
  · refine Prod.Lex.left _ _ ?_
    obtain ⟨hq, hf⟩ := h
    have : 0 < seen.count false := Array.count_pos_iff.2 (hf ▸ Array.getElem_mem hq)
    rw [Array.count_set, hf, if_pos (by decide), if_neg (by decide)]
    omega
  · exact Prod.Lex.right _ (by simp)

def closure (seeds : List Nat) : List Nat :=
  let seen := nfa.reach seeds (Array.replicate nfa.states.size false)
  (List.range nfa.states.size).filter (seen.getD · false)

/-- Like `closure`, but fails on meeting a state that does not exist. -/
def closure? (seeds : List Nat) : Option (List Nat) :=
  let reached := nfa.closure seeds
  if (seeds ++ reached.flatMap nfa.epsilonOf).all (· < nfa.states.size) then some reached else none

def acceptOf (qs : List Nat) : Option UInt32 :=
  (qs.filterMap fun q => nfa.states[q]?.bind (·.accept)).min?

end Nfa

end Munch
