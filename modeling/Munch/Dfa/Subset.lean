import Munch.Dfa
import Munch.Nfa
import Munch.Numbering

namespace Munch.Nfa

variable (nfa : Nfa)

def moves (qs : List Nat) : Row (List Nat) := (Row.group (qs.flatMap nfa.edgesOf)).map nfa.closure

def explore (bound i : Nat) (sets : Numbering (List Nat)) : Numbering (List Nat) :=
  if i < bound then
    match sets.keys[i]? with
    | none => sets
    | some qs => explore bound (i + 1) (sets.addAll ((nfa.moves qs).entries.map (·.2)))
  else sets
termination_by bound - i

/-- The closed sets that words lead to, breadth first. There are no more sets than
the bound, so it is never met. -/
def subsets : Numbering (List Nat) :=
  nfa.explore (Nat.pow 2 nfa.states.size) 0 (.ofList [nfa.closure [nfa.start]])

def determinize : Dfa :=
  let sets := nfa.subsets
  ⟨sets.keys.map fun qs => ⟨(nfa.moves qs).map sets.idOf, (nfa.acceptOf qs).getD noRule⟩⟩

def strays (qs : List Nat) : Bool :=
  qs.any fun q =>
    (nfa.epsilonOf q).any (nfa.states.size ≤ ·) ||
      (nfa.edgesOf q).any fun e => nfa.states.size ≤ e.2

def determinize? : Option Dfa :=
  if nfa.states.size ≤ nfa.start || nfa.subsets.keys.any nfa.strays then none
  else some nfa.determinize

end Munch.Nfa
