import Munch.Tables

namespace Munch

structure Dfa.State where
  next : Row Nat
  rule : UInt32
  deriving DecidableEq

structure Dfa where
  states : Array Dfa.State
  deriving DecidableEq

namespace Dfa

def State.isAccepting (s : State) : Bool := s.rule ≠ noRule

variable (d : Dfa)

def automaton : Automaton := ⟨d.states.map (·.next), d.states.map (·.isAccepting)⟩

def toTables (names : List String) : Tables := ⟨d.automaton, d.states.map (·.rule), names⟩

/-- Pairs rows and rules up, as far as there are both. -/
def ofTables (t : Tables) : Dfa := ⟨t.automaton.states.zipWith State.mk t.ruleOf⟩

end Dfa

end Munch
