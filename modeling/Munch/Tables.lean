import Munch.Automaton
import Munch.Rule

namespace Munch

structure Tables where
  automaton : Automaton
  ruleOf : Array UInt32
  names : List String
  deriving DecidableEq

namespace Tables

variable (t : Tables)

def ruleAt (q : Nat) : Option UInt32 := t.ruleOf[q]?.filter (· ≠ noRule)

def ruleName (kind : UInt32) : Option String := t.names[kind.toNat]?

def check : Except Defect Unit := do
  t.automaton.check
  if t.ruleOf.size = t.automaton.states.size then .ok ()
  else .error (.ruleCount t.automaton.states.size t.ruleOf.size)

end Tables

end Munch
