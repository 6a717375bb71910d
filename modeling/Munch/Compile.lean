import Munch.Dfa.Minimal
import Munch.Dfa.Subset
import Munch.Nfa.Fragment

namespace Munch

def Tables.ofRules (rules : List Rule) : Tables :=
  (Nfa.ofRules rules).determinize.minimize.toTables (Rule.names rules)

def Tables.ofRules? (rules : List Rule) : Except RuleError Tables :=
  match Rule.flaw? rules with
  | some e => .error e
  | none => .ok (ofRules rules)

end Munch
