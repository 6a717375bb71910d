import Munch.Pattern.Flaw

namespace Munch

/-- A named pattern. In a list of rules the position is the priority: the earlier rule wins. -/
structure Rule where
  name : String
  pattern : Pattern

structure RuleError where
  flaw : Flaw
  index : Nat
  name : String

def RuleError.message (e : RuleError) : String :=
  s!"{e.flaw.message} in rule #{e.index} ({e.name})"

def noRule : UInt32 := 4294967295

namespace Rule

def names (rules : List Rule) : List String := rules.map (·.name)

def flaw? (rules : List Rule) : Option RuleError :=
  rules.zipIdx.findSome? fun (rule, i) => rule.pattern.flaw?.map (⟨·, i, rule.name⟩)

end Rule

end Munch
