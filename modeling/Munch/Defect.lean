import Munch.Text.Quoted

namespace Munch

inductive Defect where
  | noStates
  | flagCount (states accepts : Nat)
  | strayTarget (state : Nat) (symbol : Char) (target states : Nat)
  | ruleCount (states got : Nat)
  | badName (name : List Char)
  | badType (typeRef : List Char)

def Defect.message : Defect → String
  | noStates => "malformed model: automaton has no states"
  | flagCount states accepts => s!"malformed model: {states} states but {accepts} accept flags"
  | strayTarget state symbol target states =>
    s!"malformed model: state {state} on {Text.quoteSymbol symbol} targets {target} " ++
      s!"(only {states} states)"
  | ruleCount states got =>
    s!"malformed model: token map has {got} entries for {states} states"
  | badName name => s!"malformed binding: name {Text.quoteText name} is not an identifier"
  | badType typeRef =>
    s!"malformed binding: type reference {Text.quoteText typeRef} is not a dotted identifier"

end Munch
