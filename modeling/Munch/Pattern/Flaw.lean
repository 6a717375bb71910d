import Munch.Pattern
import Munch.Text.Quoted

namespace Munch

inductive Flaw where
  | symbols (lo hi : Char)
  | counts (least most : Nat)

def Flaw.message : Flaw → String
  | symbols lo hi => s!"invalid range {Text.quoteSymbol lo}..={Text.quoteSymbol hi}"
  | counts least most => s!"invalid repeat bounds \x7b{least},{most}\x7d"

/-- The first flaw from left to right, an outer repetition before its body. A body that is never
repeated is not looked at. -/
def Pattern.flaw? : Pattern → Option Flaw
  | literal _ => none
  | range lo hi => if hi < lo then some (.symbols lo hi) else none
  | concat p q | alternate p q => p.flaw?.or q.flaw?
  | repeated p _ none => p.flaw?
  | repeated p least (some most) =>
    if most < least then some (.counts least most)
    else if most = 0 then none
    else p.flaw?

end Munch
