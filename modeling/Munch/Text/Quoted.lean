import Munch.Text.Digits
import Munch.Text.Extender
import Munch.Text.Printable

namespace Munch.Text

/-- How messages show `c` between two marks: the mark and the backslash are escaped, and a symbol
that cannot be seen on its own is replaced by its code point. -/
def shown (mark c : Char) : List Char :=
  if c = '\x00' then ['\\', '0']
  else if c = '\t' then ['\\', 't']
  else if c = '\r' then ['\\', 'r']
  else if c = '\n' then ['\\', 'n']
  else if c = '\\' || c = mark then ['\\', c]
  else if extender.contains c || !printable.contains c then
    ['\\', 'u', '{'] ++ hex 0 c.toNat ++ ['}']
  else [c]

def quoteSymbol (c : Char) : String := String.ofList ('\'' :: shown '\'' c ++ ['\''])

def quoteText (cs : List Char) : String := String.ofList ('"' :: cs.flatMap (shown '"') ++ ['"'])

end Munch.Text
