import Munch.Tables
import Munch.Text.Digits

namespace Munch.TableJson

def escape (c : Char) : List Char :=
  if c = '"' || c = '\\' then ['\\', c]
  else if c = '\x08' then ['\\', 'b']
  else if c = '\x0c' then ['\\', 'f']
  else if c = '\n' then ['\\', 'n']
  else if c = '\r' then ['\\', 'r']
  else if c = '\t' then ['\\', 't']
  else if c.toNat < 0x20 then '\\' :: 'u' :: Text.hex 4 c.toNat
  else [c]

def quoted (cs : List Char) : List Char := '"' :: cs.flatMap escape ++ ['"']

def array (items : List (List Char)) : List Char := '[' :: [','].intercalate items ++ [']']

def object (items : List (List Char)) : List Char := '{' :: [','].intercalate items ++ ['}']

def member (key value : List Char) : List Char := quoted key ++ ':' :: value

def row (r : Row Nat) : List Char :=
  object (r.entries.map fun e => member [e.1] (Text.numeral e.2))

def flag (b : Bool) : List Char := if b then "true".toList else "false".toList

def render (t : Tables) : List Char :=
  object [
    member "states".toList (array (t.automaton.states.toList.map row)),
    member "accepts".toList (array (t.automaton.accepts.toList.map flag)),
    member "token_of".toList (array (t.ruleOf.toList.map fun w => Text.numeral w.toNat)),
    member "names".toList (array (t.names.map fun n => quoted n.toList))]

end Munch.TableJson
