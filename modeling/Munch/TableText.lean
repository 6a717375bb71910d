import Munch.Automaton
import Munch.Text.Identifier

namespace Munch

structure TableText where
  name : List Char
  typeRef : List Char
  automaton : Automaton

namespace TableText

/-- A symbol between its quotes. What is not seen on paper is written by its code point. -/
def symbolBody (c : Char) : List Char :=
  let n := c.toNat
  if c = '\t' then ['\\', 't']
  else if c = '\n' then ['\\', 'n']
  else if c = '\r' then ['\\', 'r']
  else if c = '\\' then ['\\', '\\']
  else if n < 0x20 || (0x7f ≤ n && n ≤ 0xa0) || n = 0xad then '\\' :: 'x' :: Text.hex 2 n
  else if Text.control.contains c || (Text.blank.contains c && c ≠ ' ') then
    if n ≤ 0xffff then '\\' :: 'u' :: Text.hex 4 n else '\\' :: 'U' :: Text.hex 8 n
  else [c]

def symbol (c : Char) : List Char :=
  let mark := if c = '\'' then '"' else '\''
  mark :: symbolBody c ++ [mark]

def flag (b : Bool) : List Char := if b then "True".toList else "False".toList

def commaSeparated (items : List (List Char)) : List Char := ", ".toList.intercalate items

def entry (e : Char × Nat) : List Char := symbol e.1 ++ ": ".toList ++ Text.numeral e.2

def row (r : Row Nat) : List Char := '{' :: commaSeparated (r.entries.map entry) ++ ['}']

def indent : List Char := "    ".toList

def stateLines (r : Row Nat) (q : Nat) : List (List Char) :=
  [indent ++ "# ".toList ++ Text.numeral q, indent ++ row r ++ [',']]

def acceptsLine (accepts : Array Bool) : List Char :=
  "accepts = [".toList ++ commaSeparated (accepts.toList.map flag) ++ [']']

def bindingLine (name typeRef : List Char) : List Char :=
  name ++ " = ".toList ++ typeRef ++ "(states, accepts)".toList

def lines (t : TableText) : List (List Char) :=
  [acceptsLine t.automaton.accepts, "states = [".toList] ++
    t.automaton.states.toList.zipIdx.flatMap (fun (r, q) => stateLines r q) ++
    [indent ++ [']'], bindingLine t.name t.typeRef]

def render (t : TableText) : List Char := t.lines.flatMap (· ++ ['\n'])

/-- The text, of a sound automaton under names that can be read back. -/
def render? (t : TableText) : Except Defect (List Char) :=
  if !Text.isIdentifier t.name then .error (.badName t.name)
  else if !Text.isDottedIdentifier t.typeRef then .error (.badType t.typeRef)
  else t.automaton.check.map fun _ => t.render

end TableText

end Munch
