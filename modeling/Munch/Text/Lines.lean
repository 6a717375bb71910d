import Munch.Text.CodePoints

namespace Munch.Text

def trimStart (cs : List Char) : List Char := cs.dropWhile blank.contains

def trimEnd (cs : List Char) : List Char := (cs.reverse.dropWhile blank.contains).reverse

def consLine (c : Char) (ls : List (List Char)) : List (List Char) :=
  if c = '\n' then [] :: ls
  else
    match ls with
    | [] => [[c]]
    | line :: rest => (c :: line) :: rest

/-- The lines of a text. A line break ends a line, so no empty line follows a final break. -/
def lines (cs : List Char) : List (List Char) := cs.foldr consLine []

end Munch.Text
