import Munch.Text.Alphabetic
import Munch.Text.Numeric

namespace Munch.Text

def isAlphanumeric (c : Char) : Bool := alphabetic.contains c || numeric.contains c

def isIdentifier : List Char → Bool
  | [] => false
  | c :: cs => (c = '_' || alphabetic.contains c) && cs.all fun d => d = '_' || isAlphanumeric d

def splitDots : List Char → List (List Char)
  | [] => [[]]
  | c :: cs =>
    match splitDots cs with
    | [] => [[c]]
    | part :: parts => if c = '.' then [] :: part :: parts else (c :: part) :: parts

def isDottedIdentifier (cs : List Char) : Bool := (splitDots cs).all isIdentifier

end Munch.Text
