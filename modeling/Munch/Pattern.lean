namespace Munch

/-- The form of a set of words. A range includes both ends, and a repetition without a greatest
count is unbounded. -/
inductive Pattern where
  | literal (c : Char)
  | range (lo hi : Char)
  | concat (p q : Pattern)
  | alternate (p q : Pattern)
  | repeated (body : Pattern) (least : Nat) (most : Option Nat)

namespace Pattern

def empty : Pattern := repeated (literal '\x00') 0 (some 0)

def optional (p : Pattern) : Pattern := repeated p 0 (some 1)

def star (p : Pattern) : Pattern := repeated p 0 none

def plus (p : Pattern) : Pattern := repeated p 1 none

def sequence : List Pattern → Pattern
  | [] => empty
  | p :: ps => ps.foldl concat p

def word (cs : List Char) : Pattern := sequence (cs.map literal)

/-- Any one of the parts, nested to the left. No pattern stands for the empty set of words, so
there must be a part. -/
def choice? : List Pattern → Option Pattern
  | [] => none
  | p :: ps => some (ps.foldl alternate p)

def noChoiceMessage : String := "alt_all needs at least one alternative"

def oneOf? (cs : List Char) : Option Pattern := choice? (cs.map literal)

def ascii : List Char := (List.range 128).map Char.ofNat

def runs : List Char → List (Char × Char)
  | [] => []
  | c :: cs =>
    match runs cs with
    | [] => [(c, c)]
    | (lo, hi) :: rest =>
      if lo.toNat = c.toNat + 1 then (c, hi) :: rest else (c, c) :: (lo, hi) :: rest

def noneOf? (excluded : List Char) : Option Pattern :=
  choice? ((runs (ascii.filter (!excluded.contains ·))).map fun r => range r.1 r.2)

end Pattern

end Munch
