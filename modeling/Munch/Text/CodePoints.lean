namespace Munch.Text

/-- A set of code points, given by the ascending list of points at which membership changes. -/
structure CodePoints where
  flips : List Nat

namespace CodePoints

def oddBelow (n : Nat) : List Nat → Bool
  | [] => false
  | b :: bs => if n < b then false else !oddBelow n bs

def contains (s : CodePoints) (c : Char) : Bool := oddBelow c.toNat s.flips

end CodePoints

def scalar? (n : Nat) : Option Char :=
  if h : n.isValidChar then some (Char.ofNatAux n h) else none

def blank : CodePoints := ⟨[
    0x9, 0xe, 0x20, 0x21, 0x85, 0x86, 0xa0, 0xa1, 0x1680, 0x1681, 0x2000, 0x200b, 0x2028, 0x202a,
    0x202f, 0x2030, 0x205f, 0x2060, 0x3000, 0x3001]⟩

def control : CodePoints := ⟨[0x0, 0x20, 0x7f, 0xa0]⟩

end Munch.Text
