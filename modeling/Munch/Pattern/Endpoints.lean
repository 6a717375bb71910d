import Munch.Pattern

namespace Munch.Pattern

def unite (xs ys : List Nat) : List Nat := xs ++ ys.filter (!xs.contains ·)

def passes (f : List Nat → List Nat) : Nat → List Nat → List Nat
  | 0, offsets => offsets
  | n + 1, offsets => if offsets.isEmpty then [] else passes f n (f offsets)

def sweep (f : List Nat → List Nat) : Nat → List Nat → List Nat → List Nat
  | 0, seen, _ => seen
  | n + 1, seen, fresh =>
    if fresh.isEmpty then seen
    else
      let next := (f fresh).filter (!seen.contains ·)
      sweep f n (seen ++ next) next

/-- Every pass of a sweep but the last finds an offset of the input, so more passes than this
change nothing. -/
def sweepLimit (input : Array Char) (least : Nat) : Option Nat → Nat
  | none => input.size + 1
  | some most => min (most - least) (input.size + 1)

def endpoints (input : Array Char) : Pattern → List Nat → List Nat
  | literal c, starts => (starts.filter (input[·]? == some c)).map (· + 1)
  | range lo hi, starts =>
    (starts.filter fun i => input[i]?.any fun c => lo ≤ c && c ≤ hi).map (· + 1)
  | concat p q, starts => endpoints input q (endpoints input p starts)
  | alternate p q, starts => unite (endpoints input p starts) (endpoints input q starts)
  | repeated p least most, starts =>
    let first := passes (endpoints input p) least starts
    sweep (endpoints input p) (sweepLimit input least most) first first

def matchesAll (p : Pattern) (input : Array Char) : Bool :=
  (endpoints input p [0]).contains input.size

end Munch.Pattern
