import Munch.Pattern
import Munch.Text.CodePoints
import Munch.Text.Digits

namespace Munch

abbrev Words := Nat → UInt32

def Words.cycle (ws : List UInt32) : Words := fun i => ws.getD (i % ws.length) 0

abbrev Draw := StateT Nat Option

namespace Draw

variable (ws : Words)

def word : Draw Nat := fun i => some ((ws i).toNat, i + 1)

def doubleWord : Draw Nat := do
  let lower ← word ws
  return lower + (← word ws) * Text.words32

/-- A number below `n` from numbers below `size`: the upper half of the product of `n` and one of
them. A second one decides on a carry from the lower half, if there may be one. -/
def scaled (size : Nat) (number : Draw Nat) (n : Nat) : Draw Nat :=
  if n = 0 then failure
  else do
    let product := (← number) * n
    let upper := product / size
    let lower := product % size
    if size - n < lower then
      let carry := (← number) * n / size
      return if size ≤ lower + carry then upper + 1 else upper
    else return upper

def below (n : Nat) : Draw Nat := scaled Text.words32 (word ws) n

def between (least most : Nat) : Draw Nat :=
  let n := most + 1 - least
  return least +
    (← if most < Text.words32 then below ws n else scaled Text.words64 (doubleWord ws) n)

def coin : Draw Bool := return (← doubleWord ws) < Text.words64 / 2

def times (draw : Draw (List Char)) : Nat → Draw (List Char)
  | 0 => return []
  | n + 1 => return (← draw) ++ (← times draw n)

/-- The greatest count, which is `extra` above the least one unless it is given. Counts are 64-bit
words, and the sum has to be one even where it is not needed. -/
def greatestCount (extra least : Nat) (most : Option Nat) : Draw Nat :=
  if least + extra < Text.words64 then return most.getD (least + extra) else failure

def member (extra : Nat) : Pattern → Draw (List Char)
  | .literal c => return [c]
  | .range lo hi => return [(Text.scalar? (← between ws lo.toNat hi.toNat)).getD lo]
  | .concat p q => return (← member extra p) ++ (← member extra q)
  | .alternate p q => do if ← coin ws then member extra p else member extra q
  | .repeated p least most => do
    let n ← between ws least (← greatestCount extra least most)
    times (member extra p) n

variable (alphabet : Array Char)

/-- There is nothing to pick from an empty alphabet, and then no word is read. -/
def pick : Draw Char := do
  if alphabet.isEmpty then failure
  else
    match alphabet[← between ws 0 (alphabet.size - 1)]? with
    | some c => return c
    | none => failure

def text (most : Nat) : Draw (List Char) := do
  let n ← between ws 0 most
  times (return [← pick ws alphabet]) n

def literal : Draw Pattern := return .literal (← pick ws alphabet)

def range : Draw Pattern := do
  let c ← pick ws alphabet
  let d ← pick ws alphabet
  return if c ≤ d then .range c d else .range d c

def counts : Draw (Nat × Option Nat) := do
  let least ← between ws 0 2
  if ← coin ws then return (least, none)
  else return (least, some (least + (← between ws 0 2)))

def pattern : Nat → Draw Pattern
  | 0 => do
    match ← below ws 2 with
    | 0 => literal ws alphabet
    | _ => range ws alphabet
  | depth + 1 => do
    match ← below ws 5 with
    | 0 => literal ws alphabet
    | 1 => range ws alphabet
    | 2 => return .concat (← pattern depth) (← pattern depth)
    | 3 => return .alternate (← pattern depth) (← pattern depth)
    | _ =>
      let (least, most) ← counts ws
      return .repeated (← pattern depth) least most

end Draw

end Munch
