import Munch.Defect
import Munch.Row

namespace Munch

structure Dangling where
  state : Nat

theorem map_eq_ok_iff {ε α β : Type} {f : α → β} {x : Except ε α} {b : β} :
    x.map f = .ok b ↔ ∃ a, x = .ok a ∧ f a = b := by
  cases x <;> simp [Except.map]

/-- One row of moves and one flag for each state. State 0 is the initial one. -/
structure Automaton where
  states : Array (Row Nat)
  accepts : Array Bool
  deriving DecidableEq

namespace Automaton

variable (a : Automaton)

def strayMove? : Option Defect :=
  a.states.toList.zipIdx.findSome? fun (row, q) =>
    (row.entries.find? fun e => a.states.size ≤ e.2).map fun e =>
      .strayTarget q e.1 e.2 a.states.size

def check : Except Defect Unit :=
  if a.states.isEmpty then .error .noStates
  else if a.accepts.size ≠ a.states.size then
    .error (.flagCount a.states.size a.accepts.size)
  else
    match a.strayMove? with
    | some e => .error e
    | none => .ok ()

def next? (q : Nat) (c : Char) : Except Dangling (Option Nat) :=
  match a.states[q]? with
  | some row => .ok (row.get? c)
  | none => .error ⟨q⟩

def isAccepting? (q : Nat) : Except Dangling Bool :=
  match a.accepts[q]? with
  | some flag => .ok flag
  | none => .error ⟨q⟩

/-- The search for the longest match that began at `pos`. It is in state `q` at offset `i`. -/
def longestFrom (input : List Char) (pos q i : Nat) : List Char → Except Dangling (Option Nat)
  | [] => (a.isAccepting? q).map fun flag =>
      if flag && pos < input.length then some input.length else none
  | c :: cs =>
    match a.next? q c with
    | .error d => .error d
    | .ok (some q) => longestFrom input pos q (i + 1) cs
    | .ok none => (a.isAccepting? q).map fun flag => if flag && pos < i then some i else none

def longestMatch (input : List Char) (pos : Nat) : Except Dangling (Option Nat) :=
  a.longestFrom input pos 0 pos (input.drop pos)

def shortestFrom (q i : Nat) : List Char → Except Dangling (Option Nat)
  | [] => .ok none
  | c :: cs =>
    match a.next? q c with
    | .error d => .error d
    | .ok none => .ok none
    | .ok (some q) =>
      match a.isAccepting? q with
      | .error d => .error d
      | .ok true => .ok (some (i + 1))
      | .ok false => shortestFrom q (i + 1) cs

def shortestMatch (input : List Char) (pos : Nat) : Except Dangling (Option Nat) :=
  a.shortestFrom 0 pos (input.drop pos)

def acceptsFrom (q : Nat) : List Char → Except Dangling Bool
  | [] => a.isAccepting? q
  | c :: cs =>
    match a.next? q c with
    | .error d => .error d
    | .ok (some q) => acceptsFrom q cs
    | .ok none => .ok false

def acceptsWord (input : List Char) : Except Dangling Bool := a.acceptsFrom 0 input

def edgeCount : Nat := a.states.foldl (fun n row => n + row.entries.length) 0

end Automaton

end Munch
