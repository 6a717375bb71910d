import Munch.Dfa
import Munch.Numbering

namespace Munch

/-- The states in blocks. Blocks are numbered by their smallest members, in ascending order. -/
structure Partition where
  block : Array Nat
  count : Nat

def Partition.ofKeys (keys : List (List Nat)) : Partition :=
  let nb := Numbering.ofList keys
  ⟨(keys.map nb.idOf).toArray, nb.keys.size⟩

def Partition.of (p : Partition) (q : Nat) : Nat := p.block.getD q 0

theorem Partition.count_ofKeys_le (keys : List (List Nat)) :
    (ofKeys keys).count ≤ keys.length := by
  simpa [ofKeys, Numbering.ofList, Numbering.empty] using
    Numbering.size_addAll_le (.empty : Numbering (List Nat)) keys

namespace Dfa

variable (d : Dfa)

def rulePartition : Partition := .ofKeys (d.states.toList.map fun s => [s.rule.toNat])

/-- What tells states apart beside their blocks: the symbols with a move, and the blocks they lead
to. -/
def signature (p : Partition) (s : State) (q : Nat) : List Nat :=
  p.of q :: s.next.entries.flatMap fun e => [e.1.toNat, p.of e.2]

def refineOnce (p : Partition) : Partition :=
  .ofKeys (d.states.toList.zipIdx.map fun (s, q) => signature p s q)

theorem count_refineOnce_le (p : Partition) : (d.refineOnce p).count ≤ d.states.size := by
  simpa [refineOnce] using
    Partition.count_ofKeys_le (d.states.toList.zipIdx.map fun (s, q) => signature p s q)

def refine (p : Partition) : Partition × Nat :=
  if p.count < (d.refineOnce p).count then
    let (last, rounds) := refine (d.refineOnce p)
    (last, rounds + 1)
  else (d.refineOnce p, 1)
termination_by d.states.size - p.count
decreasing_by
  have := d.count_refineOnce_le p
  omega

def stablePartition : Partition := (d.refine d.rulePartition).1

def minimize : Dfa :=
  let p := d.stablePartition
  ⟨((List.range p.count).filterMap fun b => d.states[p.block.idxOf b]?).toArray.map fun s =>
    { s with next := s.next.map p.of }⟩

def minimize? : Option Dfa :=
  if d.states.all fun s => s.next.entries.all fun e => e.2 < d.states.size then some d.minimize
  else none

def minimizeLog : List String :=
  let (p, rounds) := d.refine d.rulePartition
  if d.states.isEmpty then []
  else [s!"[tables] minimize: {d.states.size} -> {p.count} states in {rounds} rounds"]

end Dfa

end Munch
