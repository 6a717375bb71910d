import Munch.Nfa

namespace Munch

def symbols (lo hi : Char) : List Char :=
  (List.range' lo.toNat (hi.toNat + 1 - lo.toNat)).filterMap Text.scalar?

namespace Nfa

structure Fragment where
  entry : Nat
  exit : Nat

abbrev Graph := Array State

def Graph.add (g : Graph) (s : State) : Graph := g.push s

def Graph.link (g : Graph) (source target : Nat) : Graph :=
  g.modify source fun s => { s with epsilon := s.epsilon ++ [target] }

def Graph.bridge (g : Graph) (cs : List Char) : Graph × Fragment :=
  ((g.add { edges := cs.map (·, g.size + 1) }).add {}, ⟨g.size, g.size + 1⟩)

variable (grow : Graph → Graph × Fragment)

def chain : Nat → Graph → Nat → Graph × Nat
  | 0, g, last => (g, last)
  | n + 1, g, last =>
    let (g, f) := grow g
    chain n (g.link last f.entry) f.exit

/-- Like `chain`, but `out` can be entered before each of the copies. -/
def chainOut (out : Nat) : Nat → Graph → Nat → Graph × Nat
  | 0, g, last => (g, last)
  | n + 1, g, last =>
    let (g, f) := grow g
    chainOut out n ((g.link last f.entry).link last out) f.exit

end Nfa

open Nfa

/-- Adds a fragment for the pattern. Only its exit may get further moves from outside. -/
def Pattern.grow : Pattern → Graph → Graph × Fragment
  | literal c, g => g.bridge [c]
  | range lo hi, g => g.bridge (symbols lo hi)
  | concat p q, g =>
    let (g, a) := p.grow g
    let (g, b) := q.grow g
    (g.link a.exit b.entry, ⟨a.entry, b.exit⟩)
  | alternate p q, g =>
    let (g, a) := p.grow g
    let (g, b) := q.grow g
    let entry := g.size
    let exit := g.size + 1
    let g := (g.add { epsilon := [a.entry, b.entry] }).add {}
    ((g.link a.exit exit).link b.exit exit, ⟨entry, exit⟩)
  | repeated p least most, g =>
    let entry := g.size
    let (g, last) := chain p.grow least (g.add {}) entry
    let exit := g.size
    let g := g.add {}
    match most with
    | none =>
      let (g, f) := p.grow g
      let g := (g.link last f.entry).link last exit
      ((g.link f.exit f.entry).link f.exit exit, ⟨entry, exit⟩)
    | some most =>
      let (g, last) := chainOut p.grow exit (most - least) g last
      (g.link last exit, ⟨entry, exit⟩)

def Nfa.growRules : List Rule → Nat → Graph → Graph
  | [], _, g => g
  | rule :: rules, i, g =>
    let (g, f) := rule.pattern.grow g
    growRules rules (i + 1)
      ((g.link 0 f.entry).modify f.exit fun s => { s with accept := some (.ofNat i) })

def Nfa.ofRules (rules : List Rule) : Nfa := ⟨growRules rules 0 #[{}], 0⟩

def Nfa.ofRules? (rules : List Rule) : Except RuleError Nfa :=
  match Rule.flaw? rules with
  | some e => .error e
  | none => .ok (ofRules rules)

end Munch
