import Munch.Compile

namespace Munch

namespace Nfa

section Copies

variable (grow? : Graph → Except Flaw (Graph × Fragment))

def chain? : Nat → Graph → Nat → Except Flaw (Graph × Nat)
  | 0, g, last => .ok (g, last)
  | n + 1, g, last => do
    let (g, f) ← grow? g
    chain? n (g.link last f.entry) f.exit

def chainOut? (out : Nat) : Nat → Graph → Nat → Except Flaw (Graph × Nat)
  | 0, g, last => .ok (g, last)
  | n + 1, g, last => do
    let (g, f) ← grow? g
    chainOut? out n ((g.link last f.entry).link last out) f.exit

end Copies

end Nfa

open Nfa

/-- Adds a fragment, and looks at the bounds of each part only when it comes to add that part. By
then other parts may have been added. -/
def Pattern.grow? : Pattern → Graph → Except Flaw (Graph × Fragment)
  | literal c, g => .ok (g.bridge [c])
  | range lo hi, g => if hi < lo then .error (.symbols lo hi) else .ok (g.bridge (symbols lo hi))
  | concat p q, g => do
    let (g, a) ← p.grow? g
    let (g, b) ← q.grow? g
    return (g.link a.exit b.entry, ⟨a.entry, b.exit⟩)
  | alternate p q, g => do
    let (g, a) ← p.grow? g
    let (g, b) ← q.grow? g
    let entry := g.size
    let exit := g.size + 1
    let g := (g.add { epsilon := [a.entry, b.entry] }).add {}
    return ((g.link a.exit exit).link b.exit exit, ⟨entry, exit⟩)
  | repeated p least none, g => do
    let entry := g.size
    let (g, last) ← chain? p.grow? least (g.add {}) entry
    let exit := g.size
    let (g, f) ← p.grow? (g.add {})
    let g := (g.link last f.entry).link last exit
    return ((g.link f.exit f.entry).link f.exit exit, ⟨entry, exit⟩)
  | repeated p least (some most), g =>
    if most < least then .error (.counts least most)
    else do
      let entry := g.size
      let (g, last) ← chain? p.grow? least (g.add {}) entry
      let exit := g.size
      let (g, last) ← chainOut? p.grow? exit (most - least) (g.add {}) last
      return (g.link last exit, ⟨entry, exit⟩)

def Nfa.growRules? : List Rule → Nat → Graph → Except RuleError Graph
  | [], _, g => .ok g
  | rule :: rules, i, g => do
    let (g, f) ← (rule.pattern.grow? g).mapError (⟨·, i, rule.name⟩)
    growRules? rules (i + 1)
      ((g.link 0 f.entry).modify f.exit fun s => { s with accept := some (.ofNat i) })

def Nfa.build? (rules : List Rule) : Except RuleError Nfa :=
  (growRules? rules 0 #[{}]).map (⟨·, 0⟩)

namespace Nfa

section Copies

variable {grow? : Graph → Except Flaw (Graph × Fragment)} {grow : Graph → Graph × Fragment}
  {e : Flaw}

theorem chain?_eq_ok (h : ∀ g, grow? g = .ok (grow g)) (n : Nat) (g : Graph) (last : Nat) :
    chain? grow? n g last = .ok (chain grow n g last) := by
  induction n generalizing g last with
  | zero => rfl
  | succ n ih =>
      rw [chain?, h]
      exact ih _ _

theorem chainOut?_eq_ok (h : ∀ g, grow? g = .ok (grow g)) (out n : Nat) (g : Graph)
    (last : Nat) : chainOut? grow? out n g last = .ok (chainOut grow out n g last) := by
  induction n generalizing g last with
  | zero => rfl
  | succ n ih =>
      rw [chainOut?, h]
      exact ih _ _

theorem chain?_eq_error (h : ∀ g, grow? g = .error e) {n : Nat} (hn : n ≠ 0) (g : Graph)
    (last : Nat) : chain? grow? n g last = .error e := by
  obtain ⟨n, rfl⟩ := Nat.exists_eq_succ_of_ne_zero hn
  rw [chain?, h]
  rfl

theorem chainOut?_eq_error (h : ∀ g, grow? g = .error e) (out : Nat) {n : Nat} (hn : n ≠ 0)
    (g : Graph) (last : Nat) : chainOut? grow? out n g last = .error e := by
  obtain ⟨n, rfl⟩ := Nat.exists_eq_succ_of_ne_zero hn
  rw [chainOut?, h]
  rfl

end Copies

end Nfa

namespace Pattern

theorem grow?_eq_ok {p : Pattern} (h : p.flaw? = none) (g : Graph) :
    p.grow? g = .ok (p.grow g) := by
  induction p generalizing g with
  | literal c => rfl
  | range lo hi =>
      have hle : ¬ hi < lo := by simpa [flaw?] using h
      rw [grow?, if_neg hle]
      rfl
  | concat p q ihp ihq | alternate p q ihp ihq =>
      obtain ⟨hp, hq⟩ := Option.or_eq_none_iff.1 h
      rw [grow?, ihp hp]
      simp only [bind, Except.bind, ihq hq]
      rfl
  | repeated p least most ih =>
      cases most with
      | none =>
          rw [grow?, chain?_eq_ok (ih h)]
          simp only [bind, Except.bind, ih h]
          rfl
      | some most =>
          rw [flaw?] at h
          split at h
          case isTrue => cases h
          case isFalse hle =>
            rw [grow?, if_neg hle]
            split at h
            case isTrue hzero =>
              -- Nothing is known of the body, but no copy of it is made.
              obtain rfl := hzero
              obtain rfl : least = 0 := by omega
              rfl
            case isFalse =>
              dsimp only
              rw [chain?_eq_ok (ih h)]
              simp only [bind, Except.bind, chainOut?_eq_ok (ih h)]
              rfl

theorem grow?_eq_error {p : Pattern} {e : Flaw} (h : p.flaw? = some e) (g : Graph) :
    p.grow? g = .error e := by
  induction p generalizing g with
  | literal c => cases h
  | range lo hi =>
      rw [flaw?] at h
      split at h
      case isTrue hlt =>
        cases h
        rw [grow?, if_pos hlt]
      case isFalse => cases h
  | concat p q ihp ihq | alternate p q ihp ihq =>
      rw [grow?]
      rcases Option.or_eq_some_iff.1 h with hp | ⟨hp, hq⟩
      · rw [ihp hp]
        rfl
      · rw [grow?_eq_ok hp]
        simp only [bind, Except.bind, ihq hq]
  | repeated p least most ih =>
      cases most with
      | none =>
          rw [grow?]
          by_cases hzero : least = 0
          · obtain rfl := hzero
            simp only [chain?, bind, Except.bind, ih h]
          · rw [chain?_eq_error (ih h) hzero]
            rfl
      | some most =>
          rw [flaw?] at h
          rw [grow?]
          split at h
          case isTrue hlt =>
            cases h
            rw [if_pos hlt]
          case isFalse hle =>
            rw [if_neg hle]
            split at h
            case isTrue => cases h
            case isFalse hmost =>
              by_cases hzero : least = 0
              · obtain rfl := hzero
                have hcopies : most - 0 ≠ 0 := by omega
                simp only [chain?, bind, Except.bind, chainOut?_eq_error (ih h) _ hcopies]
              · dsimp only
                rw [chain?_eq_error (ih h) hzero]
                rfl

end Pattern

theorem Nfa.growRules?_eq_ok {rules : List Rule} (h : ∀ rule ∈ rules, rule.pattern.flaw? = none)
    (i : Nat) (g : Graph) : growRules? rules i g = .ok (growRules rules i g) := by
  induction rules generalizing i g with
  | nil => rfl
  | cons rule rules ih =>
      obtain ⟨hrule, hrules⟩ := List.forall_mem_cons.1 h
      rw [growRules?, rule.pattern.grow?_eq_ok hrule]
      exact ih hrules _ _

/-- The rules before the first malformed one are added in vain. -/
theorem Nfa.growRules?_eq_error {before after : List Rule} {rule : Rule} {e : Flaw}
    (h : ∀ rule ∈ before, rule.pattern.flaw? = none) (hrule : rule.pattern.flaw? = some e)
    (i : Nat) (g : Graph) : growRules? (before ++ rule :: after) i g =
      .error ⟨e, i + before.length, rule.name⟩ := by
  induction before generalizing i g with
  | nil =>
      rw [List.nil_append, growRules?, Pattern.grow?_eq_error hrule]
      rfl
  | cons first before ih =>
      obtain ⟨hfirst, hbefore⟩ := List.forall_mem_cons.1 h
      rw [List.cons_append, growRules?, first.pattern.grow?_eq_ok hfirst, List.length_cons,
        Nat.add_comm before.length, ← Nat.add_assoc]
      exact ih hbefore _ _

end Munch
