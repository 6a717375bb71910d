import Munch.Proofs.CheckedGrowth
import Munch.Proofs.Inverted

namespace Munch

namespace Pattern

/-- The pattern and all that stands in it, from left to right and each part before its own parts. A
body that is never repeated is left out. -/
def visited : Pattern → List Pattern
  | literal c => [literal c]
  | range lo hi => [range lo hi]
  | concat p q => concat p q :: (p.visited ++ q.visited)
  | alternate p q => alternate p q :: (p.visited ++ q.visited)
  | repeated p least (some 0) => [repeated p least (some 0)]
  | repeated p least most => repeated p least most :: p.visited

def rootFlaw? : Pattern → Option Flaw
  | range lo hi => if hi < lo then some (.symbols lo hi) else none
  | repeated _ least (some most) => if most < least then some (.counts least most) else none
  | _ => none

def FirstFlaw (p : Pattern) (e : Flaw) : Prop :=
  ∃ before q after, p.visited = before ++ q :: after ∧ (∀ r ∈ before, ¬ r.Inverted) ∧
    q.rootFlaw? = some e

theorem rootFlaw?_eq_none_iff {p : Pattern} : p.rootFlaw? = none ↔ ¬ p.Inverted := by
  fun_cases rootFlaw? p <;> simp_all [Inverted]

theorem copies_iff {p q : Pattern} : p.Copies q ↔ p = q ∨ ∃ r ∈ p.copied, r.Copies q :=
  Relation.ReflTransGen.cases_head_iff

theorem mem_visited {p q : Pattern} : q ∈ p.visited ↔ p.Copies q := by
  induction p with
  | literal c | range lo hi =>
      rw [copies_iff]
      simp [visited, copied, parts, eq_comm]
  | concat p p' ih ih' | alternate p p' ih ih' =>
      rw [copies_iff]
      simp [visited, copied, parts, ih, ih', eq_comm]
  | repeated p least most ih =>
      rw [copies_iff]
      rcases most with _ | _ | most <;> simp [visited, copied, parts, ih, eq_comm]

theorem flaw?_eq_findSome? (p : Pattern) : p.flaw? = p.visited.findSome? rootFlaw? := by
  induction p with
  | literal c | range lo hi => simp [flaw?, visited, rootFlaw?]
  | concat p q ihp ihq | alternate p q ihp ihq =>
      rw [flaw?, ihp, ihq, visited, List.findSome?_cons, List.findSome?_append]
      rfl
  | repeated p least most ih =>
      rcases most with _ | _ | most
      · rw [flaw?, ih]
        rfl
      · rw [flaw?, visited, List.findSome?_cons, rootFlaw?]
        split <;> simp
      · have hvisited : (repeated p least (some (most + 1))).visited =
            repeated p least (some (most + 1)) :: p.visited := rfl
        rw [flaw?, ih, hvisited, List.findSome?_cons, rootFlaw?]
        split <;> simp

theorem flaw?_eq_some_iff {p : Pattern} {e : Flaw} : p.flaw? = some e ↔ p.FirstFlaw e := by
  rw [flaw?_eq_findSome?, List.findSome?_eq_some_iff, FirstFlaw]
  simp only [rootFlaw?_eq_none_iff, and_comm]

end Pattern

namespace Rule

def Compiles (rule : Rule) : Prop := ∃ t, Tables.ofRules? [rule] = .ok t

theorem flaw?_append_cons {before after : List Rule} {rule : Rule} {e : Flaw}
    (h : ∀ r ∈ before, r.pattern.flaw? = none) (hrule : rule.pattern.flaw? = some e) :
    flaw? (before ++ rule :: after) = some ⟨e, before.length, rule.name⟩ := by
  change (before ++ rule :: after).zipIdx.findSome?
    (fun x => x.1.pattern.flaw?.map (RuleError.mk · x.2 x.1.name)) = _
  have hbefore : ∀ x ∈ before.zipIdx,
      x.1.pattern.flaw?.map (RuleError.mk · x.2 x.1.name) = none := by
    intro x hx
    obtain ⟨-, -, hmem⟩ := List.mem_zipIdx hx
    rw [h x.1 (hmem ▸ List.getElem_mem _), Option.map_none]
  rw [List.zipIdx_append, List.findSome?_append, List.findSome?_eq_none_iff.2 hbefore,
    List.zipIdx_cons, List.findSome?_cons, hrule, Nat.zero_add]
  rfl

theorem flaw?_eq_some_iff {rules : List Rule} {e : RuleError} :
    flaw? rules = some e ↔ ∃ before rule after, rules = before ++ rule :: after ∧
      (∀ r ∈ before, r.pattern.flaw? = none) ∧ rule.pattern.flaw? = some e.flaw ∧
      e.index = before.length ∧ e.name = rule.name := by
  constructor
  · intro h
    obtain ⟨r, hr, hflaw⟩ := isSome_flaw?_iff.1 (Option.isSome_of_eq_some h)
    have hfirst : (rules.findSome? (·.pattern.flaw?)).isSome := by
      rw [List.isSome_findSome?]
      exact List.any_eq_true.2 ⟨r, hr, hflaw⟩
    obtain ⟨f, hf⟩ := Option.isSome_iff_exists.1 hfirst
    obtain ⟨before, rule, after, rfl, hrule, hbefore⟩ := List.findSome?_eq_some_iff.1 hf
    rw [flaw?_append_cons hbefore hrule] at h
    cases h
    exact ⟨before, rule, after, rfl, hbefore, hrule, rfl, rfl⟩
  · rintro ⟨before, rule, after, rfl, hbefore, hrule, hindex, hname⟩
    obtain ⟨f, i, n⟩ := e
    obtain rfl := hindex
    obtain rfl := hname
    exact flaw?_append_cons hbefore hrule

theorem compiles_iff {rule : Rule} : rule.Compiles ↔ rule.pattern.flaw? = none := by
  have hsingle : flaw? [rule] = none ↔ rule.pattern.flaw? = none := by
    simp [flaw?]
  rw [Compiles, Tables.ofRules?, ← hsingle]
  cases flaw? [rule] <;> simp

end Rule

namespace Nfa

/-- Looking at all bounds first, or at each of them when its part is added, makes no difference. -/
theorem build?_eq (rules : List Rule) : build? rules = ofRules? rules := by
  rw [build?, ofRules?]
  cases h : Rule.flaw? rules with
  | none =>
      rw [growRules?_eq_ok (Rule.pattern_flaw?_eq_none h)]
      rfl
  | some e =>
      obtain ⟨before, rule, after, rfl, hbefore, hrule, hindex, hname⟩ :=
        Rule.flaw?_eq_some_iff.1 h
      rw [growRules?_eq_error hbefore hrule, Nat.zero_add, ← hindex, ← hname]
      rfl

end Nfa

namespace Tables

theorem ofRules?_eq_error_iff {rules : List Rule} {e : RuleError} :
    ofRules? rules = .error e ↔ Rule.flaw? rules = some e := by
  rw [ofRules?]
  cases Rule.flaw? rules <;> simp

/-- A refusal, which comes up as the graph grows, names the first rule that is refused on its own
and the bounds of the first inverted part of its pattern. Nothing else is told by it but how many
rules are before that one: other rules around it make no difference, if those before it compile. -/
theorem error_names_first_offender {rules : List Rule} {e : RuleError}
    (h : ofRules? rules = .error e) : Nfa.build? rules = .error e ∧
      ∃ before rule after, rules = before ++ rule :: after ∧
        e.index = before.length ∧ e.name = rule.name ∧
        (∀ r ∈ before, r.Compiles) ∧ ¬ rule.Compiles ∧ rule.pattern.FirstFlaw e.flaw ∧
        ∀ before' after' : List Rule, (∀ r ∈ before', r.Compiles) →
          ofRules? (before' ++ rule :: after') = .error ⟨e.flaw, before'.length, rule.name⟩ := by
  rw [ofRules?_eq_error_iff] at h
  refine ⟨?_, ?_⟩
  · rw [Nfa.build?_eq, Nfa.ofRules?, h]
  · obtain ⟨before, rule, after, hrules, hbefore, hrule, hindex, hname⟩ :=
      Rule.flaw?_eq_some_iff.1 h
    refine ⟨before, rule, after, hrules, hindex, hname, ?_, ?_, ?_, fun before' after' h' => ?_⟩
    · exact fun r hr => Rule.compiles_iff.2 (hbefore r hr)
    · rw [Rule.compiles_iff, hrule]
      exact Option.some_ne_none _
    · exact Pattern.flaw?_eq_some_iff.1 hrule
    · rw [ofRules?_eq_error_iff]
      exact Rule.flaw?_append_cons (fun r hr => Rule.compiles_iff.1 (h' r hr)) hrule

def nestedFlawRules : List Rule :=
  [⟨"ok", .repeated (.range 'b' 'a') 0 (some 0)⟩,
    ⟨"bad", .alternate (.repeated (.range 'd' 'c') 0 (some 0))
      (.concat (.repeated (.range 'f' 'e') 3 (some 2)) (.range 'h' 'g'))⟩,
    ⟨"worse", .range 'j' 'i'⟩]

theorem error_names_first_offender_nested :
    ofRules? nestedFlawRules = .error ⟨.counts 3 2, 1, "bad"⟩ ∧
      ofRules? nestedFlawRules.tail = .error ⟨.counts 3 2, 0, "bad"⟩ := by
  have herror : ofRules? nestedFlawRules = .error ⟨.counts 3 2, 1, "bad"⟩ := rfl
  refine ⟨herror, ?_⟩
  obtain ⟨-, before, rule, after, hrules, hlength, -, -, -, -, hsame⟩ :=
    error_names_first_offender herror
  obtain ⟨ok, rfl⟩ := List.length_eq_one_iff.1 hlength.symm
  rw [nestedFlawRules, List.singleton_append] at hrules
  cases hrules
  exact hsame [] [_] (List.forall_mem_nil _)

end Tables

end Munch
