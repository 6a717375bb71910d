import Mathlib.Logic.Relation
import Munch.Proofs.Verdict

namespace Munch

namespace Pattern

def Inverted : Pattern → Prop
  | range lo hi => hi < lo
  | repeated _ least (some most) => most < least
  | _ => False

def parts : Pattern → List Pattern
  | literal _ | range _ _ => []
  | concat p q | alternate p q => [p, q]
  | repeated p _ _ => [p]

/-- The patterns right below the root of which the graph gets a copy. -/
def copied : Pattern → List Pattern
  | repeated _ _ (some 0) => []
  | p => p.parts

def Contains (p q : Pattern) : Prop := Relation.ReflTransGen (fun p q => q ∈ p.parts) p q

def Copies (p q : Pattern) : Prop := Relation.ReflTransGen (fun p q => q ∈ p.copied) p q

theorem copies_inverted_iff {p : Pattern} :
    (∃ q, p.Copies q ∧ q.Inverted) ↔ p.Inverted ∨ ∃ r ∈ p.copied, ∃ q, r.Copies q ∧ q.Inverted := by
  constructor
  · rintro ⟨q, hq, hinv⟩
    rcases Relation.ReflTransGen.cases_head hq with rfl | ⟨r, hr, hrq⟩
    · exact .inl hinv
    · exact .inr ⟨r, hr, q, hrq, hinv⟩
  · rintro (hinv | ⟨r, hr, q, hrq, hinv⟩)
    · exact ⟨p, .refl, hinv⟩
    · exact ⟨q, .head hr hrq, hinv⟩

theorem isSome_flaw?_iff {p : Pattern} : p.flaw?.isSome ↔ ∃ q, p.Copies q ∧ q.Inverted := by
  induction p with
  | literal c =>
      rw [copies_inverted_iff]
      simp [flaw?, Inverted, copied, parts]
  | range lo hi =>
      rw [copies_inverted_iff, flaw?]
      by_cases h : hi < lo <;> simp [h, Inverted, copied, parts]
  | concat p q ihp ihq | alternate p q ihp ihq =>
      rw [copies_inverted_iff, flaw?, Option.isSome_or, Bool.or_eq_true, ihp, ihq]
      simp [Inverted, copied, parts]
  | repeated p least most ih =>
      rw [copies_inverted_iff]
      rcases most with _ | _ | most
      · simp [flaw?, ih, Inverted, copied, parts]
      · -- The body is out of reach, so only the bounds are left.
        by_cases h : 0 < least <;> simp [flaw?, h, Inverted, copied]
      · by_cases h : most + 1 < least <;> simp [flaw?, h, ih, Inverted, copied, parts]

theorem flaw?_eq_none_iff {p : Pattern} : p.flaw? = none ↔ ∀ q, p.Copies q → ¬ q.Inverted := by
  rw [← Option.not_isSome_iff_eq_none, isSome_flaw?_iff, not_exists]
  exact forall_congr' fun q => not_and

end Pattern

theorem Rule.isSome_flaw?_iff {rules : List Rule} :
    (flaw? rules).isSome ↔ ∃ rule ∈ rules, rule.pattern.flaw?.isSome := by
  rw [flaw?, List.isSome_findSome?]
  constructor
  · intro h
    obtain ⟨⟨rule, i⟩, hmem, hrule⟩ := List.any_eq_true.1 h
    rw [Option.isSome_map] at hrule
    exact ⟨rule, List.mem_of_getElem? (List.mem_zipIdx_iff_getElem?.1 hmem), hrule⟩
  · rintro ⟨rule, hmem, hrule⟩
    obtain ⟨i, hi⟩ := List.mem_iff_getElem?.1 hmem
    refine List.any_eq_true.2 ⟨(rule, i), List.mem_zipIdx_iff_getElem?.2 hi, ?_⟩
    rwa [Option.isSome_map]

namespace Tables

/-- Rules are refused just if one of them has bounds in the wrong order, at any depth but not below
a repetition that is never made. -/
theorem refused_iff_copies_inverted (rules : List Rule) :
    (∃ e, ofRules? rules = .error e) ↔
      ∃ rule ∈ rules, ∃ q, rule.pattern.Copies q ∧ q.Inverted := by
  simp only [← Pattern.isSome_flaw?_iff]
  rw [← Rule.isSome_flaw?_iff, ofRules?]
  cases Rule.flaw? rules <;> simp

def skippedRules : List Rule := [⟨"skipped", .repeated (.range 'z' 'a') 0 (some 0)⟩]

theorem skipped_inverted_compiles :
    ¬ ((∃ e, ofRules? skippedRules = .error e) ↔
      ∃ rule ∈ skippedRules, ∃ q, rule.pattern.Contains q ∧ q.Inverted) := by
  have hok : ofRules? skippedRules = .ok (ofRules skippedRules) := rfl
  have hpart : (Pattern.repeated (.range 'z' 'a') 0 (some 0)).Contains (.range 'z' 'a') :=
    .single (List.mem_singleton_self _)
  have hinv : (Pattern.range 'z' 'a').Inverted := by
    change 'a' < 'z'
    decide
  intro hiff
  obtain ⟨e, he⟩ := hiff.2 ⟨_, List.mem_singleton_self _, _, hpart, hinv⟩
  cases hok.symm.trans he

end Tables

end Munch
