import Munch.Proofs.Compiled
import Munch.Proofs.FirstFlaw
import Munch.Proofs.Sampling

namespace Munch

namespace Pattern

theorem flaw?_repeated_eq_none_iff {p : Pattern} {least : Nat} {most : Option Nat} :
    (repeated p least most).flaw? = none ↔
      (∀ m ∈ most, least ≤ m) ∧ (most ≠ some 0 → p.flaw? = none) := by
  rcases most with _ | _ | most
  · simp [flaw?]
  · simp [flaw?]
  · by_cases h : most + 1 < least
    · simp [flaw?, h]
    · simp [flaw?, h, Nat.not_lt.1 h]

theorem mem_copied_repeated {p : Pattern} {least : Nat} {most : Option Nat} (h : most ≠ some 0) :
    p ∈ (repeated p least most).copied := by
  rcases most with _ | _ | most
  · exact List.mem_singleton_self p
  · exact absurd rfl h
  · exact List.mem_singleton_self p

/-- For each repetition of which the graph gets a copy, the count that is drawn when there is no
greatest one is a 64-bit word. -/
def CountsFit (extra : Nat) (p : Pattern) : Prop :=
  ∀ q least most, p.Copies (repeated q least most) → least + extra < Text.words64

theorem CountsFit.of_mem_copied {extra : Nat} {p q : Pattern} (h : p.CountsFit extra)
    (hq : q ∈ p.copied) : q.CountsFit extra :=
  fun r least most hr => h r least most (.head hq hr)

end Pattern

theorem Tables.acceptsWord_eq {rules : List Rule} {t : Tables} (hlen : rules.length ≤ 2 ^ 32 - 1)
    (ht : ofRules? rules = .ok t) (w : List Char) :
    t.automaton.acceptsWord w = .ok (Rule.winner? rules w).isSome := by
  obtain ⟨hrange, hpos⟩ := inRange_of_ofRules? ht
  rcases follow_cases hlen ht w with ⟨hviable, hnone⟩ | ⟨-, s, hs, -, haccept⟩
  · have hwinner : (Rule.winner? rules w).isSome = false := by
      by_contra hsome
      refine hviable (.inr ⟨[], ?_⟩)
      rw [List.append_nil]
      exact Bool.not_eq_false _ ▸ hsome
    rw [Automaton.acceptsWord_of_stuck hrange hpos hnone, hwinner]
  · rw [Automaton.acceptsWord_of_follow hs, haccept]

namespace Draw

open Pattern

theorem getD_scalar?_mem_language {lo hi : Char} {n : Nat} (hlo : lo.toNat ≤ n)
    (hhi : n ≤ hi.toNat) : [(Text.scalar? n).getD lo] ∈ (Pattern.range lo hi).language := by
  refine ⟨_, rfl, ?_⟩
  cases h : Text.scalar? n with
  | none => exact ⟨Char.le_refl lo, hlo.trans hhi⟩
  | some c =>
      obtain rfl := Text.scalar?_eq_some.1 h
      exact ⟨hlo, hhi⟩

variable (ws : Words)

theorem gives_member {extra : Nat} {p : Pattern} (hflaw : p.flaw? = none)
    (hfit : p.CountsFit extra) : (member ws extra p).Gives (· ∈ p.language) := by
  induction p with
  | literal c => exact gives_pure rfl
  | range lo hi =>
      have hle : lo ≤ hi := by simpa [flaw?] using hflaw
      refine (gives_between ws hle).bind fun n hn => gives_pure ?_
      exact getD_scalar?_mem_language hn.1 hn.2
  | concat p q ihp ihq =>
      obtain ⟨hp, hq⟩ := Option.or_eq_none_iff.1 hflaw
      refine (ihp hp (hfit.of_mem_copied (by simp [copied, parts]))).bind fun u hu => ?_
      refine (ihq hq (hfit.of_mem_copied (by simp [copied, parts]))).bind fun v hv => ?_
      exact gives_pure (Language.append_mem_mul hu hv)
  | alternate p q ihp ihq =>
      obtain ⟨hp, hq⟩ := Option.or_eq_none_iff.1 hflaw
      refine (gives_coin ws).bind fun first _ => ?_
      cases first with
      | true =>
          refine (ihp hp (hfit.of_mem_copied (by simp [copied, parts]))).mono fun w hw => ?_
          exact .inl hw
      | false =>
          refine (ihq hq (hfit.of_mem_copied (by simp [copied, parts]))).mono fun w hw => ?_
          exact .inr hw
  | repeated p least most ih =>
      obtain ⟨hmost, hbody⟩ := flaw?_repeated_eq_none_iff.1 hflaw
      have hle : least ≤ most.getD (least + extra) := by
        cases most with
        | none => exact Nat.le_add_right _ _
        | some m => exact hmost m rfl
      rw [member, greatestCount_eq (hfit p least most .refl), pure_bind]
      refine (gives_between ws hle).bind fun n hn => ?_
      -- The body may be malformed if the greatest count is zero, and then no copy is drawn.
      refine Gives.mono (gives_times fun hzero => ?_) fun w hw => ⟨n, hn.1, ?_, hw⟩
      · have hcopied : most ≠ some 0 := by
          rintro rfl
          exact hzero (Nat.le_zero.1 hn.2)
        exact ih (hbody hcopied) (hfit.of_mem_copied (mem_copied_repeated hcopied))
      · rintro m rfl
        exact hn.2

/-- If the bounds are in order and the counts fit, a word is drawn, whatever the random words are,
and the matcher and the tables of the pattern accept it. Nothing is asked of a body that is never
repeated. -/
theorem member_accepted {extra : Nat} {p : Pattern} (hordered : ∀ q, p.Copies q → ¬ q.Inverted)
    (hfit : p.CountsFit extra) (name : String) :
    ∃ t, Tables.ofRules? [⟨name, p⟩] = .ok t ∧ (member ws extra p).Gives fun w =>
      p.matchesAll w.toArray = true ∧ t.automaton.acceptsWord w = .ok true := by
  have hflaw : p.flaw? = none := by
    rw [← Option.not_isSome_iff_eq_none, Pattern.isSome_flaw?_iff]
    rintro ⟨q, hq, hinv⟩
    exact hordered q hq hinv
  obtain ⟨t, ht⟩ : Rule.Compiles ⟨name, p⟩ := Rule.compiles_iff.2 hflaw
  refine ⟨t, ht, (gives_member ws hflaw hfit).mono fun w hw => ?_⟩
  have hmatch := (matchesAll_iff (countsOrdered_of_flaw? hflaw) w).2 hw
  refine ⟨hmatch, ?_⟩
  have hlen : [Rule.mk name p].length ≤ 2 ^ 32 - 1 := by
    rw [List.length_singleton]
    decide
  rw [Tables.acceptsWord_eq hlen ht,
    Rule.isSome_winner?_iff.2 ⟨⟨name, p⟩, List.mem_singleton_self _, hmatch⟩]

def gapPattern : Pattern :=
  .repeated (.alternate (.range '\ud7ff' '\ue000') (.literal 'a')) 1 none

theorem member_accepted_gap :
    member (Words.cycle [0, 0, 0, 0x80000000]) 1 gapPattern 0 = some (['\ud7ff'], 4) ∧
      gapPattern.matchesAll #['\ud7ff'] = true ∧
      ∃ t, Tables.ofRules? [⟨"gap", gapPattern⟩] = .ok t ∧
        t.automaton.acceptsWord ['\ud7ff'] = .ok true := by
  have hordered : ∀ q, gapPattern.Copies q → ¬ q.Inverted := by
    intro q hq
    have hvisited := mem_visited.2 hq
    simp only [gapPattern, visited, List.cons_append, List.nil_append, List.mem_cons,
      List.not_mem_nil, or_false] at hvisited
    rcases hvisited with rfl | rfl | rfl | rfl <;> simp [Inverted]
  have hfit : gapPattern.CountsFit 1 := by
    intro q least most hq
    have hvisited := mem_visited.2 hq
    simp only [gapPattern, visited, List.cons_append, List.nil_append, List.mem_cons,
      List.not_mem_nil, reduceCtorEq, or_false, repeated.injEq] at hvisited
    obtain ⟨-, rfl, -⟩ := hvisited
    decide
  have hdraw : member (Words.cycle [0, 0, 0, 0x80000000]) 1 gapPattern 0 =
      some (['\ud7ff'], 4) := by
    decide +kernel
  obtain ⟨t, ht, hgives⟩ :=
    member_accepted (Words.cycle [0, 0, 0, 0x80000000]) hordered hfit "gap"
  obtain ⟨w, j, hw, hmatch, haccept⟩ := hgives 0
  rw [hdraw] at hw
  cases hw
  exact ⟨hdraw, hmatch, t, ht, haccept⟩

end Draw

end Munch
