import Munch.Proofs.Grammar
import Munch.Proofs.Matching

namespace Munch

namespace Direct

def ClosedAtEnd (cs : List Char) : Prop :=
  (∀ c ∈ cs, c.toNat < 128) ∧ ['*', '/'] <:+ cs ∧ ∀ u v, cs = u ++ ['*', '/'] ++ v → v = []

theorem closedAtEnd_cons_iff {c : Char} {cs : List Char}
    (h : ¬ (c = '*' ∧ cs.head? = some '/')) :
    ClosedAtEnd (c :: cs) ↔ c.toNat < 128 ∧ ClosedAtEnd cs := by
  constructor
  · rintro ⟨hascii, hend, honly⟩
    obtain ⟨hc, hcs⟩ := List.forall_mem_cons.1 hascii
    refine ⟨hc, hcs, ?_, fun u v huv => honly (c :: u) v (by rw [huv]; rfl)⟩
    rcases List.suffix_cons_iff.1 hend with heq | hend
    · cases heq
      exact absurd ⟨rfl, rfl⟩ h
    · exact hend
  · rintro ⟨hc, hcs, hend, honly⟩
    refine ⟨List.forall_mem_cons.2 ⟨hc, hcs⟩, List.suffix_cons_iff.2 (.inr hend), ?_⟩
    intro u v huv
    cases u with
    | nil =>
        cases huv
        exact absurd ⟨rfl, rfl⟩ h
    | cons d u =>
        cases huv
        exact honly u v rfl

theorem closedAtEnd_mark_iff {cs : List Char} : ClosedAtEnd ('*' :: '/' :: cs) ↔ cs = [] := by
  constructor
  · rintro ⟨-, -, honly⟩
    exact honly [] cs rfl
  · rintro rfl
    refine ⟨by simp, List.suffix_refl _, fun u v huv => ?_⟩
    have hlen := congrArg List.length huv
    simp only [List.length_append, List.length_cons, List.length_nil] at hlen
    exact List.length_eq_zero_iff.1 (by omega)

theorem closing_eq_length_iff (cs : List Char) :
    closing cs = .token .blockComment cs.length ↔ ClosedAtEnd cs := by
  induction cs with
  | nil =>
      constructor
      · exact fun h => Front.noConfusion h
      · rintro ⟨-, hend, -⟩
        exact absurd hend.length_le (by decide)
  | cons c cs ih =>
      by_cases hmark : c = '*' ∧ cs.head? = some '/'
      · obtain ⟨rfl, hhead⟩ := hmark
        obtain ⟨ds, rfl⟩ := List.head?_eq_some_iff.1 hhead
        rw [closing_end '*' _ ⟨rfl, rfl⟩, closedAtEnd_mark_iff, ← List.length_eq_zero_iff]
        simp
      · rw [closedAtEnd_cons_iff hmark, ← ih]
        by_cases hascii : isAscii c
        · have hc : c.toNat < 128 := by simpa [isAscii] using hascii
          rw [closing_cons hascii hmark, and_iff_right hc, List.length_cons]
          constructor
          · intro h
            obtain ⟨n, hn, hlen⟩ := Front.after_eq_token h
            rw [hn, Nat.succ.inj hlen]
          · intro h
            rw [h]
            rfl
        · have hc : ¬ c.toNat < 128 := by simpa [isAscii] using hascii
          rw [closing_stuck hascii]
          exact iff_of_false (fun h => Front.noConfusion h) fun h => hc h.1

theorem isBody_iff_closedAtEnd {cs : List Char} : IsBody cs ↔ ClosedAtEnd cs := by
  rw [← closing_eq_length_iff]
  constructor
  · exact closing_body
  · intro h
    have hbody := (closing_eq_token h).2.2
    rwa [List.take_length] at hbody

end Direct

open Direct in
/-- A block comment is a text in ASCII that begins with the mark that opens it and ends with the one
that closes it. The two do not overlap, and the closing mark comes up only once behind the opening
one. -/
theorem TokenKind.matchesAll_blockComment_iff (s : List Char) :
    TokenKind.blockComment.pattern.matchesAll s.toArray = true ↔
      (∀ c ∈ s, c.toNat < 128) ∧ 4 ≤ s.length ∧ ['/', '*'] <+: s ∧ ['*', '/'] <:+ s ∧
        ∀ u v, s.drop 2 = u ++ ['*', '/'] ++ v → v = [] := by
  rw [Pattern.matchesAll_iff (Pattern.countsOrdered_of_flaw? rfl), mem_language_blockComment]
  constructor
  · rintro ⟨body, rfl, hbody⟩
    obtain ⟨hascii, hend, honly⟩ := isBody_iff_closedAtEnd.1 hbody
    refine ⟨?_, ?_, List.prefix_append _ body, hend.trans ?_, honly⟩
    · exact List.forall_mem_cons.2 ⟨by decide, List.forall_mem_cons.2 ⟨by decide, hascii⟩⟩
    · exact Nat.add_le_add_right hend.length_le 2
    · exact List.suffix_append ['/', '*'] body
  · rintro ⟨hascii, hlen, ⟨body, rfl⟩, hend, honly⟩
    refine ⟨body, rfl, isBody_iff_closedAtEnd.2 ⟨fun c hc => ?_, ?_, honly⟩⟩
    · exact hascii c (List.mem_append_right _ hc)
    · rw [List.length_append, List.length_cons, List.length_cons, List.length_nil] at hlen
      have hbody : ['*', '/'].length ≤ body.length := Nat.le_of_add_le_add_left hlen
      exact List.suffix_of_suffix_length_le hend (List.suffix_append _ body) hbody

example : TokenKind.blockComment.pattern.matchesAll #['/', '*', '/'] = false ∧
    TokenKind.blockComment.pattern.matchesAll #['/', '*', '/', '*', '/'] = true := by
  decide +kernel

end Munch
