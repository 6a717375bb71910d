import Mathlib.Data.List.Forall2
import Munch.Proofs.Combinators
import Munch.Proofs.Matching

namespace Munch.Pattern

section Settled

/-- The pattern as it is matched: a repetition with its bounds in the wrong order asks for its least
number of copies and no more. -/
def settled : Pattern → Pattern
  | literal c => literal c
  | range lo hi => range lo hi
  | concat p q => concat p.settled q.settled
  | alternate p q => alternate p.settled q.settled
  | repeated p least most => repeated p.settled least (most.map (max least))

theorem countsOrdered_settled (p : Pattern) : p.settled.CountsOrdered := by
  induction p with
  | literal c | range lo hi => trivial
  | concat p q ihp ihq | alternate p q ihp ihq => exact ⟨ihp, ihq⟩
  | repeated p least most ih =>
      cases most with
      | none => exact ih
      | some most => exact ⟨Nat.le_max_left least most, .inr ih⟩

theorem sweepLimit_map_max (input : Array Char) (least : Nat) (most : Option Nat) :
    sweepLimit input least (most.map (max least)) = sweepLimit input least most := by
  cases most with
  | none => rfl
  | some most =>
      have hmax : max least most - least = most - least := by omega
      rw [Option.map_some, sweepLimit, sweepLimit, hmax]

theorem endpoints_settled (input : Array Char) (p : Pattern) :
    endpoints input p.settled = endpoints input p := by
  induction p with
  | literal c | range lo hi => rfl
  | concat p q ihp ihq | alternate p q ihp ihq =>
      funext starts
      rw [settled, endpoints, endpoints, ihp, ihq]
  | repeated p least most ih =>
      funext starts
      rw [settled, endpoints, endpoints, ih, sweepLimit_map_max]

/-- Whatever the bounds in a pattern, its matches are the words of a language. -/
theorem matchesAll_iff_mem_settled {p : Pattern} {w : List Char} :
    p.matchesAll w.toArray = true ↔ w ∈ p.settled.language := by
  rw [← matchesAll_iff p.countsOrdered_settled, matchesAll, matchesAll, endpoints_settled]

example : (repeated (literal 'a') 2 (some 1)).matchesAll #['a', 'a'] = true ∧
    (repeated (literal 'a') 2 (some 1)).matchesAll #['a'] = false := by decide

theorem settled_foldl (join : Pattern → Pattern → Pattern)
    (h : ∀ p q, (join p q).settled = join p.settled q.settled) (p : Pattern) (ps : List Pattern) :
    (ps.foldl join p).settled = (ps.map settled).foldl join p.settled := by
  rw [List.foldl_map]
  exact (List.foldl_hom settled fun p q => (h p q).symm).symm

theorem settled_sequence (ps : List Pattern) :
    (sequence ps).settled = sequence (ps.map settled) := by
  cases ps with
  | nil => rfl
  | cons p ps => exact settled_foldl concat (fun _ _ => rfl) p ps

theorem settled_choice {ps : List Pattern} {p : Pattern} (h : choice? ps = some p) :
    choice? (ps.map settled) = some p.settled := by
  cases ps with
  | nil => cases h
  | cons q ps =>
      cases h
      exact congrArg some (settled_foldl alternate (fun _ _ => rfl) q ps).symm

end Settled

section Pieces

variable {w : List Char}

theorem mem_prod {Ls : List (Language Char)} :
    w ∈ Ls.prod ↔ ∃ pieces, List.Forall₂ (fun L u => u ∈ L) Ls pieces ∧ pieces.flatten = w := by
  induction Ls generalizing w with
  | nil =>
      rw [List.prod_nil, Language.mem_one]
      simp [eq_comm]
  | cons L Ls ih =>
      rw [List.prod_cons, Language.mem_mul]
      constructor
      · rintro ⟨u, hu, v, hv, rfl⟩
        obtain ⟨pieces, hpieces, rfl⟩ := ih.1 hv
        exact ⟨u :: pieces, .cons hu hpieces, rfl⟩
      · rintro ⟨pieces, hpieces, rfl⟩
        cases hpieces with
        | cons hu hpieces => exact ⟨_, hu, _, ih.2 ⟨_, hpieces, rfl⟩, rfl⟩

theorem matchesAll_literal {c : Char} : (literal c).matchesAll w.toArray = true ↔ w = [c] :=
  matchesAll_iff (countsOrdered_of_flaw? rfl) w

theorem matchesAll_sequence {ps : List Pattern} :
    (sequence ps).matchesAll w.toArray = true ↔
      ∃ pieces, List.Forall₂ (fun p u => p.matchesAll u.toArray = true) ps pieces ∧
        pieces.flatten = w := by
  -- As languages the parts form a product, in which the nesting to the left is gone.
  rw [matchesAll_iff_mem_settled, settled_sequence, language_sequence, mem_prod]
  simp only [List.forall₂_map_left_iff, matchesAll_iff_mem_settled]

theorem matchesAll_choice {ps : List Pattern} {p : Pattern} (h : choice? ps = some p) :
    p.matchesAll w.toArray = true ↔ ∃ q ∈ ps, q.matchesAll w.toArray = true := by
  rw [matchesAll_iff_mem_settled, mem_language_choice (settled_choice h)]
  simp only [List.mem_map, exists_exists_and_eq_and, matchesAll_iff_mem_settled]

theorem matchesAll_word {t : List Char} : (word t).matchesAll w.toArray = true ↔ w = t := by
  have hsettled : (word t).settled = word t := by
    rw [word, settled_sequence, List.map_map]
    rfl
  rw [matchesAll_iff_mem_settled, hsettled, mem_language_word]

theorem matchesAll_oneOf {t : List Char} {p : Pattern} (h : oneOf? t = some p) :
    p.matchesAll w.toArray = true ↔ ∃ c ∈ t, w = [c] := by
  rw [matchesAll_choice h]
  simp only [List.mem_map, exists_exists_and_eq_and, matchesAll_literal]

theorem matchesAll_repeated {p : Pattern} {least : Nat} {most : Option Nat} :
    (repeated p least most).matchesAll w.toArray = true ↔
      ∃ pieces : List (List Char), least ≤ pieces.length ∧
        (∀ m ∈ most, pieces.length ≤ max least m) ∧
        (∀ u ∈ pieces, p.matchesAll u.toArray = true) ∧ pieces.flatten = w := by
  simp only [matchesAll_iff_mem_settled]
  rw [settled, mem_language_repeated]
  constructor
  · rintro ⟨n, hleast, hmost, hw⟩
    obtain ⟨pieces, rfl, rfl, hpieces⟩ := Language.mem_pow.1 hw
    refine ⟨pieces, hleast, fun m hm => ?_, hpieces, rfl⟩
    exact hmost (max least m) (Option.mem_map_of_mem _ hm)
  · rintro ⟨pieces, hleast, hmost, hpieces, rfl⟩
    refine ⟨pieces.length, hleast, fun n hn => ?_, Language.mem_pow.2 ⟨pieces, rfl, rfl, hpieces⟩⟩
    obtain ⟨m, hm, rfl⟩ := Option.mem_map.1 hn
    exact hmost m hm

theorem matchesAll_star {p : Pattern} : (star p).matchesAll w.toArray = true ↔
    ∃ pieces : List (List Char), (∀ u ∈ pieces, p.matchesAll u.toArray = true) ∧
      pieces.flatten = w := by
  rw [star, matchesAll_repeated]
  simp

theorem matchesAll_plus {p : Pattern} : (plus p).matchesAll w.toArray = true ↔
    ∃ pieces : List (List Char), pieces ≠ [] ∧ (∀ u ∈ pieces, p.matchesAll u.toArray = true) ∧
      pieces.flatten = w := by
  rw [plus, matchesAll_repeated]
  simp [Nat.one_le_iff_ne_zero]

theorem matchesAll_optional {p : Pattern} :
    (optional p).matchesAll w.toArray = true ↔ w = [] ∨ p.matchesAll w.toArray = true := by
  rw [optional, matchesAll_repeated]
  constructor
  · rintro ⟨pieces, -, hmost, hpieces, rfl⟩
    have hlen : pieces.length ≤ 1 := hmost 1 rfl
    rcases Nat.le_one_iff_eq_zero_or_eq_one.1 hlen with hzero | hone
    · rw [List.length_eq_zero_iff.1 hzero]
      exact .inl rfl
    · obtain ⟨u, rfl⟩ := List.length_eq_one_iff.1 hone
      exact .inr (by simpa using hpieces)
  · rintro (rfl | hw)
    · exact ⟨[], by simp⟩
    · exact ⟨[w], by simpa using hw⟩

/-- Each combinator stands for what it says, whatever the bounds in its parts. A word matches if it
falls into pieces, empty ones among them, that the parts match: in order in a sequence, and in any
number in a star. -/
theorem combinators_exact (w : List Char) :
    (∀ ps : List Pattern, (sequence ps).matchesAll w.toArray = true ↔
      ∃ pieces, List.Forall₂ (fun p u => p.matchesAll u.toArray = true) ps pieces ∧
        pieces.flatten = w) ∧
    ((sequence []).matchesAll w.toArray = true ↔ w = []) ∧
    (∀ (p : Pattern) (ps : List Pattern), ∃ q, choice? (p :: ps) = some q ∧
      (q.matchesAll w.toArray = true ↔ ∃ r ∈ p :: ps, r.matchesAll w.toArray = true)) ∧
    (∀ t : List Char, (word t).matchesAll w.toArray = true ↔ w = t) ∧
    (∀ (c : Char) (t : List Char), ∃ q, oneOf? (c :: t) = some q ∧
      (q.matchesAll w.toArray = true ↔ ∃ d ∈ c :: t, w = [d])) ∧
    ∀ p : Pattern,
      ((star p).matchesAll w.toArray = true ↔ ∃ pieces : List (List Char),
        (∀ u ∈ pieces, p.matchesAll u.toArray = true) ∧ pieces.flatten = w) ∧
      ((plus p).matchesAll w.toArray = true ↔ ∃ pieces : List (List Char),
        pieces ≠ [] ∧ (∀ u ∈ pieces, p.matchesAll u.toArray = true) ∧ pieces.flatten = w) ∧
      ((optional p).matchesAll w.toArray = true ↔ w = [] ∨ p.matchesAll w.toArray = true) := by
  refine ⟨fun ps => matchesAll_sequence, ?_, fun p ps => ?_, fun t => matchesAll_word,
    fun c t => ?_, fun p => ⟨matchesAll_star, matchesAll_plus, matchesAll_optional⟩⟩
  · exact @matchesAll_word w []
  · exact ⟨ps.foldl alternate p, rfl, matchesAll_choice rfl⟩
  · exact ⟨(t.map literal).foldl alternate (literal c), rfl, matchesAll_oneOf rfl⟩

example :
    (sequence [star (optional (literal 'a')), plus (word ['a', 'b'])]).matchesAll
      #['a', 'a', 'b', 'a', 'b'] = true ∧
    (sequence [star (optional (literal 'a')), plus (word ['a', 'b'])]).matchesAll
      #['a', 'a'] = false := by decide

end Pieces

end Munch.Pattern
