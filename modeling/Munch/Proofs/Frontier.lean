import Mathlib.Data.Finset.Card
import Mathlib.Data.Finset.Range
import Munch.Proofs.Matching

namespace Munch.Pattern

section Rounds

variable (f : List Nat → List Nat) (least : Nat) (most : Option Nat)

/-- The rounds of a repetition after its first `least` copies, of which `extra` have been made. They
go on without a cap as long as there are fresh offsets and a copy more is allowed. -/
inductive Rounds : Nat → List Nat → List Nat → List Nat → Prop
  | stop {extra : Nat} {seen fresh : List Nat} (h : fresh = [] ∨ ∃ m ∈ most, m ≤ least + extra) :
      Rounds extra seen fresh seen
  | round {extra : Nat} {seen fresh found : List Nat} (hfresh : fresh ≠ [])
      (hmost : ∀ m ∈ most, least + extra < m)
      (h : Rounds (extra + 1) (seen ++ (f fresh).filter (!seen.contains ·))
        ((f fresh).filter (!seen.contains ·)) found) :
      Rounds extra seen fresh found

variable {f least most} {bound : Nat}

def Bounded (bound : Nat) (f : List Nat → List Nat) : Prop :=
  ∀ starts, (∀ i ∈ starts, i ≤ bound) → ∀ j ∈ f starts, j ≤ bound

theorem Bounded.passes (hf : Bounded bound f) (n : Nat) : Bounded bound (passes f n) := by
  induction n with
  | zero => exact fun starts hstarts => hstarts
  | succ n ih =>
      intro starts hstarts j hj
      rw [Pattern.passes] at hj
      split at hj
      · exact absurd hj List.not_mem_nil
      · exact ih (f starts) (hf starts hstarts) j hj

theorem Bounded.sweep (hf : Bounded bound f) {n : Nat} {seen fresh : List Nat}
    (hseen : ∀ i ∈ seen, i ≤ bound) (hfresh : ∀ i ∈ fresh, i ≤ bound) :
    ∀ j ∈ sweep f n seen fresh, j ≤ bound := by
  induction n generalizing seen fresh with
  | zero => exact hseen
  | succ n ih =>
      rw [Pattern.sweep]
      split
      · exact hseen
      · have hnext : ∀ i ∈ (f fresh).filter (!seen.contains ·), i ≤ bound :=
          fun i hi => hf fresh hfresh i (List.mem_of_mem_filter hi)
        exact ih (List.forall_mem_append.2 ⟨hseen, hnext⟩) hnext

def unseen (bound : Nat) (seen : List Nat) : Finset Nat :=
  (Finset.range (bound + 1)).filter (· ∉ seen)

theorem card_unseen_lt {seen next : List Nat} {j : Nat} (hj : j ≤ bound) (hseen : j ∉ seen)
    (hnext : j ∈ next) : (unseen bound (seen ++ next)).card < (unseen bound seen).card := by
  apply Finset.card_lt_card
  rw [Finset.ssubset_iff_of_subset]
  · refine ⟨j, ?_, ?_⟩
    · exact Finset.mem_filter.2 ⟨Finset.mem_range.2 (Nat.lt_succ_of_le hj), hseen⟩
    · intro hmem
      exact (Finset.mem_filter.1 hmem).2 (List.mem_append_right seen hnext)
  · intro i hi
    obtain ⟨hrange, hi⟩ := Finset.mem_filter.1 hi
    exact Finset.mem_filter.2 ⟨hrange, fun hmem => hi (List.mem_append_left next hmem)⟩

theorem card_unseen_le {seen : List Nat} {i : Nat} (hi : i ≤ bound) (hmem : i ∈ seen) :
    (unseen bound seen).card ≤ bound := by
  have hlt := card_unseen_lt hi List.not_mem_nil hmem
  have hall : (unseen bound []).card ≤ bound + 1 :=
    (Finset.card_filter_le _ _).trans_eq (Finset.card_range _)
  rw [List.nil_append] at hlt
  omega

/-- A sweep that is cut off after `n` rounds does what the rounds do without a cap, if at the cut
nothing can be left: each round but the last sees an offset for the first time. -/
theorem rounds_sweep (hf : Bounded bound f) {n extra : Nat} {seen fresh : List Nat}
    (hfresh : ∀ i ∈ fresh, i ≤ bound) (hmost : ∀ m ∈ most, n ≤ m - (least + extra))
    (hn : fresh = [] ∨ (∃ m ∈ most, m ≤ least + extra + n) ∨ (unseen bound seen).card < n) :
    Rounds f least most extra seen fresh (sweep f n seen fresh) := by
  induction n generalizing extra seen fresh with
  | zero =>
      rcases hn with hnil | hlast | hcard
      · exact .stop (.inl hnil)
      · exact .stop (.inr hlast)
      · omega
  | succ n ih =>
      rw [sweep]
      by_cases hnil : fresh = []
      · rw [hnil, List.isEmpty_nil, if_pos rfl]
        exact .stop (.inl rfl)
      · rw [if_neg (by simpa using hnil)]
        have hnext : ∀ i ∈ (f fresh).filter (!seen.contains ·), i ≤ bound :=
          fun i hi => hf fresh hfresh i (List.mem_of_mem_filter hi)
        refine .round hnil (fun m hm => ?_) (ih hnext (fun m hm => ?_) ?_)
        · have := hmost m hm
          omega
        · have := hmost m hm
          omega
        · rcases hn with hnil' | ⟨m, hm, hle⟩ | hcard
          · exact absurd hnil' hnil
          · exact .inr (.inl ⟨m, hm, by omega⟩)
          · -- A round that sees nothing new is the last one, whatever its number.
            by_cases hstop : (f fresh).filter (!seen.contains ·) = []
            · exact .inl hstop
            · obtain ⟨j, hj⟩ := List.exists_mem_of_ne_nil _ hstop
              have hnew : j ∉ seen := by simpa using (List.mem_filter.1 hj).2
              have hlt := card_unseen_lt (hnext j hj) hnew hj
              exact .inr (.inr (by omega))

end Rounds

section Endpoints

variable (input : Array Char)

theorem bounded_symbol {test : Nat → Bool} (htest : ∀ i, test i = true → i < input.size) :
    Bounded input.size fun starts => (starts.filter test).map (· + 1) := by
  intro starts _ j hj
  obtain ⟨i, hi, rfl⟩ := List.mem_map.1 hj
  exact htest i (List.mem_filter.1 hi).2

theorem bounded_endpoints (p : Pattern) : Bounded input.size (endpoints input p) := by
  induction p with
  | literal c =>
      refine bounded_symbol input fun i hi => ?_
      exact (Array.getElem?_eq_some_iff.1 (beq_iff_eq.1 hi)).1
  | range lo hi =>
      refine bounded_symbol input fun i hi => ?_
      cases hc : input[i]? with
      | none =>
          rw [hc] at hi
          cases hi
      | some c => exact (Array.getElem?_eq_some_iff.1 hc).1
  | concat p q ihp ihq => exact fun starts hstarts => ihq _ (ihp starts hstarts)
  | alternate p q ihp ihq =>
      intro starts hstarts j hj
      rcases mem_unite.1 hj with hj | hj
      · exact ihp starts hstarts j hj
      · exact ihq starts hstarts j hj
  | repeated p least most ih =>
      intro starts hstarts
      have hfirst := ih.passes least starts hstarts
      exact ih.sweep hfirst hfirst

theorem rounds_endpoints (body : Pattern) (least : Nat) (most : Option Nat) {starts : List Nat}
    (hstarts : ∀ i ∈ starts, i ≤ input.size) :
    Rounds (endpoints input body) least most 0 (passes (endpoints input body) least starts)
      (passes (endpoints input body) least starts)
      (endpoints input (repeated body least most) starts) := by
  have hbody := bounded_endpoints input body
  have hfirst := hbody.passes least starts hstarts
  rw [endpoints]
  refine rounds_sweep hbody hfirst (fun m hm => ?_) ?_
  · cases hm
    exact Nat.min_le_left _ _
  · by_cases hnil : passes (endpoints input body) least starts = []
    · exact .inl hnil
    · obtain ⟨i, hi⟩ := List.exists_mem_of_ne_nil _ hnil
      have hcard := card_unseen_le (hfirst i hi) hi
      cases most with
      | none => exact .inr (.inr (Nat.lt_succ_of_le hcard))
      | some m =>
          rw [sweepLimit]
          by_cases hle : m - least ≤ input.size + 1
          · exact .inr (.inl ⟨m, rfl, by omega⟩)
          · exact .inr (.inr (by omega))

theorem reaches_iff_extract {L : Language Char} {i j : Nat} (hi : i ≤ input.size) :
    Reaches input.toList L i j ↔
      i ≤ j ∧ j ≤ input.size ∧ (input.extract i j).toList ∈ L := by
  have hsize : input.toList.length = input.size := Array.length_toList
  rw [Array.toList_extract, List.extract_eq_take_drop]
  constructor
  · rintro ⟨w, hw, hp, rfl⟩
    have hlen := hp.length_le
    rw [List.length_drop] at hlen
    refine ⟨Nat.le_add_right _ _, by omega, ?_⟩
    rwa [Nat.add_sub_cancel_left, ← List.prefix_iff_eq_take.1 hp]
  · rintro ⟨hij, hj, hw⟩
    refine ⟨_, hw, List.take_prefix _ _, ?_⟩
    rw [List.length_take, List.length_drop]
    omega

end Endpoints

/-- Matching on sets of offsets finds just the ends of the parts of the input that the pattern stands
for. In a repetition it stops by itself, also if the body can be empty. -/
theorem endpoints_exact (input : Array Char) :
    (∀ p : Pattern, p.CountsOrdered →
      (∀ starts : List Nat, (∀ i ∈ starts, i ≤ input.size) → ∀ j, j ∈ endpoints input p starts ↔
        ∃ i ∈ starts, i ≤ j ∧ j ≤ input.size ∧ (input.extract i j).toList ∈ p.language) ∧
      (p.matchesAll input = true ↔ input.toList ∈ p.language)) ∧
    ∀ (body : Pattern) (least : Nat) (most : Option Nat) (starts : List Nat),
      (∀ i ∈ starts, i ≤ input.size) →
        Rounds (endpoints input body) least most 0 (passes (endpoints input body) least starts)
          (passes (endpoints input body) least starts)
          (endpoints input (repeated body least most) starts) := by
  refine ⟨fun p hp => ⟨fun starts hstarts j => ?_, ?_⟩, fun body least most starts =>
    rounds_endpoints input body least most⟩
  · rw [advances_endpoints input hp]
    refine exists_congr fun i => and_congr_right fun hi => ?_
    exact reaches_iff_extract input (hstarts i hi)
  · exact matchesAll_iff hp input.toList

theorem endpoints_exact_nested :
    (∀ j, j ∈ [1, 3, 2] ↔ ∃ i ∈ [1, 3], i ≤ j ∧ j ≤ 3 ∧
      (#['b', 'a', 'b'].extract i j).toList ∈ (star (star (literal 'a'))).language) ∧
    Rounds (endpoints #['b', 'a', 'b'] (star (literal 'a'))) 0 none 0 [1, 3] [1, 3] [1, 3, 2] := by
  obtain ⟨hends, hrounds⟩ := endpoints_exact #['b', 'a', 'b']
  have hordered : (star (star (literal 'a'))).CountsOrdered := countsOrdered_of_flaw? rfl
  have hstarts : ∀ i ∈ [1, 3], i ≤ #['b', 'a', 'b'].size := by decide
  have hfound : endpoints #['b', 'a', 'b'] (star (star (literal 'a'))) [1, 3] = [1, 3, 2] := by
    decide
  rw [← hfound]
  exact ⟨(hends _ hordered).1 _ hstarts, hrounds (star (literal 'a')) 0 none _ hstarts⟩

end Munch.Pattern
