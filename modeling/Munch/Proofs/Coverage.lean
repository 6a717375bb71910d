import Munch.Proofs.Members

namespace Munch

def Words.Holds (ws : Words) (i : Nat) (words : List UInt32) : Prop :=
  ∀ k (h : k < words.length), ws (i + k) = words[k]

theorem Words.Holds.of_append {ws : Words} {i : Nat} {us vs : List UInt32}
    (h : ws.Holds i (us ++ vs)) : ws.Holds i us ∧ ws.Holds (i + us.length) vs := by
  constructor
  · intro k hk
    rw [h k (by rw [List.length_append]; omega), List.getElem_append_left hk]
  · intro k hk
    rw [Nat.add_assoc, h (us.length + k) (by rw [List.length_append]; omega),
      List.getElem_append_right (Nat.le_add_right _ _)]
    congr 1
    omega

theorem Words.holds_cycle (words : List UInt32) : (cycle words).Holds 0 words := by
  intro k hk
  rw [cycle, Nat.zero_add, Nat.mod_eq_of_lt hk, List.getD_eq_getElem?_getD,
    List.getElem?_eq_getElem hk, Option.getD_some]

namespace Pattern

/-- For each bounded repetition of which the graph gets a copy, the difference of its counts is a
64-bit word. -/
def SpansFit (p : Pattern) : Prop :=
  ∀ q least most, p.Copies (repeated q least (some most)) → most - least < Text.words64

theorem SpansFit.of_mem_copied {p q : Pattern} (h : p.SpansFit) (hq : q ∈ p.copied) : q.SpansFit :=
  fun r least most hr => h r least most (.head hq hr)

theorem exists_few_copies {L : Language Char} {least n : Nat} {w : List Char} (hn : least ≤ n)
    (hw : w ∈ L ^ n) : ∃ m, least ≤ m ∧ m ≤ n ∧ m ≤ least + w.length ∧ w ∈ L ^ m := by
  obtain ⟨extra, rfl⟩ := Nat.exists_eq_add_of_le hn
  rw [pow_add] at hw
  obtain ⟨u, hu, v, hv, rfl⟩ := Language.mem_mul.1 hw
  have hreach : Reaches v (L ^ extra) 0 v.length :=
    ⟨v, hv, List.prefix_refl _, (Nat.zero_add _).symm⟩
  obtain ⟨e, he, hlen, v', hv', hpre, hlength⟩ := hreach.few_copies
  obtain rfl : v' = v := hpre.eq_of_length (by rw [List.drop_zero, hlength, Nat.zero_add])
  refine ⟨least + e, Nat.le_add_right _ _, Nat.add_le_add_left he _, ?_, ?_⟩
  · rw [List.length_append]
    omega
  · rw [pow_add]
    exact Language.append_mem_mul hu hv'

end Pattern

namespace Draw

section Choices

variable {α β : Type} {a : α} {b : β} {draw : Words → Draw α} {next : Words → α → Draw β}

/-- Some words make the choice come out as `a`, wherever it begins to read. It reads just these. -/
def CanGive (draw : Words → Draw α) (a : α) : Prop :=
  ∃ words : List UInt32, ∀ ws i, ws.Holds i words → draw ws i = some (a, i + words.length)

theorem canGive_pure (a : α) : CanGive (fun _ => pure a) a := ⟨[], fun _ _ _ => rfl⟩

theorem CanGive.bind (h : CanGive draw a) (hnext : CanGive (fun ws => next ws a) b) :
    CanGive (fun ws => draw ws >>= next ws) b := by
  obtain ⟨us, hus⟩ := h
  obtain ⟨vs, hvs⟩ := hnext
  refine ⟨us ++ vs, fun ws i hi => ?_⟩
  obtain ⟨hu, hv⟩ := hi.of_append
  change (draw ws i).bind (fun x => next ws x.1 x.2) = _
  rw [hus ws i hu, List.length_append, ← Nat.add_assoc]
  exact hvs ws _ hv

end Choices

section Numbers

theorem canGive_word {n : Nat} (hn : n < Text.words32) : CanGive word n := by
  refine ⟨[.ofNat n], fun ws i hi => ?_⟩
  have hword : ws i = .ofNat n := hi 0 Nat.zero_lt_one
  rw [word, hword, UInt32.toNat_ofNat_of_lt' hn]
  rfl

theorem canGive_doubleWord {n : Nat} (hn : n < Text.words64) : CanGive doubleWord n := by
  have hupper : n / Text.words32 < Text.words32 := Nat.div_lt_of_lt_mul hn
  have hlower : n % Text.words32 < Text.words32 := Nat.mod_lt n (Nat.succ_pos _)
  have hsum : n = n % Text.words32 + n / Text.words32 * Text.words32 := by
    rw [Nat.mul_comm, Nat.mod_add_div]
  refine (canGive_word hlower).bind ((canGive_word hupper).bind ?_)
  rw [← hsum]
  exact canGive_pure n

theorem canGive_coin (b : Bool) : CanGive coin b := by
  have hn : (if b then 0 else Text.words64 / 2) < Text.words64 := by
    cases b <;> decide
  refine (canGive_doubleWord hn).bind ?_
  cases b <;> exact canGive_pure _

theorem exists_upper_half {size n v : Nat} (hv : v < n) (hn : n ≤ size) :
    ∃ k < size, k * n / size = v := by
  have hpos : 0 < n := Nat.zero_lt_of_lt hv
  let k := (v * size + (n - 1)) / n
  have hrounded : n * k + (v * size + (n - 1)) % n = v * size + (n - 1) := Nat.div_add_mod _ _
  have hrest : (v * size + (n - 1)) % n < n := Nat.mod_lt _ hpos
  have hmost : v * size + size ≤ n * size := by
    rw [← Nat.succ_mul]
    exact Nat.mul_le_mul_right size hv
  refine ⟨k, Nat.lt_of_mul_lt_mul_left (a := n) (by omega), ?_⟩
  rw [Nat.mul_comm k n]
  exact Nat.div_eq_of_lt_le (by omega) (by rw [Nat.succ_mul]; omega)

theorem canGive_scaled {size n v : Nat} {number : Words → Draw Nat}
    (h : ∀ k < size, CanGive number k) (hv : v < n) (hn : n ≤ size) :
    CanGive (fun ws => scaled size (number ws) n) v := by
  obtain ⟨k, hk, hupper⟩ := exists_upper_half hv hn
  have hpos : 0 < size := Nat.zero_lt_of_lt hk
  simp only [scaled, if_neg (Nat.zero_lt_of_lt hv).ne']
  refine (h k hk).bind ?_
  by_cases hlower : size - n < k * n % size
  · -- The smallest number never makes a carry.
    simp only [if_pos hlower]
    refine (h 0 hpos).bind ?_
    rw [Nat.zero_mul, Nat.zero_div, Nat.add_zero, if_neg (Nat.not_le.2 (Nat.mod_lt _ hpos)), hupper]
    exact canGive_pure v
  · simp only [if_neg hlower]
    rw [hupper]
    exact canGive_pure v

theorem canGive_between {least most v : Nat} (hleast : least ≤ v) (hmost : v ≤ most)
    (hspan : most - least < Text.words64) : CanGive (fun ws => between ws least most) v := by
  have hv : v - least < most + 1 - least := by omega
  have hadd : CanGive (fun _ => pure (least + (v - least))) v := by
    rw [Nat.add_sub_cancel' hleast]
    exact canGive_pure v
  by_cases hsmall : most < Text.words32
  · simp only [between, if_pos hsmall]
    exact (canGive_scaled (fun k hk => canGive_word hk) hv (by omega)).bind hadd
  · simp only [between, if_neg hsmall]
    exact (canGive_scaled (fun k hk => canGive_doubleWord hk) hv (by omega)).bind hadd

end Numbers

theorem canGive_times {L : Language Char} {draw : Words → Draw (List Char)} {n bound : Nat}
    (h : n ≠ 0 → ∀ u ∈ L, u.length ≤ bound → CanGive draw u) {w : List Char} (hw : w ∈ L ^ n)
    (hlen : w.length ≤ bound) : CanGive (fun ws => times (draw ws) n) w := by
  induction n generalizing w with
  | zero =>
      rw [pow_zero, Language.mem_one] at hw
      rw [hw]
      exact canGive_pure []
  | succ n ih =>
      have hdraw := h n.succ_ne_zero
      rw [pow_succ'] at hw
      obtain ⟨u, hu, v, hv, rfl⟩ := Language.mem_mul.1 hw
      rw [List.length_append] at hlen
      refine (hdraw u hu (by omega)).bind ?_
      exact (ih (fun _ => hdraw) hv (by omega)).bind (canGive_pure (u ++ v))

open Pattern

theorem canGive_member {extra : Nat} {p : Pattern} (hfit : p.CountsFit extra) (hspan : p.SpansFit)
    {w : List Char} (hw : w ∈ p.language) (hlen : w.length ≤ extra) :
    CanGive (fun ws => member ws extra p) w := by
  induction p generalizing w with
  | literal c =>
      rw [mem_language_literal.1 hw]
      exact canGive_pure [c]
  | range lo hi =>
      obtain ⟨c, rfl, hlo, hhi⟩ := hw
      have hsize : hi.toNat - lo.toNat < Text.words64 :=
        (Nat.sub_le _ _).trans_lt (hi.val.toNat_lt.trans (by decide))
      have hleast : lo.toNat ≤ c.toNat := hlo
      refine (canGive_between hleast hhi hsize).bind ?_
      rw [Text.scalar?_eq_some.2 rfl]
      exact canGive_pure [c]
  | concat p q ihp ihq =>
      have hleft : p ∈ (concat p q).copied := by simp [copied, parts]
      have hright : q ∈ (concat p q).copied := by simp [copied, parts]
      obtain ⟨u, hu, v, hv, rfl⟩ := Language.mem_mul.1 hw
      rw [List.length_append] at hlen
      refine (ihp (hfit.of_mem_copied hleft) (hspan.of_mem_copied hleft) hu (by omega)).bind ?_
      refine (ihq (hfit.of_mem_copied hright) (hspan.of_mem_copied hright) hv (by omega)).bind ?_
      exact canGive_pure (u ++ v)
  | alternate p q ihp ihq =>
      rcases hw with hw | hw
      · have hleft : p ∈ (alternate p q).copied := by simp [copied, parts]
        refine (canGive_coin true).bind ?_
        exact ihp (hfit.of_mem_copied hleft) (hspan.of_mem_copied hleft) hw hlen
      · have hright : q ∈ (alternate p q).copied := by simp [copied, parts]
        refine (canGive_coin false).bind ?_
        exact ihq (hfit.of_mem_copied hright) (hspan.of_mem_copied hright) hw hlen
  | repeated p least most ih =>
      have hcount := hfit p least most .refl
      obtain ⟨n, hn, hmost, hw⟩ := hw
      obtain ⟨m, hm, hmn, hfew, hw⟩ := exists_few_copies hn hw
      have hgreatest : m ≤ most.getD (least + extra) := by
        cases most with
        | none => exact hfew.trans (Nat.add_le_add_left hlen _)
        | some most => exact hmn.trans (hmost most rfl)
      have hsize : most.getD (least + extra) - least < Text.words64 := by
        cases most with
        | none => exact (Nat.sub_le _ _).trans_lt hcount
        | some most => exact hspan p least most .refl
      simp only [member, greatestCount_eq hcount, pure_bind]
      refine (canGive_between hm hgreatest hsize).bind (canGive_times (fun hzero => ?_) hw hlen)
      -- Nothing is asked of the body if the greatest count is zero, and then it is not drawn from.
      have hcopied : p ∈ (repeated p least most).copied := by
        apply mem_copied_repeated
        rintro rfl
        exact hzero (Nat.le_zero.1 hgreatest)
      intro u hu hulen
      exact ih (hfit.of_mem_copied hcopied) (hspan.of_mem_copied hcopied) hu hulen

/-- Each word that the pattern matches is drawn from some finite list of random words, whatever
comes after them, if as many extra copies are allowed as the word is long. -/
theorem exists_words_of_matches {p : Pattern} {w : List Char}
    (hordered : ∀ q, p.Copies q → ¬ q.Inverted) (hfit : p.CountsFit w.length) (hspan : p.SpansFit)
    (hmatch : p.matchesAll w.toArray = true) :
    ∃ words : List UInt32, ∀ ws : Words, ws.Holds 0 words →
      member ws w.length p 0 = some (w, words.length) := by
  have hcounts := countsOrdered_of_flaw? (flaw?_eq_none_iff.2 hordered)
  have hw := (matchesAll_iff hcounts w).1 hmatch
  obtain ⟨words, hwords⟩ := canGive_member hfit hspan hw le_rfl
  refine ⟨words, fun ws hws => (hwords ws 0 hws).trans ?_⟩
  rw [Nat.zero_add]

def nullablePattern : Pattern :=
  .repeated (.alternate (.range '\ud7ff' '\ue000') (.star (.literal 'a'))) 2 none

theorem exists_words_of_matches_nullable :
    nullablePattern.matchesAll #['a', '\ue000', 'a', 'a'] = true ∧
      ∃ words, member (Words.cycle words) 4 nullablePattern 0 =
        some (['a', '\ue000', 'a', 'a'], words.length) := by
  have hordered : ∀ q, nullablePattern.Copies q → ¬ q.Inverted := flaw?_eq_none_iff.1 rfl
  have hfit : nullablePattern.CountsFit 4 := by
    intro q least most hq
    have hvisited := mem_visited.2 hq
    simp only [nullablePattern, Pattern.star, visited, List.cons_append, List.nil_append,
      List.mem_cons, List.not_mem_nil, reduceCtorEq, or_false, false_or, repeated.injEq] at hvisited
    rcases hvisited with ⟨-, rfl, -⟩ | ⟨-, rfl, -⟩ <;> decide
  have hspan : nullablePattern.SpansFit := by
    intro q least most hq
    have hvisited := mem_visited.2 hq
    simp [nullablePattern, Pattern.star, visited] at hvisited
  have hmatch : nullablePattern.matchesAll #['a', '\ue000', 'a', 'a'] = true := by
    decide
  obtain ⟨words, hwords⟩ :=
    exists_words_of_matches (w := ['a', '\ue000', 'a', 'a']) hordered hfit hspan hmatch
  exact ⟨hmatch, words, hwords _ (Words.holds_cycle words)⟩

end Draw

end Munch
