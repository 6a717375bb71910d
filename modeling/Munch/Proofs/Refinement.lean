import Munch.Proofs.Merging

namespace Munch

namespace Partition

variable {p p' : Partition} {n : Nat}

theorem Dense.count_le (h : p.Dense n) : p.count ≤ n := by
  have hcard := Finset.card_le_card_of_surjOn p.of (s := Finset.range n)
    (t := Finset.range p.count) fun b hb => by
      obtain ⟨q, hq, rfl⟩ := h.full b (Finset.mem_range.1 hb)
      exact ⟨q, Finset.mem_coe.2 (Finset.mem_range.2 hq), rfl⟩
  rwa [Finset.card_range, Finset.card_range] at hcard

theorem Dense.count_mono (h : p.Dense n) (h' : p'.Dense n)
    (href : ∀ q < n, ∀ r < n, p'.of q = p'.of r → p.of q = p.of r) : p.count ≤ p'.count := by
  choose! member hmember using h'.full
  have hcard := Finset.card_le_card_of_surjOn (fun b => p.of (member b))
    (s := Finset.range p'.count) (t := Finset.range p.count) fun b hb => by
      obtain ⟨q, hq, rfl⟩ := h.full b (Finset.mem_range.1 hb)
      obtain ⟨hlt, heq⟩ := hmember _ (h'.lt q hq)
      exact ⟨p'.of q, Finset.mem_coe.2 (Finset.mem_range.2 (h'.lt q hq)),
        href _ hlt q hq heq⟩
  rwa [Finset.card_range, Finset.card_range] at hcard

theorem Dense.le_of {q : Nat} (h' : p'.Dense n) (hq : q < n)
    (hsame : ∀ r < n, p.of q = p.of r → p'.of q = p'.of r)
    (hbefore : ∀ r < q, p.of r = p'.of r) : p'.of q ≤ p.of q := by
  by_contra hlt
  obtain ⟨r, hr, hof⟩ := h'.first q hq _ (Nat.not_le.1 hlt)
  have heq := hsame r (hr.trans hq) ((hbefore r hr).trans hof).symm
  exact hlt (heq.trans hof).le

theorem Dense.of_eq (h : p.Dense n) (h' : p'.Dense n)
    (hsame : ∀ q < n, ∀ r < n, p.of q = p.of r ↔ p'.of q = p'.of r) :
    ∀ q < n, p.of q = p'.of q := by
  intro q
  induction q using Nat.strong_induction_on with
  | h q ih =>
      intro hq
      have hbefore (r : Nat) (hr : r < q) : p.of r = p'.of r := ih r hr (hr.trans hq)
      apply Nat.le_antisymm
      · exact h.le_of hq (fun r hr => (hsame q hq r hr).2) fun r hr => (hbefore r hr).symm
      · exact h'.le_of hq (fun r hr => (hsame q hq r hr).1) hbefore

theorem Dense.block_eq (h : p.Dense n) (h' : p'.Dense n)
    (hof : ∀ q < n, p.of q = p'.of q) : p.block = p'.block := by
  apply Array.ext (h.size.trans h'.size.symm)
  intro q hq hq'
  have heq := hof q (h.size ▸ hq)
  rwa [of, of, Array.getD_eq_getD_getElem?, Array.getD_eq_getD_getElem?,
    Array.getElem?_eq_getElem hq, Array.getElem?_eq_getElem hq'] at heq

end Partition

namespace Dfa

variable (d : Dfa) (p : Partition)

/-- The rounds go on, with no bound on their number, until one leaves the number of blocks as it
is. -/
inductive Refines : Partition → Nat → Partition → Prop
  | last {p : Partition} (h : (d.refineOnce p).count = p.count) : Refines p 1 (d.refineOnce p)
  | again {p last : Partition} {rounds : Nat} (h : (d.refineOnce p).count ≠ p.count)
      (hr : Refines (d.refineOnce p) rounds last) : Refines p (rounds + 1) last

structure Settled : Prop where
  rule : ∀ q < d.states.size, ∀ r < d.states.size, p.of q = p.of r →
    d.states[q]?.map (·.rule) = d.states[r]?.map (·.rule)
  stable : d.Stable p

/-- A round only splits blocks, and one that makes no new block leaves them all as they are. -/
structure SplitsOnly : Prop where
  apart : ∀ q < d.states.size, ∀ r < d.states.size, p.of q ≠ p.of r →
    (d.refineOnce p).of q ≠ (d.refineOnce p).of r
  count_le : p.count ≤ (d.refineOnce p).count
  same : (d.refineOnce p).count = p.count →
    (d.refineOnce p).block = p.block ∧ d.Settled (d.refineOnce p)

variable {d p}

theorem of_eq_of_refineOnce {q r : Nat} (hq : q < d.states.size) (hr : r < d.states.size)
    (h : (d.refineOnce p).of q = (d.refineOnce p).of r) : p.of q = p.of r :=
  ((of_refineOnce_eq_iff hq hr).1 h).1

theorem Fair.count_le_refineOnce (h : d.Fair p) : p.count ≤ (d.refineOnce p).count :=
  h.dense.count_mono dense_refineOnce fun _ hq _ hr => of_eq_of_refineOnce hq hr

theorem Fair.of_refineOnce (h : d.Fair p) (hcount : (d.refineOnce p).count ≤ p.count) :
    ∀ q < d.states.size, (d.refineOnce p).of q = p.of q := by
  have hsame := h.dense.of_eq_of_count_le dense_refineOnce hcount
    fun q hq r hr => of_eq_of_refineOnce hq hr
  exact dense_refineOnce.of_eq h.dense fun q hq r hr =>
    ⟨of_eq_of_refineOnce hq hr, hsame q hq r hr⟩

theorem Fair.splitsOnly (hrange : d.automaton.InRange) (h : d.Fair p) : d.SplitsOnly p where
  apart q hq r hr hne heq := hne (of_eq_of_refineOnce hq hr heq)
  count_le := h.count_le_refineOnce
  same hcount := by
    refine ⟨dense_refineOnce.block_eq h.dense (h.of_refineOnce hcount.le), ?_⟩
    exact ⟨(h.refineOnce hrange).rule, h.stable_refineOnce hrange hcount.le⟩

theorem fair_iterate_refineOnce (hrange : d.automaton.InRange) (rounds : Nat) :
    d.Fair (d.refineOnce^[rounds] d.rulePartition) := by
  induction rounds with
  | zero => exact fair_rulePartition
  | succ rounds ih =>
      rw [Function.iterate_succ_apply']
      exact ih.refineOnce hrange

theorem Refines.unique {rounds rounds' : Nat} {last last' : Partition}
    (h : d.Refines p rounds last) (h' : d.Refines p rounds' last') :
    rounds' = rounds ∧ last' = last := by
  induction h generalizing rounds' with
  | last hcount =>
      cases h' with
      | last => exact ⟨rfl, rfl⟩
      | again hne => exact absurd hcount hne
  | again hne _ ih =>
      cases h' with
      | last hcount => exact absurd hcount hne
      | again _ h' =>
          obtain ⟨rfl, rfl⟩ := ih h'
          exact ⟨rfl, rfl⟩

theorem Fair.refines (hrange : d.automaton.InRange) (h : d.Fair p) :
    d.Refines p (d.refine p).2 (d.refine p).1 ∧
      (d.refine p).2 + p.count ≤ d.states.size + 1 := by
  fun_induction d.refine p with
  | case1 p hlt last rounds hlast ih =>
      have hih := ih (h.refineOnce hrange)
      rw [hlast] at hih
      obtain ⟨hrefines, hle⟩ := hih
      exact ⟨.again hlt.ne' hrefines, by dsimp only at hle ⊢; omega⟩
  | case2 p hcount =>
      have heq := Nat.le_antisymm (Nat.not_lt.1 hcount) h.count_le_refineOnce
      exact ⟨.last heq, by have := h.dense.count_le; dsimp only; omega⟩

/-- The rounds stop with settled blocks as soon as one makes no new block, and there are no more of
them than states. -/
theorem refine_stops_exactly (hpos : 0 < d.states.size) (hrange : d.automaton.InRange) :
    (∀ rounds, d.SplitsOnly (d.refineOnce^[rounds] d.rulePartition)) ∧
      (∀ rounds last, d.Refines d.rulePartition rounds last ↔
        (last, rounds) = d.refine d.rulePartition) ∧
      (d.refine d.rulePartition).2 ≤ d.states.size := by
  obtain ⟨hrefines, hle⟩ := fair_rulePartition.refines hrange
  refine ⟨fun rounds => (fair_iterate_refineOnce hrange rounds).splitsOnly hrange,
    fun rounds last => ⟨fun h => ?_, fun h => ?_⟩, ?_⟩
  · obtain ⟨rfl, rfl⟩ := hrefines.unique h
    rfl
  · rwa [← h] at hrefines
  · have hcount := fair_rulePartition.dense.lt 0 hpos
    omega

theorem refine_stops_exactly_tails :
    0 < tails.states.size ∧ tails.automaton.InRange ∧
      (∃ rounds ≤ 6, ∃ last, tails.Refines tails.rulePartition rounds last) ∧
      (tails.refineOnce tails.rulePartition).of 1 ≠
        (tails.refineOnce tails.rulePartition).of 3 := by
  obtain ⟨hsplits, hrefines, hle⟩ := refine_stops_exactly (d := tails) (by decide) inRange_tails
  refine ⟨by decide, inRange_tails, ⟨_, hle, _, (hrefines _ _).2 rfl⟩, ?_⟩
  refine (hsplits 0).apart 1 (by decide) 3 (by decide) fun heq => ?_
  exact absurd (fair_rulePartition.rule 1 (by decide) 3 (by decide) heq) (by decide)

end Dfa

end Munch
