import Mathlib.Data.Option.Basic
import Mathlib.Order.Bounds.Basic
import Munch.Proofs.Minimal

namespace Munch.Dfa

def SameRule (d e : Dfa) (q r : Nat) : Prop :=
  ∃ s t, d.states[q]? = some s ∧ e.states[r]? = some t ∧ s.rule = t.rule

/-- Minimization merges the state `q` into the new state `b`. -/
def InBlock (d : Dfa) (q b : Nat) : Prop := d.stablePartition.block[q]? = some b

variable {d e : Dfa}

theorem sameRule_iff {q r : Nat} (hq : q < d.states.size) (hr : r < e.states.size) :
    SameRule d e q r ↔ d.answer q [] = e.answer r [] := by
  rw [answer_nil, answer_nil, Array.getElem?_eq_getElem hq, Array.getElem?_eq_getElem hr]
  constructor
  · rintro ⟨s, t, hs, ht, hrule⟩
    rw [Array.getElem?_eq_getElem hq] at hs
    rw [Array.getElem?_eq_getElem hr] at ht
    cases hs
    cases ht
    rw [Option.map_some, Option.map_some, hrule]
  · intro h
    exact ⟨_, _, Array.getElem?_eq_getElem hq, Array.getElem?_eq_getElem hr, Option.some.inj h⟩

theorem rel_follow_iff (hd : d.automaton.InRange) (he : e.automaton.InRange) {q r : Nat}
    (hq : q < d.states.size) (hr : r < e.states.size) (w : List Char) :
    Option.Rel (SameRule d e) (d.automaton.follow q w) (e.automaton.follow r w) ↔
      d.answer q w = e.answer r w := by
  cases hq' : d.automaton.follow q w with
  | none =>
      rw [(answer_eq_none_iff hd hq).2 hq', eq_comm, answer_eq_none_iff he hr]
      cases e.automaton.follow r w <;> simp
  | some q' =>
      cases hr' : e.automaton.follow r w with
      | none =>
          rw [(answer_eq_none_iff he hr).2 hr', answer_eq_none_iff hd hq, hq']
          simp
      | some r' =>
          rw [Option.rel_some_some, sameRule_iff (follow_lt hd hq hq') (follow_lt he hr hr'),
            ← answer_append hq', ← answer_append hr', List.append_nil]

section Blocks

variable (hrange : d.automaton.InRange)

include hrange

theorem inBlock_iff {q b : Nat} :
    d.InBlock q b ↔ q < d.states.size ∧ d.stablePartition.of q = b := by
  have hdense := (fair_stablePartition hrange).1.dense
  rw [InBlock, ← hdense.size, Partition.of, Array.getD_eq_getD_getElem?]
  constructor
  · intro h
    rw [h]
    exact ⟨(Array.getElem?_eq_some_iff.1 h).1, rfl⟩
  · rintro ⟨hq, rfl⟩
    rw [Array.getElem?_eq_getElem hq, Option.getD_some]

theorem InBlock.lt {q b : Nat} (h : d.InBlock q b) : b < d.minimize.states.size := by
  obtain ⟨hq, rfl⟩ := (inBlock_iff hrange).1 h
  rw [(states_minimize hrange).1]
  exact (fair_stablePartition hrange).1.dense.lt q hq

theorem exists_inBlock {q : Nat} (hq : q < d.states.size) :
    ∃ b < d.minimize.states.size, d.InBlock q b := by
  have hblock : d.InBlock q (d.stablePartition.of q) := (inBlock_iff hrange).2 ⟨hq, rfl⟩
  exact ⟨_, hblock.lt hrange, hblock⟩

theorem InBlock.sameRule {q b : Nat} (h : d.InBlock q b) : SameRule d d.minimize q b := by
  rw [sameRule_iff ((inBlock_iff hrange).1 h).1 (h.lt hrange)]
  obtain ⟨hq, rfl⟩ := (inBlock_iff hrange).1 h
  exact (answer_minimize hrange hq []).symm

theorem InBlock.rel_follow {q b : Nat} (h : d.InBlock q b) (w : List Char) :
    Option.Rel (fun r c => d.InBlock r c ∧ SameRule d d.minimize r c)
      (d.automaton.follow q w) (d.minimize.automaton.follow b w) := by
  obtain ⟨hq, rfl⟩ := (inBlock_iff hrange).1 h
  rw [follow_minimize hrange hq]
  cases hr : d.automaton.follow q w with
  | none => exact .none
  | some r =>
      have hblock : d.InBlock r (d.stablePartition.of r) :=
        (inBlock_iff hrange).2 ⟨follow_lt hrange hq hr, rfl⟩
      exact .some ⟨hblock, hblock.sameRule hrange⟩

theorem InBlock.eq_iff {q r b c : Nat} (hb : d.InBlock q b) (hc : d.InBlock r c) :
    b = c ↔ ∀ w, Option.Rel (SameRule d d) (d.automaton.follow q w) (d.automaton.follow r w) := by
  obtain ⟨hq, rfl⟩ := (inBlock_iff hrange).1 hb
  obtain ⟨hr, rfl⟩ := (inBlock_iff hrange).1 hc
  simp only [rel_follow_iff hrange hrange hq hr]
  exact of_stablePartition_eq_iff hrange hq hr

theorem isLeast_leader {b : Nat} (hb : b < d.minimize.states.size) :
    IsLeast {q | d.InBlock q b} (d.leader b) := by
  rw [(states_minimize hrange).1] at hb
  refine ⟨(inBlock_iff hrange).2 (leader_spec hrange hb), fun q hq => ?_⟩
  by_contra hlt
  have hne := Array.not_of_lt_findIdx (Nat.not_le.1 hlt)
  rw [(Array.getElem?_eq_some_iff.1 hq).2] at hne
  simp at hne

theorem leader_lt_leader {b c : Nat} (hbc : b < c) (hc : c < d.minimize.states.size) :
    d.leader b < d.leader c := by
  obtain ⟨hlt, hof⟩ := (inBlock_iff hrange).1 (isLeast_leader hrange hc).1
  -- Blocks are numbered in the order in which their first states come.
  obtain ⟨q, hq, hqb⟩ := (fair_stablePartition hrange).1.dense.first _ hlt b (by rwa [hof])
  have hmem : d.InBlock q b := (inBlock_iff hrange).2 ⟨hq.trans hlt, hqb⟩
  exact ((isLeast_leader hrange (hbc.trans hc)).2 hmem).trans_lt hq

end Blocks

/-- Runs of the smallest automaton go along with the runs of the given one, from block to block and
to the same rules. The block of the initial state is the initial state. -/
theorem minimize_preserves_runs (hrange : d.automaton.InRange) :
    d.minimize? = some d.minimize ∧ d.minimize.automaton.InRange ∧
      (∀ q < d.states.size, ∃ b < d.minimize.states.size, d.InBlock q b ∧ ∀ w,
        Option.Rel (fun r c => d.InBlock r c ∧ SameRule d d.minimize r c)
          (d.automaton.follow q w) (d.minimize.automaton.follow b w)) ∧
      (0 < d.states.size → d.InBlock 0 0) := by
  refine ⟨minimize?_of_inRange hrange, inRange_minimize hrange, fun q hq => ?_, fun hpos => ?_⟩
  · obtain ⟨b, hb, hqb⟩ := exists_inBlock hrange hq
    exact ⟨b, hb, hqb, hqb.rel_follow hrange⟩
  · exact (inBlock_iff hrange).2 ⟨hpos, of_stablePartition_zero hrange hpos⟩

def tails : Dfa :=
  ⟨#[⟨⟨[('a', 1), ('b', 2)], by decide⟩, noRule⟩,
    ⟨⟨[('c', 3)], List.pairwise_singleton _ _⟩, noRule⟩,
    ⟨⟨[('c', 4)], List.pairwise_singleton _ _⟩, noRule⟩,
    ⟨.empty, 0⟩,
    ⟨.empty, 0⟩,
    ⟨⟨[('x', 5)], List.pairwise_singleton _ _⟩, 7⟩]⟩

theorem inRange_tails : tails.automaton.InRange := inRange_automaton_iff.2 (by decide)

theorem minimize_preserves_runs_tails :
    tails.automaton.InRange ∧ tails.minimize? = some tails.minimize ∧ tails.InBlock 0 0 ∧
      ∃ b < tails.minimize.states.size, tails.InBlock 5 b ∧ ∀ w,
        Option.Rel (fun r c => tails.InBlock r c ∧ SameRule tails tails.minimize r c)
          (tails.automaton.follow 5 w) (tails.minimize.automaton.follow b w) := by
  obtain ⟨hsome, -, hruns, hzero⟩ := minimize_preserves_runs inRange_tails
  exact ⟨inRange_tails, hsome, hzero (by decide), hruns 5 (by decide)⟩

/-- States are merged just if no word tells them apart. The states of the smallest automaton come in
the order of the first of the states that are merged into them. -/
theorem minimize_merges_exactly (hrange : d.automaton.InRange) :
    (∀ q < d.states.size, ∃ b < d.minimize.states.size, d.InBlock q b) ∧
      (∀ q r b c, d.InBlock q b → d.InBlock r c → (b = c ↔ ∀ w,
        Option.Rel (SameRule d d) (d.automaton.follow q w) (d.automaton.follow r w))) ∧
      (∀ b < d.minimize.states.size, IsLeast {q | d.InBlock q b} (d.leader b)) ∧
      ∀ b c, b < c → c < d.minimize.states.size → d.leader b < d.leader c := by
  refine ⟨fun q hq => ?_, fun q r b c hb hc => ?_, fun b hb => ?_, fun b c hbc hc => ?_⟩
  · exact exists_inBlock hrange hq
  · exact hb.eq_iff hrange hc
  · exact isLeast_leader hrange hb
  · exact leader_lt_leader hrange hbc hc

theorem rel_follow_tails (w : List Char) :
    Option.Rel (SameRule tails tails) (tails.automaton.follow 3 w)
      (tails.automaton.follow 4 w) := by
  cases w with
  | nil => exact .some ⟨_, _, rfl, rfl, rfl⟩
  | cons c w =>
      rw [Automaton.follow, Automaton.follow, next_automaton, next_automaton]
      exact .none

theorem minimize_merges_exactly_tails :
    tails.automaton.InRange ∧ ∃ b c, tails.InBlock 3 b ∧ tails.InBlock 4 b ∧
      tails.InBlock 1 c ∧ b ≠ c ∧ IsLeast {q | tails.InBlock q b} (tails.leader b) := by
  obtain ⟨hall, hiff, hleast, -⟩ := minimize_merges_exactly inRange_tails
  obtain ⟨b, hlt, hb⟩ := hall 3 (by decide)
  obtain ⟨b', -, hb'⟩ := hall 4 (by decide)
  obtain ⟨c, -, hc⟩ := hall 1 (by decide)
  cases (hiff 3 4 b b' hb hb').2 rel_follow_tails
  refine ⟨inRange_tails, b, c, hb, hb', hc, fun hbc => ?_, hleast b hlt⟩
  obtain ⟨s, t, hs, ht, hrule⟩ := Option.rel_some_some.1 ((hiff 3 1 b c hb hc).1 hbc [])
  cases hs
  cases ht
  exact absurd hrule (by decide)

end Munch.Dfa
