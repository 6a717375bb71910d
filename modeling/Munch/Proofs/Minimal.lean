import Munch.Proofs.Partition
import Munch.Proofs.Row
import Munch.Proofs.Shortlex

namespace Munch.Dfa

variable (d : Dfa)

/-- The rule that a word ends in, or the lack of one, if there is a move for each symbol. -/
def answer (q : Nat) (w : List Char) : Option UInt32 :=
  (d.automaton.follow q w).bind fun r => d.states[r]?.map (·.rule)

variable {d}

theorem answer_nil (q : Nat) : d.answer q [] = d.states[q]?.map (·.rule) := rfl

theorem answer_cons (q : Nat) (c : Char) (w : List Char) :
    d.answer q (c :: w) = (d.automaton.next q c).bind (d.answer · w) := by
  rw [answer, Automaton.follow, Option.bind_assoc]
  rfl

theorem answer_append {q r : Nat} {u : List Char} (h : d.automaton.follow q u = some r)
    (v : List Char) : d.answer q (u ++ v) = d.answer r v := by
  rw [answer, Automaton.follow_append, h]
  rfl

theorem next_lt (h : d.automaton.InRange) {q r : Nat} {c : Char}
    (hr : d.automaton.next q c = some r) : r < d.states.size := d.size_automaton ▸ h q c r hr

theorem follow_lt (h : d.automaton.InRange) {q r : Nat} {w : List Char} (hq : q < d.states.size)
    (hr : d.automaton.follow q w = some r) : r < d.states.size := by
  rw [← d.size_automaton] at hq ⊢
  exact Automaton.follow_lt h hq hr

theorem answer_isSome (h : d.automaton.InRange) {q r : Nat} {w : List Char}
    (hq : q < d.states.size) (hr : d.automaton.follow q w = some r) : (d.answer q w).isSome := by
  rw [answer, hr, Option.bind_some, Array.getElem?_eq_getElem (follow_lt h hq hr)]
  rfl

theorem answer_eq_none_iff (h : d.automaton.InRange) {q : Nat} (hq : q < d.states.size)
    {w : List Char} : d.answer q w = none ↔ d.automaton.follow q w = none := by
  constructor
  · intro hnone
    cases hr : d.automaton.follow q w with
    | none => rfl
    | some r =>
        have hsome := answer_isSome h hq hr
        rw [hnone] at hsome
        cases hsome
  · intro hnone
    rw [answer, hnone, Option.bind_none]

/-- States from which all words end in the same way have the same moves, to such states again. -/
theorem next_of_answer_eq (h : d.automaton.InRange) {q r : Nat}
    (heq : ∀ w, d.answer q w = d.answer r w) {c : Char} {q' : Nat}
    (hq' : d.automaton.next q c = some q') :
    ∃ r', d.automaton.next r c = some r' ∧ ∀ w, d.answer q' w = d.answer r' w := by
  have hcons (w : List Char) : d.answer q' w = d.answer r (c :: w) := by
    rw [← heq, answer_cons, hq', Option.bind_some]
  have hsome := answer_isSome h (next_lt h hq') (w := []) rfl
  cases hr' : d.automaton.next r c with
  | none =>
      rw [hcons, answer_cons, hr'] at hsome
      cases hsome
  | some r' =>
      refine ⟨r', rfl, fun w => ?_⟩
      rw [hcons, answer_cons, hr', Option.bind_some]

section Refine

variable {p : Partition}

theorem flatMap_pair_inj {f : Nat → Nat} {es es' : List (Char × Nat)} :
    es.flatMap (fun e => [e.1.toNat, f e.2]) = es'.flatMap (fun e => [e.1.toNat, f e.2]) ↔
      es.map (fun e => (e.1, f e.2)) = es'.map (fun e => (e.1, f e.2)) := by
  induction es generalizing es' with
  | nil => cases es' <;> simp
  | cons e es ih =>
      cases es' with
      | nil => simp
      | cons e' es' => simp [ih, Char.toNat_inj, and_assoc]

theorem signature_inj {s t : State} {q r : Nat} :
    signature p s q = signature p t r ↔
      p.of q = p.of r ∧ ∀ c, (s.next.get? c).map p.of = (t.next.get? c).map p.of := by
  rw [signature, signature, List.cons.injEq, flatMap_pair_inj]
  refine and_congr_right fun _ => ?_
  simp only [← Row.get?_map]
  constructor
  · intro h c
    exact congrArg (List.lookup c) h
  · intro h
    exact congrArg Row.entries (Row.ext_get? h)

theorem of_refineOnce_eq_iff {q r : Nat} (hq : q < d.states.size) (hr : r < d.states.size) :
    (d.refineOnce p).of q = (d.refineOnce p).of r ↔ p.of q = p.of r ∧
      ∀ c, (d.automaton.next q c).map p.of = (d.automaton.next r c).map p.of := by
  have hkey (q : Nat) (hq : q < d.states.size) :
      (d.states.toList.zipIdx.map fun e => signature p e.1 e.2)[q]? =
        some (signature p d.states[q] q) := by
    simp [hq]
  have hnext (q : Nat) (hq : q < d.states.size) (c : Char) :
      d.automaton.next q c = d.states[q].next.get? c := by
    rw [next_automaton, Array.getElem?_eq_getElem hq, Option.bind_some]
  simp only [hnext q hq, hnext r hr, ← signature_inj]
  exact Partition.of_ofKeys_eq_iff (hkey q hq) (hkey r hr)

theorem dense_refineOnce : (d.refineOnce p).Dense d.states.size := by
  have h := Partition.dense_ofKeys (d.states.toList.zipIdx.map fun e => signature p e.1 e.2)
  rwa [List.length_map, List.length_zipIdx, Array.length_toList] at h

variable (d p) in
/-- The blocks keep states apart that accept different rules, but no states from which all words
end in the same way. -/
structure Fair : Prop where
  dense : p.Dense d.states.size
  rule : ∀ q < d.states.size, ∀ r < d.states.size, p.of q = p.of r →
    d.answer q [] = d.answer r []
  coarse : ∀ q < d.states.size, ∀ r < d.states.size, (∀ w, d.answer q w = d.answer r w) →
    p.of q = p.of r

theorem fair_rulePartition : d.Fair d.rulePartition := by
  have hkey (q : Nat) (hq : q < d.states.size) :
      (d.states.toList.map fun s => [s.rule.toNat])[q]? = some [d.states[q].rule.toNat] := by
    simp [hq]
  have hanswer (q : Nat) (hq : q < d.states.size) : d.answer q [] = some d.states[q].rule := by
    rw [answer_nil, Array.getElem?_eq_getElem hq, Option.map_some]
  have hof (q : Nat) (hq : q < d.states.size) (r : Nat) (hr : r < d.states.size) :
      d.rulePartition.of q = d.rulePartition.of r ↔ d.answer q [] = d.answer r [] := by
    rw [hanswer q hq, hanswer r hr, rulePartition,
      Partition.of_ofKeys_eq_iff (hkey q hq) (hkey r hr)]
    simp [UInt32.toNat_inj]
  refine ⟨?_, fun q hq r hr => (hof q hq r hr).1, fun q hq r hr h => (hof q hq r hr).2 (h [])⟩
  have h := Partition.dense_ofKeys (d.states.toList.map fun s => [s.rule.toNat])
  rwa [List.length_map, Array.length_toList] at h

theorem map_next_of_answer_eq (hrange : d.automaton.InRange) (h : d.Fair p) {q r : Nat}
    (heq : ∀ w, d.answer q w = d.answer r w) (c : Char) :
    (d.automaton.next q c).map p.of = (d.automaton.next r c).map p.of := by
  cases hq' : d.automaton.next q c with
  | none =>
      cases hr' : d.automaton.next r c with
      | none => rfl
      | some r' =>
          obtain ⟨q', hq, -⟩ := next_of_answer_eq hrange (fun w => (heq w).symm) hr'
          rw [hq'] at hq
          cases hq
  | some q' =>
      obtain ⟨r', hr', hw⟩ := next_of_answer_eq hrange heq hq'
      rw [hr', Option.map_some, Option.map_some,
        h.coarse q' (next_lt hrange hq') r' (next_lt hrange hr') hw]

theorem Fair.refineOnce (hrange : d.automaton.InRange) (h : d.Fair p) :
    d.Fair (d.refineOnce p) := by
  refine ⟨dense_refineOnce, fun q hq r hr heq => ?_, fun q hq r hr heq => ?_⟩
  · exact h.rule q hq r hr ((of_refineOnce_eq_iff hq hr).1 heq).1
  · exact (of_refineOnce_eq_iff hq hr).2
      ⟨h.coarse q hq r hr heq, map_next_of_answer_eq hrange h heq⟩

variable (d p) in
def Stable : Prop :=
  ∀ q < d.states.size, ∀ r < d.states.size, p.of q = p.of r →
    ∀ c, (d.automaton.next q c).map p.of = (d.automaton.next r c).map p.of

theorem next_cases (hrange : d.automaton.InRange) {q r : Nat} {c : Char}
    (h : (d.automaton.next q c).map p.of = (d.automaton.next r c).map p.of) :
    d.automaton.next q c = none ∧ d.automaton.next r c = none ∨
      ∃ q' < d.states.size, ∃ r' < d.states.size, d.automaton.next q c = some q' ∧
        d.automaton.next r c = some r' ∧ p.of q' = p.of r' := by
  cases hq' : d.automaton.next q c with
  | none =>
      rw [hq', Option.map_none, eq_comm, Option.map_eq_none_iff] at h
      exact .inl ⟨rfl, h⟩
  | some q' =>
      rw [hq', Option.map_some, eq_comm] at h
      obtain ⟨r', hr', hof⟩ := Option.map_eq_some_iff.1 h
      exact .inr ⟨q', next_lt hrange hq', r', next_lt hrange hr', rfl, hr', hof.symm⟩

/-- A round that makes no new block changes no block. -/
theorem Fair.stable_refineOnce (hrange : d.automaton.InRange) (h : d.Fair p)
    (hcount : (d.refineOnce p).count ≤ p.count) : d.Stable (d.refineOnce p) := by
  have hsame := h.dense.of_eq_of_count_le (h.refineOnce hrange).dense hcount
    fun q hq r hr heq => ((of_refineOnce_eq_iff hq hr).1 heq).1
  intro q hq r hr heq c
  rcases next_cases hrange (((of_refineOnce_eq_iff hq hr).1 heq).2 c) with
    ⟨hq', hr'⟩ | ⟨q', hq, r', hr, hq', hr', hof⟩
  · rw [hq', hr']
  · rw [hq', hr', Option.map_some, Option.map_some, hsame q' hq r' hr hof]

theorem Fair.refine (hrange : d.automaton.InRange) (h : d.Fair p) :
    d.Fair (d.refine p).1 ∧ d.Stable (d.refine p).1 := by
  fun_induction d.refine p with
  | case1 p _ last rounds hlast ih =>
      have hih := ih (h.refineOnce hrange)
      rw [hlast] at hih
      exact hih
  | case2 p hcount =>
      exact ⟨h.refineOnce hrange, h.stable_refineOnce hrange (Nat.not_lt.1 hcount)⟩

theorem fair_stablePartition (hrange : d.automaton.InRange) :
    d.Fair d.stablePartition ∧ d.Stable d.stablePartition := fair_rulePartition.refine hrange

end Refine

section Minimize

theorem map_some_filterMap {α β : Type} {f : α → Option β} {l : List α}
    (h : ∀ x ∈ l, (f x).isSome) : (l.filterMap f).map some = l.map f := by
  induction l with
  | nil => rfl
  | cons x l ih =>
      obtain ⟨y, hy⟩ := Option.isSome_iff_exists.1 (h x List.mem_cons_self)
      rw [List.filterMap_cons_some hy, List.map_cons, List.map_cons, hy,
        ih fun x hx => h x (List.mem_cons_of_mem _ hx)]

def leader (d : Dfa) (b : Nat) : Nat := d.stablePartition.block.idxOf b

theorem leader_spec (hrange : d.automaton.InRange) {b : Nat} (hb : b < d.stablePartition.count) :
    d.leader b < d.states.size ∧ d.stablePartition.of (d.leader b) = b := by
  have hdense := (fair_stablePartition hrange).1.dense
  obtain ⟨q, hq, hof⟩ := hdense.full b hb
  have hmem : b ∈ d.stablePartition.block := by
    rw [← hdense.size] at hq
    rw [Partition.of, Array.getD_eq_getD_getElem?, Array.getElem?_eq_getElem hq,
      Option.getD_some] at hof
    exact hof ▸ Array.getElem_mem hq
  have hlt : d.leader b < d.stablePartition.block.size := Array.idxOf_lt_length_of_mem hmem
  refine ⟨hdense.size ▸ hlt, ?_⟩
  rw [Partition.of, Array.getD_eq_getD_getElem?, Array.getElem?_eq_getElem hlt, Option.getD_some]
  exact eq_of_beq (Array.findIdx_getElem (w := hlt))

theorem states_minimize (hrange : d.automaton.InRange) :
    d.minimize.states.size = d.stablePartition.count ∧
      ∀ b < d.stablePartition.count, d.minimize.states[b]? =
        d.states[d.leader b]?.map fun s => { s with next := s.next.map d.stablePartition.of } := by
  have hsome := map_some_filterMap (f := fun b => d.states[d.leader b]?)
    (l := List.range d.stablePartition.count) fun b hb => by
      have hlt := (leader_spec hrange (List.mem_range.1 hb)).1
      rw [Array.getElem?_eq_getElem hlt]
      rfl
  have hstates : d.minimize.states.toList =
      ((List.range d.stablePartition.count).filterMap fun b => d.states[d.leader b]?).map
        fun s => { s with next := s.next.map d.stablePartition.of } := by
    rw [minimize, Array.toList_map]
    rfl
  constructor
  · have hlen := congrArg List.length hsome
    rw [List.length_map, List.length_map, List.length_range] at hlen
    rw [← Array.length_toList, hstates, List.length_map, hlen]
  · intro b hb
    have hget := congrArg (·[b]?) hsome
    simp only [List.getElem?_map, List.getElem?_range hb, Option.map_some] at hget
    obtain ⟨s, hs, heq⟩ := Option.map_eq_some_iff.1 hget
    rw [← Array.getElem?_toList, hstates, List.getElem?_map, hs, ← heq]

theorem minimize?_of_inRange (h : d.automaton.InRange) : d.minimize? = some d.minimize := by
  rw [minimize?, if_pos]
  rw [Array.all_eq_true_iff_forall_mem]
  intro s hs
  rw [List.all_eq_true]
  intro e he
  exact decide_eq_true (inRange_automaton_iff.1 h s hs e he)

variable (hrange : d.automaton.InRange)

include hrange

theorem getElem?_minimize {q : Nat} (hq : q < d.states.size) :
    d.minimize.states[d.stablePartition.of q]? =
      d.states[d.leader (d.stablePartition.of q)]?.map fun s =>
        { s with next := s.next.map d.stablePartition.of } :=
  (states_minimize hrange).2 _ ((fair_stablePartition hrange).1.dense.lt q hq)

theorem next_minimize {q : Nat} (hq : q < d.states.size) (c : Char) :
    d.minimize.automaton.next (d.stablePartition.of q) c =
      (d.automaton.next q c).map d.stablePartition.of := by
  obtain ⟨hfair, hstable⟩ := fair_stablePartition hrange
  obtain ⟨hlt, hof⟩ := leader_spec hrange (hfair.dense.lt q hq)
  rw [hstable q hq _ hlt hof.symm, next_automaton, next_automaton, getElem?_minimize hrange hq]
  cases d.states[d.leader (d.stablePartition.of q)]? with
  | none => rfl
  | some s => exact Row.get?_map _ _ c

theorem follow_minimize {q : Nat} (hq : q < d.states.size) (w : List Char) :
    d.minimize.automaton.follow (d.stablePartition.of q) w =
      (d.automaton.follow q w).map d.stablePartition.of := by
  induction w generalizing q with
  | nil => rfl
  | cons c w ih =>
      rw [Automaton.follow, Automaton.follow, next_minimize hrange hq]
      cases hr : d.automaton.next q c with
      | none => rfl
      | some r => exact ih (next_lt hrange hr)

theorem answer_minimize {q : Nat} (hq : q < d.states.size) (w : List Char) :
    d.minimize.answer (d.stablePartition.of q) w = d.answer q w := by
  induction w generalizing q with
  | nil =>
      obtain ⟨hfair, -⟩ := fair_stablePartition hrange
      obtain ⟨hlt, hof⟩ := leader_spec hrange (hfair.dense.lt q hq)
      rw [hfair.rule q hq _ hlt hof.symm, answer_nil, answer_nil, getElem?_minimize hrange hq,
        Option.map_map]
      rfl
  | cons c w ih =>
      rw [answer_cons, answer_cons, next_minimize hrange hq]
      cases hr : d.automaton.next q c with
      | none => rfl
      | some r => exact ih (next_lt hrange hr)

/-- States share a block just if all words end in the same way from them. -/
theorem of_stablePartition_eq_iff {q r : Nat} (hq : q < d.states.size) (hr : r < d.states.size) :
    d.stablePartition.of q = d.stablePartition.of r ↔ ∀ w, d.answer q w = d.answer r w := by
  constructor
  · intro h w
    rw [← answer_minimize hrange hq, ← answer_minimize hrange hr, h]
  · exact (fair_stablePartition hrange).1.coarse q hq r hr

theorem exists_of_lt_minimize {b : Nat} (hb : b < d.minimize.states.size) :
    ∃ q < d.states.size, d.stablePartition.of q = b := by
  rw [(states_minimize hrange).1] at hb
  exact (fair_stablePartition hrange).1.dense.full b hb

theorem inRange_minimize : d.minimize.automaton.InRange := by
  intro b c r hr
  rw [size_automaton]
  obtain ⟨q, hq, rfl⟩ := exists_of_lt_minimize hrange (b := b) <| by
    by_contra hge
    rw [next_automaton, Array.getElem?_eq_none (Nat.not_lt.1 hge)] at hr
    cases hr
  rw [next_minimize hrange hq] at hr
  obtain ⟨t, ht, rfl⟩ := Option.map_eq_some_iff.1 hr
  rw [(states_minimize hrange).1]
  exact (fair_stablePartition hrange).1.dense.lt t (next_lt hrange ht)

theorem eq_of_answer_minimize {b b' : Nat} (hb : b < d.minimize.states.size)
    (hb' : b' < d.minimize.states.size)
    (heq : ∀ w, d.minimize.answer b w = d.minimize.answer b' w) : b = b' := by
  obtain ⟨q, hq, rfl⟩ := exists_of_lt_minimize hrange hb
  obtain ⟨r, hr, rfl⟩ := exists_of_lt_minimize hrange hb'
  refine (fair_stablePartition hrange).1.coarse q hq r hr fun w => ?_
  rw [← answer_minimize hrange hq, ← answer_minimize hrange hr, heq]

variable (hpos : 0 < d.states.size)

include hpos

theorem of_stablePartition_zero : d.stablePartition.of 0 = 0 :=
  (fair_stablePartition hrange).1.dense.of_zero hpos

theorem follow_zero_minimize (w : List Char) :
    d.minimize.automaton.follow 0 w = (d.automaton.follow 0 w).map d.stablePartition.of := by
  rw [← follow_minimize hrange hpos, of_stablePartition_zero hrange hpos]

theorem answer_zero_minimize (w : List Char) : d.minimize.answer 0 w = d.answer 0 w := by
  rw [← answer_minimize hrange hpos, of_stablePartition_zero hrange hpos]

theorem shortlexOrdered_minimize (h : d.automaton.ShortlexOrdered) :
    d.minimize.automaton.ShortlexOrdered := by
  intro v i j hj hij
  rw [follow_zero_minimize hrange hpos] at hj
  obtain ⟨q, hq, rfl⟩ := Option.map_eq_some_iff.1 hj
  have hlt := follow_lt hrange hpos hq
  obtain ⟨r, hr, rfl⟩ := (fair_stablePartition hrange).1.dense.first q hlt i hij
  obtain ⟨u, hu, huv⟩ := h v r q hq hr
  refine ⟨u, ?_, huv⟩
  rw [follow_zero_minimize hrange hpos, hu, Option.map_some]

end Minimize

end Munch.Dfa
