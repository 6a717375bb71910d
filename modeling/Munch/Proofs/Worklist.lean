import Munch.Proofs.Subset

namespace Munch.Nfa

/-- A deterministic automaton in the making: its states with the moves entered so far, the sets
that they stand for, and the states that wait for their moves, the first one first. -/
structure Worklist where
  states : Array Dfa.State
  sets : Array (List Nat)
  queue : List Nat

namespace Worklist

variable (nfa : Nfa)

def fresh (qs : List Nat) : Dfa.State := ⟨.empty, (nfa.acceptOf qs).getD noRule⟩

def register (w : Worklist) (qs : List Nat) : Worklist :=
  if w.sets.contains qs then w
  else ⟨w.states.push (fresh nfa qs), w.sets.push qs, w.queue ++ [w.states.size]⟩

def enter (d : Nat) (w : Worklist) (e : Char × List Nat) : Worklist :=
  let w := w.register nfa e.2
  let target := w.sets.idxOf e.2
  { w with states := w.states.modify d fun s => { s with next := s.next.insert e.1 target } }

def start : Worklist := ⟨#[fresh nfa nfa.root], #[nfa.root], [0]⟩

/-- The rounds go on, with no bound on their number, until the queue is empty. Each enters the moves
of the first state of the queue in the order of the symbols. -/
inductive Runs : Worklist → Nat → Worklist → Prop
  | done {w : Worklist} (h : w.queue = []) : Runs w 0 w
  | round {w last : Worklist} {d rounds : Nat} {queue qs : List Nat} (hd : w.queue = d :: queue)
      (hqs : w.sets[d]? = some qs)
      (h : Runs ((nfa.moves qs).entries.foldl (enter nfa d) { w with queue := queue }) rounds
        last) :
      Runs w (rounds + 1) last

/-- In the round of the state `d` the states before it have all their moves, it has those in `row`,
and the ones after it have none and wait. The sets have the numbers that they keep. -/
structure AtRound (nb : Numbering (List Nat)) (d : Nat) (row : Row Nat) (w : Worklist) : Prop where
  sets : w.sets = nb.keys
  kept : nb.keys.toList <+: nfa.subsets.keys.toList
  size : w.states.size = nb.keys.size
  lt : d < nb.keys.size
  queue : w.queue = List.range' (d + 1) (nb.keys.size - (d + 1))
  before : ∀ i < d, ∀ qs, nb.keys[i]? = some qs → w.states[i]? = some (nfa.stateOf qs)
  current : ∀ qs, nb.keys[d]? = some qs → w.states[d]? = some { fresh nfa qs with next := row }
  after : ∀ i, d < i → ∀ qs, nb.keys[i]? = some qs → w.states[i]? = some (fresh nfa qs)

variable {nfa} {nb : Numbering (List Nat)} {w : Worklist} {d : Nat} {row : Row Nat}

theorem Runs.unique {rounds rounds' : Nat} {last last' : Worklist} (h : Runs nfa w rounds last)
    (h' : Runs nfa w rounds' last') : rounds' = rounds ∧ last' = last := by
  induction h generalizing rounds' with
  | done hw =>
      cases h' with
      | done => exact ⟨rfl, rfl⟩
      | round hd => cases hw.symm.trans hd
  | round hd hqs _ ih =>
      cases h' with
      | done hw => cases hw.symm.trans hd
      | round hd' hqs' h' =>
          cases hd.symm.trans hd'
          cases hqs.symm.trans hqs'
          obtain ⟨rfl, rfl⟩ := ih h'
          exact ⟨rfl, rfl⟩

theorem prefix_explore (bound i : Nat) (sets : Numbering (List Nat)) :
    sets.keys.toList <+: (nfa.explore bound i sets).keys.toList := by
  fun_induction explore nfa bound i sets with
  | case1 => exact List.prefix_rfl
  | case2 i sets _ qs _ ih => exact (sets.prefix_addAll _).trans ih
  | case3 => exact List.prefix_rfl

theorem explore_of_getElem? {bound i : Nat} {sets : Numbering (List Nat)} {qs : List Nat}
    (hi : i < bound) (hqs : sets.keys[i]? = some qs) :
    nfa.explore bound i sets = nfa.explore bound (i + 1) (sets.addAll (nfa.targets qs)) := by
  rw [explore, if_pos hi, hqs]
  rfl

theorem explore_of_le {bound i : Nat} {sets : Numbering (List Nat)} (h : sets.keys.size ≤ i) :
    nfa.explore bound i sets = sets := by
  rw [explore, Array.getElem?_eq_none h]
  exact ite_self _

theorem lt_of_explore_eq {bound i : Nat} {sets : Numbering (List Nat)}
    (h : nfa.explore bound i sets = nfa.subsets) (hi : i < nfa.subsets.keys.size) :
    i < sets.keys.size := by
  by_contra hge
  rw [explore_of_le (Nat.not_lt.1 hge)] at h
  exact hge (h ▸ hi)

theorem size_subsets_le : nfa.subsets.keys.size ≤ Nat.pow 2 nfa.states.size :=
  size_keys_le (subsets_induction (closure_sublist _) fun _ _ _ => sublist_of_mem_targets)

theorem AtRound.registered (h : AtRound nfa nb d row w) {qs : List Nat}
    (hqs : (nb.add qs).keys.toList <+: nfa.subsets.keys.toList) :
    AtRound nfa (nb.add qs) d row (w.register nfa qs) := by
  rw [Worklist.register, h.sets]
  split
  case isTrue hmem => rwa [nb.add_eq_self (Array.contains_iff_mem.1 hmem)]
  case isFalse hnew =>
    have hkeys : (nb.add qs).keys = nb.keys.push qs :=
      ((nb.keys_add qs).resolve_left fun hold => hnew (Array.contains_iff_mem.2 hold.2)).1
    have hlt := h.lt
    have hget {i : Nat} {rs : List Nat} (hi : (nb.add qs).keys[i]? = some rs) :
        (i < nb.keys.size ∧ nb.keys[i]? = some rs) ∨ i = nb.keys.size ∧ rs = qs := by
      rw [hkeys, Array.getElem?_push] at hi
      split at hi
      case isTrue heq =>
        cases hi
        exact .inr ⟨heq, rfl⟩
      case isFalse => exact .inl ⟨(Array.getElem?_eq_some_iff.1 hi).1, hi⟩
    have hold {i : Nat} (hi : i < nb.keys.size) :
        (w.states.push (fresh nfa qs))[i]? = w.states[i]? := by
      rw [Array.getElem?_push, if_neg (h.size ▸ hi.ne)]
    refine ⟨hkeys.symm, hqs, ?_, ?_, ?_, fun i hi rs hrs => ?_, fun rs hrs => ?_,
      fun i hi rs hrs => ?_⟩
    · rw [hkeys, Array.size_push, Array.size_push, h.size]
    · rw [hkeys, Array.size_push]
      exact Nat.lt_succ_of_lt hlt
    · dsimp only
      rw [hkeys, Array.size_push, h.queue, h.size,
        show nb.keys.size + 1 - (d + 1) = nb.keys.size - (d + 1) + 1 by omega,
        List.range'_concat]
      congr 2
      omega
    · rcases hget hrs with ⟨hlt, hrs⟩ | ⟨rfl, -⟩
      · exact (hold hlt).trans (h.before i hi rs hrs)
      · omega
    · rcases hget hrs with ⟨hlt, hrs⟩ | ⟨rfl, -⟩
      · exact (hold hlt).trans (h.current rs hrs)
      · omega
    · rcases hget hrs with ⟨hlt, hrs⟩ | ⟨rfl, rfl⟩
      · exact (hold hlt).trans (h.after i hi rs hrs)
      · dsimp only
        rw [Array.getElem?_push, if_pos h.size.symm]

theorem AtRound.entered (h : AtRound nfa nb d row w) {c : Char} {qs : List Nat}
    (hqs : (nb.add qs).keys.toList <+: nfa.subsets.keys.toList) :
    AtRound nfa (nb.add qs) d (row.insert c (nfa.subsets.idOf qs)) (w.enter nfa d (c, qs)) := by
  have h' := h.registered hqs
  have hmem : qs ∈ (nb.add qs).keys := (Numbering.mem_keys_add _).2 (.inr rfl)
  have htarget : (w.register nfa qs).sets.idxOf qs = nfa.subsets.idOf qs := by
    rw [h'.sets, Numbering.idxOf_keys _ hmem, Numbering.idOf_eq_of_prefix hqs hmem]
  rw [Worklist.enter]
  refine ⟨h'.sets, h'.kept, ?_, h'.lt, h'.queue, fun i hi rs hrs => ?_, fun rs hrs => ?_,
    fun i hi rs hrs => ?_⟩
  · exact Array.size_modify.trans h'.size
  · dsimp only
    rw [Array.getElem?_modify, if_neg hi.ne']
    exact h'.before i hi rs hrs
  · dsimp only
    rw [Array.getElem?_modify, if_pos rfl, h'.current rs hrs, htarget]
    rfl
  · dsimp only
    rw [Array.getElem?_modify, if_neg hi.ne]
    exact h'.after i hi rs hrs

theorem AtRound.entered_all {es : List (Char × List Nat)} (h : AtRound nfa nb d row w)
    (hes : (nb.addAll (es.map (·.2))).keys.toList <+: nfa.subsets.keys.toList) :
    AtRound nfa (nb.addAll (es.map (·.2))) d
      (es.foldl (fun row e => row.insert e.1 (nfa.subsets.idOf e.2)) row)
      (es.foldl (enter nfa d) w) := by
  induction es generalizing nb row w with
  | nil => exact h
  | cons e es ih =>
      rw [List.map_cons, Numbering.addAll_cons] at hes ⊢
      exact ih (h.entered (((nb.add e.2).prefix_addAll (es.map (·.2))).trans hes)) hes

theorem AtRound.finished (h : AtRound nfa nb d .empty w) {qs : List Nat}
    (hqs : nb.keys[d]? = some qs)
    (hsets : nfa.explore (Nat.pow 2 nfa.states.size) d nb = nfa.subsets) :
    AtRound nfa (nb.addAll (nfa.targets qs)) d (nfa.stateOf qs).next
        ((nfa.moves qs).entries.foldl (enter nfa d) w) ∧
      (nb.addAll (nfa.targets qs)).keys[d]? = some qs ∧
      nfa.explore (Nat.pow 2 nfa.states.size) (d + 1) (nb.addAll (nfa.targets qs)) =
        nfa.subsets := by
  have hbound : d < Nat.pow 2 nfa.states.size := by
    have hle := h.kept.length_le
    rw [Array.length_toList, Array.length_toList] at hle
    exact h.lt.trans_le (hle.trans size_subsets_le)
  rw [explore_of_getElem? hbound hqs] at hsets
  have hkept : (nb.addAll (nfa.targets qs)).keys.toList <+: nfa.subsets.keys.toList :=
    hsets ▸ prefix_explore _ _ _
  have hrow : (nfa.stateOf qs).next =
      (nfa.moves qs).entries.foldl (fun row e => row.insert e.1 (nfa.subsets.idOf e.2)) .empty := by
    rw [stateOf, ← ((nfa.moves qs).map nfa.subsets.idOf).foldl_insert_entries, Row.map,
      List.foldl_map]
  refine ⟨?_, ?_, hsets⟩
  · rw [hrow]
    exact h.entered_all hkept
  · exact (nb.getElem?_addAll _ h.lt).trans hqs

theorem AtRound.turn {qs : List Nat} (h : AtRound nfa nb d (nfa.stateOf qs).next w)
    (hqs : nb.keys[d]? = some qs) (hlt : d + 1 < nb.keys.size) :
    ∃ queue, w.queue = (d + 1) :: queue ∧
      AtRound nfa nb (d + 1) .empty { w with queue := queue } := by
  refine ⟨List.range' (d + 2) (nb.keys.size - (d + 2)), ?_, h.sets, h.kept, h.size, hlt, rfl,
    fun i hi rs hrs => ?_, fun rs hrs => ?_, fun i hi rs hrs => ?_⟩
  · rw [h.queue, show nb.keys.size - (d + 1) = nb.keys.size - (d + 2) + 1 by omega,
      List.range'_succ]
  · rcases Nat.lt_succ_iff_lt_or_eq.1 hi with hi | rfl
    · exact h.before i hi rs hrs
    · cases hqs.symm.trans hrs
      exact h.current qs hqs
  · exact h.after (d + 1) (Nat.lt_succ_self d) rs hrs
  · exact h.after i (Nat.lt_of_succ_lt hi) rs hrs

theorem AtRound.states_eq {qs : List Nat}
    (h : AtRound nfa nfa.subsets d (nfa.stateOf qs).next w)
    (hqs : nfa.subsets.keys[d]? = some qs) (hsize : nfa.subsets.keys.size = d + 1) :
    w.queue = [] ∧ w.states = nfa.determinize.states := by
  constructor
  · rw [h.queue, hsize, Nat.sub_self]
    rfl
  · apply Array.ext_getElem?
    intro i
    cases hi : nfa.subsets.keys[i]? with
    | none =>
        have hle := Array.getElem?_eq_none_iff.1 hi
        rw [Array.getElem?_eq_none (h.size ▸ hle), Array.getElem?_eq_none]
        rwa [size_determinize]
    | some rs =>
        rw [getElem?_determinize hi]
        have hlt := (Array.getElem?_eq_some_iff.1 hi).1
        rcases Nat.lt_or_eq_of_le (Nat.le_of_lt_succ (hsize ▸ hlt)) with hi' | rfl
        · exact h.before i hi' rs hi
        · cases hqs.symm.trans hi
          exact h.current qs hqs

theorem AtRound.runs {queue : List Nat} {rounds : Nat} (hd : w.queue = d :: queue)
    (h : AtRound nfa nb d .empty { w with queue := queue })
    (hsets : nfa.explore (Nat.pow 2 nfa.states.size) d nb = nfa.subsets)
    (hsize : nfa.subsets.keys.size = d + (rounds + 1)) :
    ∃ last, Runs nfa w (rounds + 1) last ∧ last.states = nfa.determinize.states ∧
      last.sets = nfa.subsets.keys := by
  induction rounds generalizing d nb w queue with
  | zero =>
      have hqs := Array.getElem?_eq_getElem h.lt
      obtain ⟨hdone, hget, hrest⟩ := h.finished hqs hsets
      have hle := hdone.kept.length_le
      rw [Array.length_toList, Array.length_toList, hsize] at hle
      rw [explore_of_le hle] at hrest
      rw [hrest] at hdone hget
      obtain ⟨hqueue, hstates⟩ := hdone.states_eq hget hsize
      exact ⟨_, .round hd ((congrArg (·[d]?) h.sets).trans hqs) (.done hqueue), hstates,
        hdone.sets⟩
  | succ rounds ih =>
      have hqs := Array.getElem?_eq_getElem h.lt
      obtain ⟨hdone, hget, hrest⟩ := h.finished hqs hsets
      obtain ⟨queue, hqueue, hturn⟩ := hdone.turn hget (lt_of_explore_eq hrest (by omega))
      obtain ⟨last, hruns, hlast⟩ := ih hqueue hturn hrest (by omega)
      exact ⟨last, .round hd ((congrArg (·[d]?) h.sets).trans hqs) hruns, hlast⟩

/-- The rounds come to an end, one for each state of the automaton that they make. -/
theorem runs_start (nfa : Nfa) :
    ∃ last, Runs nfa (start nfa) nfa.determinize.states.size last ∧
      last.states = nfa.determinize.states ∧ last.sets = nfa.subsets.keys := by
  have hpos : 0 < nfa.determinize.states.size := size_determinize_pos
  obtain ⟨rounds, hrounds⟩ := Nat.exists_eq_add_of_lt hpos
  rw [hrounds, Nat.zero_add]
  rw [Nat.zero_add, size_determinize] at hrounds
  have hkeys : (Numbering.ofList [nfa.root]).keys = #[nfa.root] :=
    Numbering.keys_ofList_singleton _
  have hstart : AtRound nfa (.ofList [nfa.root]) 0 .empty { start nfa with queue := [] } := by
    refine ⟨hkeys.symm, prefix_explore _ 0 _, ?_, ?_, ?_,
      fun i hi => absurd hi (Nat.not_lt_zero i), fun qs hqs => ?_, fun i hi qs hqs => ?_⟩
    · exact (congrArg Array.size hkeys).symm
    · exact (congrArg Array.size hkeys).symm ▸ Nat.zero_lt_one
    · rw [hkeys]
      rfl
    · rw [hkeys] at hqs
      cases hqs
      rfl
    · rw [hkeys, Array.getElem?_eq_none] at hqs
      · cases hqs
      · exact hi
  exact hstart.runs rfl rfl (hrounds.trans (Nat.zero_add _).symm)

end Worklist

end Munch.Nfa
