import Mathlib.Data.List.Sort
import Mathlib.Data.Set.Basic
import Munch.Proofs.Closure

namespace Munch.Nfa

def silentFrom (nfa : Nfa) (seeds : List Nat) : Set Nat := {q | ∃ s ∈ seeds, nfa.Silent s q}

structure InRangeFrom (nfa : Nfa) (seeds : List Nat) : Prop where
  origin : ∀ q ∈ seeds, q < nfa.states.size
  moves : ∀ q ∈ nfa.silentFrom seeds, ∀ r ∈ nfa.epsilonOf q, r < nfa.states.size

section Closure

variable {nfa : Nfa} {seeds : List Nat}

theorem silentFrom_step {q r : Nat} (hq : q ∈ nfa.silentFrom seeds) (hr : r ∈ nfa.epsilonOf q) :
    r ∈ nfa.silentFrom seeds := by
  obtain ⟨p, hp, hpq⟩ := hq
  exact ⟨p, hp, hpq.tail hr⟩

theorem inRangeFrom_iff :
    nfa.InRangeFrom seeds ↔ ∀ q ∈ nfa.silentFrom seeds, q < nfa.states.size := by
  constructor
  · rintro ⟨hseeds, hmoves⟩ q ⟨p, hp, hpq⟩
    cases hpq with
    | refl => exact hseeds q hp
    | tail hpr hrq => exact hmoves _ ⟨p, hp, hpr⟩ q hrq
  · intro h
    exact ⟨fun q hq => h q ⟨q, hq, .refl⟩, fun q hq r hr => h r (silentFrom_step hq hr)⟩

theorem mem_closure_iff (h : nfa.InRangeFrom seeds) {q : Nat} :
    q ∈ nfa.closure seeds ↔ q ∈ nfa.silentFrom seeds := by
  rw [mem_closure]
  exact and_iff_right_of_imp (inRangeFrom_iff.1 h q)

theorem sortedLT_closure (seeds : List Nat) : (nfa.closure seeds).SortedLT :=
  (List.pairwise_lt_range.sublist (closure_sublist seeds)).sortedLT

theorem all_lt_iff : (seeds ++ (nfa.closure seeds).flatMap nfa.epsilonOf).all
    (· < nfa.states.size) = true ↔ nfa.InRangeFrom seeds := by
  rw [List.all_append, Bool.and_eq_true, List.all_eq_true, List.all_eq_true]
  simp only [decide_eq_true_eq, List.mem_flatMap, mem_closure]
  constructor
  · rintro ⟨hseeds, hmoves⟩
    exact ⟨hseeds, fun q hq r hr => hmoves r ⟨q, ⟨lt_size_of_mem_epsilonOf hr, hq⟩, hr⟩⟩
  · rintro ⟨hseeds, hmoves⟩
    exact ⟨hseeds, fun r ⟨q, hq, hr⟩ => hmoves q hq.2 r hr⟩

theorem closure?_eq_some (h : nfa.InRangeFrom seeds) :
    nfa.closure? seeds = some (nfa.closure seeds) := by
  rw [closure?, if_pos (all_lt_iff.2 h)]

theorem closure?_eq_none (h : ¬ nfa.InRangeFrom seeds) : nfa.closure? seeds = none := by
  rw [closure?, if_neg (all_lt_iff.not.2 h)]

theorem closure?_congr {seeds' : List Nat} (h : nfa.silentFrom seeds = nfa.silentFrom seeds') :
    nfa.closure? seeds = nfa.closure? seeds' := by
  by_cases hrange : nfa.InRangeFrom seeds
  · have hrange' : nfa.InRangeFrom seeds' := by
      rw [inRangeFrom_iff] at hrange ⊢
      rwa [← h]
    rw [closure?_eq_some hrange, closure?_eq_some hrange']
    refine congrArg some ((sortedLT_closure seeds).eq_of_mem_iff (sortedLT_closure seeds') ?_)
    intro q
    rw [mem_closure_iff hrange, mem_closure_iff hrange', h]
  · have hrange' : ¬ nfa.InRangeFrom seeds' := by
      rw [inRangeFrom_iff] at hrange ⊢
      rwa [← h]
    rw [closure?_eq_none hrange, closure?_eq_none hrange']

theorem silentFrom_of_mem_iff {qs : List Nat} (h : ∀ q, q ∈ qs ↔ q ∈ nfa.silentFrom seeds) :
    nfa.silentFrom qs = nfa.silentFrom seeds := by
  ext q
  constructor
  · rintro ⟨p, hp, hpq⟩
    obtain ⟨s, hs, hsp⟩ := (h p).1 hp
    exact ⟨s, hs, hsp.trans hpq⟩
  · intro hq
    exact ⟨q, (h q).2 hq, .refl⟩

end Closure

/-- A search along silent moves: the marks of the states that have been met, those of them whose
moves have not been followed, the last one first, and all of them in the order in which they were
met. -/
structure Search where
  marks : Array Bool
  stack : List Nat
  found : List Nat

namespace Search

def meet (s : Search) (q : Nat) : Option Search :=
  if h : q < s.marks.size then
    some (if s.marks[q] then s else ⟨s.marks.set q true, q :: s.stack, s.found ++ [q]⟩)
  else none

def meetAll (s : Search) (qs : List Nat) : Option Search := qs.foldlM meet s

/-- The search goes on, with no bound on its rounds, until no state is left on the stack or a move
leads to a state that does not exist. -/
inductive Ends (nfa : Nfa) : Search → Option (List Nat) → Prop
  | done (marks : Array Bool) (found : List Nat) :
      Ends nfa ⟨marks, [], found⟩ (some found.mergeSort)
  | stray {marks : Array Bool} {q : Nat} {stack found : List Nat}
      (h : meetAll ⟨marks, stack, found⟩ (nfa.epsilonOf q) = none) :
      Ends nfa ⟨marks, q :: stack, found⟩ none
  | round {marks : Array Bool} {q : Nat} {stack found : List Nat} {s : Search}
      {result : Option (List Nat)}
      (h : meetAll ⟨marks, stack, found⟩ (nfa.epsilonOf q) = some s) (hs : Ends nfa s result) :
      Ends nfa ⟨marks, q :: stack, found⟩ result

end Search

inductive Closes (nfa : Nfa) (seeds : List Nat) : Option (List Nat) → Prop
  | stray (h : Search.meetAll ⟨.replicate nfa.states.size false, [], []⟩ seeds = none) :
      Closes nfa seeds none
  | search {s : Search} {result : Option (List Nat)}
      (h : Search.meetAll ⟨.replicate nfa.states.size false, [], []⟩ seeds = some s)
      (hs : s.Ends nfa result) : Closes nfa seeds result

namespace Search

variable {nfa : Nfa} {seeds : List Nat} {s t : Search} {qs : List Nat}

theorem Ends.unique {r r' : Option (List Nat)} (h : s.Ends nfa r) (h' : s.Ends nfa r') :
    r = r' := by
  induction h with
  | done marks found =>
      cases h'
      rfl
  | stray h =>
      cases h' with
      | stray => rfl
      | round h' => cases h.symm.trans h'
  | round h _ ih =>
      cases h' with
      | stray h' => cases h.symm.trans h'
      | round h' hs' =>
          cases h.symm.trans h'
          exact ih hs'

structure Sound (s : Search) : Prop where
  marked : ∀ q, Marked s.marks q ↔ q ∈ s.found
  nodup : s.found.Nodup
  stack : ∀ q ∈ s.stack, q ∈ s.found

def left (s : Search) : Nat := s.marks.count false + s.stack.length

/-- What meeting the states `qs` changes. -/
structure Meets (s : Search) (qs : List Nat) (t : Search) : Prop where
  size : t.marks.size = s.marks.size
  found : ∀ q, q ∈ t.found ↔ q ∈ s.found ∨ q ∈ qs
  stack : ∀ q ∈ s.stack, q ∈ t.stack
  fresh : ∀ q ∈ t.found, q ∈ s.found ∨ q ∈ t.stack
  -- A state is marked when it is put on the stack.
  left_eq : t.left = s.left

theorem Meets.refl (s : Search) : s.Meets [] s := by
  refine ⟨rfl, fun q => ?_, fun q hq => hq, fun q hq => .inl hq, rfl⟩
  rw [or_iff_left List.not_mem_nil]

theorem Meets.trans {u : Search} {q : Nat} (h : s.Meets [q] t) (h' : t.Meets qs u) :
    s.Meets (q :: qs) u := by
  refine ⟨h'.size.trans h.size, fun r => ?_, fun r hr => h'.stack r (h.stack r hr), fun r hr => ?_,
    h'.left_eq.trans h.left_eq⟩
  · rw [h'.found, h.found, List.mem_singleton, List.mem_cons, or_assoc]
  · rcases h'.fresh r hr with hr | hr
    · exact (h.fresh r hr).imp_right (h'.stack r)
    · exact .inr hr

theorem meet_eq_none_iff {q : Nat} : s.meet q = none ↔ s.marks.size ≤ q := by
  rw [meet]
  by_cases h : q < s.marks.size
  · simp [h, Nat.not_le.2 h]
  · simp [h, Nat.not_lt.1 h]

theorem meet_spec (hs : s.Sound) {q : Nat} (h : s.meet q = some t) : t.Sound ∧ s.Meets [q] t := by
  rw [meet] at h
  split at h
  case isFalse => cases h
  case isTrue hlt =>
    cases h
    by_cases hq : s.marks[q] = true
    · have hfound : q ∈ s.found := by
        rw [← hs.marked, Marked, Array.getElem?_eq_getElem hlt, hq]
      rw [if_pos hq]
      refine ⟨hs, rfl, fun r => ?_, fun r hr => hr, fun r hr => .inl hr, rfl⟩
      rw [List.mem_singleton, or_iff_left_of_imp]
      rintro rfl
      exact hfound
    · have hfound : q ∉ s.found := by
        rw [← hs.marked, Marked, Array.getElem?_eq_getElem hlt]
        simpa using hq
      rw [if_neg hq]
      refine ⟨⟨fun r => ?_, ?_, fun r hr => ?_⟩, Array.size_set hlt, fun r => List.mem_append,
        fun r => List.mem_cons_of_mem q, fun r hr => ?_, ?_⟩
      · rw [marked_set hlt, hs.marked, List.mem_append, List.mem_singleton, or_comm]
      · rw [List.nodup_append_comm]
        exact List.nodup_cons.2 ⟨hfound, hs.nodup⟩
      · rcases List.mem_cons.1 hr with rfl | hr
        · exact List.mem_append_right _ List.mem_cons_self
        · exact List.mem_append_left _ (hs.stack r hr)
      · rcases List.mem_append.1 hr with hr | hr
        · exact .inl hr
        · exact .inr (List.mem_singleton.1 hr ▸ List.mem_cons_self)
      · have hfalse : s.marks[q] = false := by simpa using hq
        have hpos : 0 < s.marks.count false :=
          Array.count_pos_iff.2 (hfalse ▸ Array.getElem_mem hlt)
        rw [left, left, Array.count_set, hfalse, if_pos (by decide), if_neg (by decide),
          List.length_cons]
        omega

theorem meetAll_spec (hs : s.Sound) (h : s.meetAll qs = some t) : t.Sound ∧ s.Meets qs t := by
  induction qs generalizing s with
  | nil =>
      cases h
      exact ⟨hs, .refl t⟩
  | cons q qs ih =>
      obtain ⟨u, hu, h⟩ := Option.bind_eq_some_iff.1 h
      obtain ⟨hsound, hmeets⟩ := meet_spec hs hu
      obtain ⟨ht, hmeets'⟩ := ih hsound h
      exact ⟨ht, hmeets.trans hmeets'⟩

theorem exists_of_meetAll_eq_none (hs : s.Sound) (h : s.meetAll qs = none) :
    ∃ q ∈ qs, s.marks.size ≤ q := by
  induction qs generalizing s with
  | nil => cases h
  | cons q qs ih =>
      cases hq : s.meet q with
      | none => exact ⟨q, List.mem_cons_self, meet_eq_none_iff.1 hq⟩
      | some t =>
          obtain ⟨hsound, hmeets⟩ := meet_spec hs hq
          have hnone : t.meetAll qs = none := by
            rw [meetAll, List.foldlM_cons, hq] at h
            exact h
          obtain ⟨r, hr, hle⟩ := ih hsound hnone
          exact ⟨r, List.mem_cons_of_mem q hr, hmeets.size ▸ hle⟩

variable (nfa seeds) in
/-- What has been found can be reached, and only from states on the stack there are moves to states
that have not been found. -/
structure Covers (s : Search) : Prop where
  sound : s.Sound
  size : s.marks.size = nfa.states.size
  reached : ∀ q ∈ s.found, q ∈ nfa.silentFrom seeds
  origin : ∀ q ∈ seeds, q ∈ s.found
  moves : ∀ q ∈ s.found, q ∉ s.stack → ∀ r ∈ nfa.epsilonOf q, r ∈ s.found

theorem Covers.rest {marks : Array Bool} {q : Nat} {stack found : List Nat}
    (h : Covers nfa seeds ⟨marks, q :: stack, found⟩) : Sound ⟨marks, stack, found⟩ :=
  ⟨h.sound.marked, h.sound.nodup, fun r hr => h.sound.stack r (List.mem_cons_of_mem q hr)⟩

theorem Covers.pop {marks : Array Bool} {q : Nat} {stack found : List Nat}
    (h : Covers nfa seeds ⟨marks, q :: stack, found⟩)
    (ht : meetAll ⟨marks, stack, found⟩ (nfa.epsilonOf q) = some t) :
    Covers nfa seeds t ∧ t.left = left ⟨marks, stack, found⟩ := by
  have hq : q ∈ found := h.sound.stack q List.mem_cons_self
  obtain ⟨htsound, hmeets⟩ := meetAll_spec h.rest ht
  refine ⟨⟨htsound, hmeets.size.trans h.size, fun r hr => ?_, fun r hr => ?_,
    fun p hp hstack r hr => ?_⟩, hmeets.left_eq⟩
  · rcases (hmeets.found r).1 hr with hr | hr
    · exact h.reached r hr
    · exact silentFrom_step (h.reached q hq) hr
  · exact (hmeets.found r).2 (.inl (h.origin r hr))
  · rw [hmeets.found]
    have hfound : p ∈ found := (hmeets.fresh p hp).resolve_right hstack
    by_cases hpq : p = q
    · exact .inr (hpq ▸ hr)
    · refine .inl (h.moves p hfound ?_ r hr)
      rw [List.mem_cons, not_or]
      exact ⟨hpq, fun hmem => hstack (hmeets.stack p hmem)⟩

theorem Covers.found_iff (h : Covers nfa seeds s) (hstack : s.stack = []) (q : Nat) :
    q ∈ s.found ↔ q ∈ nfa.silentFrom seeds := by
  refine ⟨h.reached q, ?_⟩
  rintro ⟨p, hp, hpq⟩
  induction hpq with
  | refl => exact h.origin p hp
  | tail _ hr ih => exact h.moves _ ih (hstack ▸ List.not_mem_nil) _ hr

theorem Covers.lt (h : Covers nfa seeds s) {q : Nat} (hq : q ∈ s.found) : q < nfa.states.size := by
  have hmarked := (h.sound.marked q).2 hq
  rw [← h.size]
  exact (Array.getElem?_eq_some_iff.1 hmarked).1

theorem Covers.inRangeFrom (h : Covers nfa seeds s) (hstack : s.stack = []) :
    nfa.InRangeFrom seeds := by
  refine ⟨fun q hq => h.lt (h.origin q hq), fun q hq r hr => ?_⟩
  exact h.lt ((h.found_iff hstack r).2 (silentFrom_step hq hr))

theorem Covers.mergeSort_eq (h : Covers nfa seeds s) (hstack : s.stack = []) :
    s.found.mergeSort = nfa.closure seeds := by
  have hsorted : s.found.mergeSort.SortedLT :=
    List.sortedLE_mergeSort.sortedLT_of_nodup (List.nodup_mergeSort.2 h.sound.nodup)
  refine hsorted.eq_of_mem_iff (sortedLT_closure seeds) fun q => ?_
  rw [List.mem_mergeSort, h.found_iff hstack, mem_closure_iff (h.inRangeFrom hstack)]

/-- However large the graph, the search ends. In each round a state leaves the stack, and for each
that enters it one less is unmarked. -/
theorem Covers.ends (h : Covers nfa seeds s) : s.Ends nfa (nfa.closure? seeds) := by
  induction hn : s.left using Nat.strong_induction_on generalizing s with
  | h n ih =>
      obtain ⟨marks, stack, found⟩ := s
      cases stack with
      | nil =>
          rw [closure?_eq_some (h.inRangeFrom rfl), ← h.mergeSort_eq rfl]
          exact .done marks found
      | cons q stack =>
          cases ht : meetAll ⟨marks, stack, found⟩ (nfa.epsilonOf q) with
          | none =>
              obtain ⟨r, hr, hle⟩ := exists_of_meetAll_eq_none h.rest ht
              have hq := h.reached q (h.sound.stack q List.mem_cons_self)
              rw [closure?_eq_none]
              · exact .stray ht
              · intro hrange
                exact absurd (hrange.moves q hq r hr) (Nat.not_lt.2 (h.size ▸ hle))
          | some t =>
              obtain ⟨hcovers, hleft⟩ := h.pop ht
              refine .round ht (ih _ ?_ hcovers rfl)
              rw [hleft, ← hn, left, left, List.length_cons]
              exact Nat.lt_succ_self _

end Search

section Exact

variable {nfa : Nfa} {seeds : List Nat}

theorem Closes.unique {r r' : Option (List Nat)} (h : nfa.Closes seeds r)
    (h' : nfa.Closes seeds r') : r = r' := by
  cases h with
  | stray h =>
      cases h' with
      | stray => rfl
      | search h' => cases h.symm.trans h'
  | search h hs =>
      cases h' with
      | stray h' => cases h.symm.trans h'
      | search h' hs' =>
          cases h.symm.trans h'
          exact hs.unique hs'

theorem closes_closure? (nfa : Nfa) (seeds : List Nat) : nfa.Closes seeds (nfa.closure? seeds) := by
  have hsound : Search.Sound ⟨.replicate nfa.states.size false, [], []⟩ := by
    refine ⟨fun q => ?_, List.nodup_nil, fun q hq => hq⟩
    rw [Marked, Array.getElem?_replicate]
    split <;> simp
  cases hs : Search.meetAll ⟨.replicate nfa.states.size false, [], []⟩ seeds with
  | none =>
      obtain ⟨q, hq, hle⟩ := Search.exists_of_meetAll_eq_none hsound hs
      rw [Array.size_replicate] at hle
      rw [closure?_eq_none fun hrange => absurd (hrange.origin q hq) (Nat.not_lt.2 hle)]
      exact .stray hs
  | some s =>
      obtain ⟨hsound', hmeets⟩ := Search.meetAll_spec hsound hs
      have hfound (q : Nat) : q ∈ s.found ↔ q ∈ seeds := by
        rw [hmeets.found, or_iff_right List.not_mem_nil]
      refine .search hs (Search.Covers.ends ⟨hsound', ?_, fun q hq => ?_, fun q => (hfound q).2,
        fun q hq hstack => ?_⟩)
      · exact hmeets.size.trans Array.size_replicate
      · exact ⟨q, (hfound q).1 hq, .refl⟩
      · exact absurd ((hmeets.fresh q hq).resolve_left List.not_mem_nil) hstack

/-- The search always ends, with the states that silent moves lead to in ascending order, or for
want of a state. The result depends on the set of these states alone, and to close it again changes
nothing. -/
theorem closure_exact (nfa : Nfa) (seeds : List Nat) :
    (∀ result, nfa.Closes seeds result ↔ result = nfa.closure? seeds) ∧
      (nfa.InRangeFrom seeds → ∃ qs, nfa.closure? seeds = some qs ∧ qs.Pairwise (· < ·) ∧
        ∀ q, q ∈ qs ↔ q ∈ nfa.silentFrom seeds) ∧
      (¬ nfa.InRangeFrom seeds → nfa.closure? seeds = none) ∧
      (∀ seeds', (∀ q, q ∈ seeds ↔ q ∈ seeds') ∨ nfa.silentFrom seeds = nfa.silentFrom seeds' →
        nfa.closure? seeds = nfa.closure? seeds') ∧
      ∀ qs, nfa.closure? seeds = some qs → nfa.closure? qs = some qs := by
  refine ⟨fun result => ⟨fun h => h.unique (closes_closure? nfa seeds), ?_⟩, fun hrange => ?_,
    closure?_eq_none, fun seeds' h => closure?_congr ?_, fun qs hqs => ?_⟩
  · rintro rfl
    exact closes_closure? nfa seeds
  · exact ⟨_, closure?_eq_some hrange, (sortedLT_closure seeds).pairwise,
      fun q => mem_closure_iff hrange⟩
  · rcases h with h | h
    · ext q
      simp only [silentFrom, Set.mem_ofPred_eq, h]
    · exact h
  · by_cases hrange : nfa.InRangeFrom seeds
    · rw [← hqs]
      rw [closure?_eq_some hrange] at hqs
      cases hqs
      exact closure?_congr (silentFrom_of_mem_iff fun q => mem_closure_iff hrange)
    · rw [closure?_eq_none hrange] at hqs
      cases hqs

def circleBesideStray : Nfa :=
  ⟨#[{ epsilon := [1] }, { epsilon := [0, 2, 0] }, {}, { epsilon := [9] }], 0⟩

theorem closure_exact_circleBesideStray :
    circleBesideStray.InRangeFrom [1, 0, 1] ∧
      (∃ qs, circleBesideStray.closure? [1, 0, 1] = some qs ∧ 2 ∈ qs ∧
        circleBesideStray.closure? qs = some qs ∧ circleBesideStray.Closes [0, 1] (some qs)) ∧
      ¬ circleBesideStray.InRangeFrom [3] ∧ circleBesideStray.Closes [3] none := by
  have hmoves : ∀ q ≤ 2, ∀ r ∈ circleBesideStray.epsilonOf q, r ≤ 2 := by decide
  have hrange : circleBesideStray.InRangeFrom [1, 0, 1] := by
    rw [inRangeFrom_iff]
    rintro q ⟨p, hp, hpq⟩
    have hle : q ≤ 2 := by
      induction hpq with
      | refl =>
          revert p
          decide
      | tail _ hr ih => exact hmoves _ ih _ hr
    exact Nat.lt_succ_of_lt (Nat.lt_succ_of_le hle)
  have hstray : ¬ circleBesideStray.InRangeFrom [3] := by
    intro h
    have hlt := h.moves 3 ⟨3, List.mem_singleton_self 3, .refl⟩ 9 (List.mem_singleton_self 9)
    exact absurd hlt (by decide)
  have htwo : 2 ∈ circleBesideStray.silentFrom [1, 0, 1] :=
    ⟨1, List.mem_cons_self, .single (by decide)⟩
  obtain ⟨-, hclosed, -, hcongr, hagain⟩ := closure_exact circleBesideStray [1, 0, 1]
  obtain ⟨hloop, -, hnone, -, -⟩ := closure_exact circleBesideStray [3]
  obtain ⟨qs, hqs, -, hmem⟩ := hclosed hrange
  refine ⟨hrange, ⟨qs, hqs, (hmem 2).2 htwo, hagain qs hqs, ?_⟩, hstray, ?_⟩
  · have hsame (q : Nat) : q ∈ [1, 0, 1] ↔ q ∈ [0, 1] := by
      simp only [List.mem_cons, List.not_mem_nil, or_false]
      omega
    rw [(closure_exact circleBesideStray [0, 1]).1, ← hcongr [0, 1] (.inl hsame), hqs]
  · rw [hloop, hnone hstray]

end Exact

end Munch.Nfa
