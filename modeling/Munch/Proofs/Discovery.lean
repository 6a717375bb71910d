import Mathlib.Data.Set.Function
import Munch.Proofs.Shortlex
import Munch.Proofs.SilentSearch
import Munch.Proofs.Simulation
import Munch.Proofs.Worklist

namespace Munch

theorem ShorterOrLess.trans {u v w : List Char} (h : ShorterOrLess u v)
    (h' : ShorterOrLess v w) : ShorterOrLess u w := by
  rw [ShorterOrLess, List.shortlex_def] at h h' ⊢
  rcases h with hlt | ⟨heq, hlex⟩
  · exact .inl (hlt.trans_le (h'.elim Nat.le_of_lt fun h => h.1.le))
  · rcases h' with hlt | ⟨heq', hlex'⟩
    · exact .inl (heq ▸ hlt)
    · exact .inr ⟨heq.trans heq', List.lex_trans Char.lt_trans hlex hlex'⟩

namespace Automaton

variable (a : Automaton)

structure FirstWord (i : Nat) (u : List Char) : Prop where
  leads : a.follow 0 u = some i
  least : ∀ v, a.follow 0 v = some i → v = u ∨ ShorterOrLess u v

/-- Words lead to all states, and the numbers of the states are in the order of the least words to
them. -/
structure NumberedByFirstWords : Prop where
  leads : ∀ i < a.states.size, ∃ u, a.FirstWord i u
  lt_iff : ∀ i j u v, a.FirstWord i u → a.FirstWord j v → (i < j ↔ ShorterOrLess u v)

variable {a} {i j : Nat} {u v : List Char}

theorem exists_firstWord (h : ∃ w, a.follow 0 w = some i) : ∃ u, a.FirstWord i u := by
  obtain ⟨u, hu, hmin⟩ := shorterOrLess_wf.has_min {w | a.follow 0 w = some i} h
  refine ⟨u, hu, fun v hv => ?_⟩
  rcases trichotomous_of ShorterOrLess v u with hlt | heq | hlt
  · exact absurd hlt (hmin v hv)
  · exact .inl heq
  · exact .inr hlt

theorem ShortlexOrdered.firstWord_lt (h : a.ShortlexOrdered) (hu : a.FirstWord i u)
    (hv : a.FirstWord j v) (hij : i < j) : ShorterOrLess u v := by
  obtain ⟨u', hu', hlt⟩ := h v i j hv.leads hij
  rcases hu.least u' hu' with rfl | hle
  · exact hlt
  · exact hle.trans hlt

theorem FirstWord.unique (hu : a.FirstWord i u) (hv : a.FirstWord i v) : u = v := by
  rcases hu.least v hv.leads with heq | huv
  · exact heq.symm
  · rcases hv.least u hu.leads with heq | hvu
    · exact heq
    · exact absurd hvu (asymm_of ShorterOrLess huv)

theorem ShortlexOrdered.numbered (h : a.ShortlexOrdered)
    (hleads : ∀ i < a.states.size, ∃ w, a.follow 0 w = some i) : a.NumberedByFirstWords := by
  refine ⟨fun i hi => exists_firstWord (hleads i hi), fun i j u v hu hv =>
    ⟨h.firstWord_lt hu hv, fun huv => ?_⟩⟩
  rcases Nat.lt_trichotomy i j with hij | rfl | hji
  · exact hij
  · cases hu.unique hv
    exact absurd huv (irrefl_of ShorterOrLess u)
  · exact absurd huv (asymm_of ShorterOrLess (h.firstWord_lt hv hu hji))

end Automaton

namespace Nfa

open Nfa.Graph

variable {nfa : Nfa}

theorem InRange.lt_of_walk (h : nfa.InRange) {n p q : Nat} {w : List Char}
    (hw : Walk nfa.states n p w q) (hp : p < nfa.states.size) : q < nfa.states.size := by
  induction hw with
  | stop => exact hp
  | epsilon hs hr _ ih => exact ih (h.epsilon _ (Array.mem_of_getElem? hs) _ hr)
  | edge hs hr _ ih => exact ih (h.edge _ (Array.mem_of_getElem? hs) _ hr)

theorem InRange.lt_of_mem_reached (h : nfa.InRange) {w : List Char} {q : Nat}
    (hq : q ∈ nfa.reached w) : q < nfa.states.size := by
  obtain ⟨n, hn⟩ := hq
  exact h.lt_of_walk hn h.start

theorem reached_nil (nfa : Nfa) : nfa.reached [] = nfa.silentFrom [nfa.start] := by
  ext q
  rw [silentFrom, reached, Set.mem_ofPred_eq, Set.mem_ofPred_eq, nil_mem_words_iff]
  simp only [List.mem_singleton, exists_eq_left]

theorem sortedLT_of_mem_subsets : ∀ qs ∈ nfa.subsets.keys, qs.SortedLT :=
  subsets_induction (sortedLT_closure _) fun _ _ _ hT => by
    obtain ⟨c, hc⟩ := mem_targets.1 hT
    obtain ⟨ts, rfl, -, -⟩ := get?_moves_eq_some hc
    exact sortedLT_closure ts

def Worklist.setAt (w : Worklist) (i : Nat) : Set Nat :=
  {q | ∃ qs, w.sets[i]? = some qs ∧ q ∈ qs}

namespace Worklist

variable {w : Worklist}

theorem setAt_eq (hsets : w.sets = nfa.subsets.keys) {i : Nat} {qs : List Nat}
    (hqs : nfa.subsets.keys[i]? = some qs) : w.setAt i = {q | q ∈ qs} := by
  ext q
  rw [setAt, hsets, hqs]
  simp only [Option.some.injEq, exists_eq_left', Set.mem_ofPred_eq]

theorem setAt_injOn (hsets : w.sets = nfa.subsets.keys) :
    Set.InjOn w.setAt (Set.Iio nfa.determinize.states.size) := by
  intro i hi j hj heq
  rw [Set.mem_Iio, size_determinize] at hi hj
  have hqs := Array.getElem?_eq_getElem hi
  have hrs := Array.getElem?_eq_getElem hj
  rw [setAt_eq hsets hqs, setAt_eq hsets hrs] at heq
  have hkey : nfa.subsets.keys[i] = nfa.subsets.keys[j] :=
    (sortedLT_of_mem_subsets _ (Array.getElem_mem hi)).eq_of_mem_iff
      (sortedLT_of_mem_subsets _ (Array.getElem_mem hj)) (Set.ext_iff.1 heq)
  exact nfa.subsets.key_unique hqs (hkey ▸ hrs)

theorem setAt_of_follow (h : nfa.InRange) (hsets : w.sets = nfa.subsets.keys) {i : Nat}
    {u : List Char} (hi : nfa.determinize.automaton.follow 0 u = some i) :
    w.setAt i = nfa.reached u ∧ (nfa.reached u).Nonempty := by
  rw [follow_determinize getElem?_subsets_zero] at hi
  obtain ⟨T, hT, rfl⟩ := Option.map_eq_some_iff.1 hi
  refine ⟨?_, h.reached_nonempty hT⟩
  rw [setAt_eq hsets (getElem?_idOf_of_track getElem?_subsets_zero hT)]
  ext q
  rw [Set.mem_ofPred_eq, mem_track_root hT]
  exact and_iff_right_of_imp h.lt_of_mem_reached

theorem exists_follow_of_nonempty {u : List Char} (hu : (nfa.reached u).Nonempty) :
    ∃ i < nfa.determinize.states.size, nfa.determinize.automaton.follow 0 u = some i := by
  cases hT : nfa.track nfa.root u with
  | none =>
      rw [reached_eq_empty hT] at hu
      exact absurd hu Set.not_nonempty_empty
  | some T =>
      refine ⟨nfa.subsets.idOf T, ?_, ?_⟩
      · rw [size_determinize]
        exact (Array.getElem?_eq_some_iff.1
          (getElem?_idOf_of_track getElem?_subsets_zero hT)).1
      · rw [follow_determinize getElem?_subsets_zero, hT, Option.map_some]

theorem setAt_bijOn (h : nfa.InRange) (hsets : w.sets = nfa.subsets.keys) :
    Set.BijOn w.setAt (Set.Iio nfa.determinize.states.size)
      {S | S.Nonempty ∧ ∃ u, nfa.reached u = S} := by
  refine ⟨fun i hi => ?_, setAt_injOn hsets, ?_⟩
  · obtain ⟨u, hu⟩ := exists_follow_determinize hi
    obtain ⟨heq, hne⟩ := setAt_of_follow h hsets hu
    exact heq ▸ ⟨hne, u, rfl⟩
  · rintro S ⟨hne, u, rfl⟩
    obtain ⟨i, hi, hu⟩ := exists_follow_of_nonempty hne
    exact ⟨i, hi, (setAt_of_follow h hsets hu).1⟩

theorem follow_iff (h : nfa.InRange) (hsets : w.sets = nfa.subsets.keys) (u : List Char) (i : Nat) :
    nfa.determinize.automaton.follow 0 u = some i ↔
      i < nfa.determinize.states.size ∧ w.setAt i = nfa.reached u := by
  constructor
  · intro hi
    refine ⟨?_, (setAt_of_follow h hsets hi).1⟩
    exact Dfa.size_automaton nfa.determinize ▸ Automaton.follow_lt inRange_determinize
      (Dfa.size_automaton _ ▸ size_determinize_pos) hi
  · rintro ⟨hi, heq⟩
    obtain ⟨hne, -⟩ := (setAt_bijOn h hsets).mapsTo hi
    obtain ⟨j, hj, hu⟩ := exists_follow_of_nonempty (heq ▸ hne)
    rwa [setAt_injOn hsets hi hj (heq.trans (setAt_of_follow h hsets hu).1.symm)]

end Worklist

/-- The rounds of the worklist come to an end. Its states stand one to one for the sets that words
lead to, and the least words to them are in the order of their numbers. -/
theorem determinize_discovers (h : nfa.InRange) :
    nfa.determinize? = some nfa.determinize ∧ ∃ last : Worklist,
      (∀ rounds w, Worklist.Runs nfa (.start nfa) rounds w ↔
        rounds = nfa.determinize.states.size ∧ w = last) ∧
      last.states = nfa.determinize.states ∧
      Set.BijOn last.setAt (Set.Iio nfa.determinize.states.size)
        {S | S.Nonempty ∧ ∃ u, nfa.reached u = S} ∧
      last.setAt 0 = nfa.silentFrom [nfa.start] ∧
      (∀ u i, nfa.determinize.automaton.follow 0 u = some i ↔
        i < nfa.determinize.states.size ∧ last.setAt i = nfa.reached u) ∧
      nfa.determinize.automaton.NumberedByFirstWords := by
  obtain ⟨last, hruns, hstates, hsets⟩ := Worklist.runs_start nfa
  refine ⟨h.determinize?_eq, last, fun rounds w => ⟨hruns.unique, ?_⟩, hstates,
    Worklist.setAt_bijOn h hsets, ?_, Worklist.follow_iff h hsets, ?_⟩
  · rintro ⟨rfl, rfl⟩
    exact hruns
  · rw [← reached_nil]
    exact (Worklist.setAt_of_follow h hsets rfl).1
  · refine shortlexOrdered_determinize.numbered fun i hi => ?_
    exact exists_follow_determinize (Dfa.size_automaton nfa.determinize ▸ hi)

theorem determinize_discovers_circle :
    circle.InRange ∧ circle.determinize.automaton.NumberedByFirstWords ∧ ∃ last : Worklist, ∃ i,
      Worklist.Runs circle (.start circle) circle.determinize.states.size last ∧
      circle.determinize.automaton.follow 0 ['a'] = some i ∧ 0 ∈ last.setAt i ∧
      2 ∈ last.setAt i := by
  have hrange : circle.InRange := ⟨by decide, by decide, by decide⟩
  obtain ⟨-, last, hruns, -, hbij, -, hfollow, hnumbered⟩ := determinize_discovers hrange
  have hzero : 0 ∈ circle.reached ['a'] := ⟨1, .edge rfl List.mem_cons_self (.stop 0 0)⟩
  have htwo : 2 ∈ circle.reached ['a'] :=
    ⟨2, .epsilon rfl List.mem_cons_self (.edge rfl List.mem_cons_self (.stop 0 2))⟩
  obtain ⟨i, hi, heq⟩ := hbij.surjOn ⟨⟨0, hzero⟩, ['a'], rfl⟩
  exact ⟨hrange, hnumbered, last, i, (hruns _ _).2 ⟨rfl, rfl⟩, (hfollow _ _).2 ⟨hi, heq⟩,
    heq ▸ hzero, heq ▸ htwo⟩

end Nfa

end Munch
