import Mathlib.Algebra.Order.BigOperators.Group.List
import Mathlib.Computability.Language
import Mathlib.Order.CompletePartialOrder
import Munch.Nfa.Fragment

namespace Munch.Nfa.Graph

open Computability

/-- At most `n` moves lead from one state to another and spell the word. -/
inductive Walk (g : Graph) : Nat → Nat → List Char → Nat → Prop
  | stop (n q : Nat) : Walk g n q [] q
  | epsilon {n q r z : Nat} {w : List Char} {s : State} (hq : g[q]? = some s)
      (hr : r ∈ s.epsilon) (h : Walk g n r w z) : Walk g (n + 1) q w z
  | edge {n q r z : Nat} {c : Char} {w : List Char} {s : State} (hq : g[q]? = some s)
      (hr : (c, r) ∈ s.edges) (h : Walk g n r w z) : Walk g (n + 1) q (c :: w) z

theorem Walk.mono {g : Graph} {n m q z : Nat} {w : List Char} (h : Walk g n q w z)
    (hnm : n ≤ m) : Walk g m q w z := by
  induction h generalizing m with
  | stop n q => exact .stop m q
  | epsilon hq hr _ ih =>
      obtain ⟨m, rfl⟩ := Nat.exists_eq_add_of_lt hnm
      exact .epsilon hq hr (ih (by omega))
  | edge hq hr _ ih =>
      obtain ⟨m, rfl⟩ := Nat.exists_eq_add_of_lt hnm
      exact .edge hq hr (ih (by omega))

theorem Walk.trans {g : Graph} {n m q r z : Nat} {u v : List Char} (h : Walk g n q u r)
    (h' : Walk g m r v z) : Walk g (n + m) q (u ++ v) z := by
  induction h with
  | stop n q => exact h'.mono (Nat.le_add_left m n)
  | @epsilon n _ _ _ _ _ hq hr _ ih =>
      rw [Nat.add_right_comm]
      exact .epsilon hq hr (ih h')
  | @edge n _ _ _ _ _ _ hq hr _ ih =>
      rw [Nat.add_right_comm]
      exact .edge hq hr (ih h')

variable (g : Graph)

def wordsWithin (n q z : Nat) : Language Char := {w : List Char | Walk g n q w z}

def words (q z : Nat) : Language Char := {w : List Char | ∃ n, Walk g n q w z}

variable {g}

theorem wordsWithin_mono {n m : Nat} (hnm : n ≤ m) (q z : Nat) :
    g.wordsWithin n q z ≤ g.wordsWithin m q z := fun _ hw => Walk.mono hw hnm

theorem words_le {q z : Nat} {L : Language Char} (h : ∀ n, g.wordsWithin n q z ≤ L) :
    g.words q z ≤ L := by
  rintro w ⟨n, hw⟩
  exact h n hw

theorem one_le_words (q : Nat) : 1 ≤ g.words q q := by
  rintro w rfl
  exact ⟨0, .stop 0 q⟩

theorem words_mul_words_le (q r z : Nat) : g.words q r * g.words r z ≤ g.words q z := by
  intro w hw
  obtain ⟨u, ⟨n, hu⟩, v, ⟨m, hv⟩, rfl⟩ := Language.mem_mul.1 hw
  exact ⟨n + m, hu.trans hv⟩

theorem mul_le_words {L M : Language Char} {q r z : Nat} (hL : L ≤ g.words q r)
    (hM : M ≤ g.words r z) : L * M ≤ g.words q z :=
  (mul_le_mul' hL hM).trans (words_mul_words_le q r z)

theorem exists_words_trans {q r z : Nat} (h : ∃ w, w ∈ g.words q r) (h' : ∃ w, w ∈ g.words r z) :
    ∃ w, w ∈ g.words q z := by
  obtain ⟨u, hu⟩ := h
  obtain ⟨v, hv⟩ := h'
  exact ⟨u ++ v, words_mul_words_le q r z (Language.append_mem_mul hu hv)⟩

theorem words_le_of_epsilon {q r : Nat} {s : State} (hq : g[q]? = some s) (hr : r ∈ s.epsilon)
    (z : Nat) : g.words r z ≤ g.words q z := by
  rintro w ⟨n, hw⟩
  exact ⟨n + 1, .epsilon hq hr hw⟩

theorem singleton_mem_words {q r : Nat} {c : Char} {s : State} (hq : g[q]? = some s)
    (hr : (c, r) ∈ s.edges) : [c] ∈ g.words q r := ⟨1, .edge hq hr (.stop 0 r)⟩

theorem Walk.step_cases {n q z : Nat} {w : List Char} {s : State} (h : Walk g n q w z)
    (hq : g[q]? = some s) (hz : q ≠ z) :
    (∃ r ∈ s.epsilon, w ∈ g.wordsWithin (n - 1) r z) ∨
      ∃ c r v, (c, r) ∈ s.edges ∧ w = c :: v ∧ v ∈ g.wordsWithin (n - 1) r z := by
  cases h with
  | stop => exact absurd rfl hz
  | epsilon hs hr h =>
      rw [hq] at hs
      cases hs
      exact .inl ⟨_, hr, h⟩
  | edge hs hr h =>
      rw [hq] at hs
      cases hs
      exact .inr ⟨_, _, _, hr, rfl, h⟩

theorem Walk.eq_of_bare {n q z : Nat} {w : List Char} {s : State} (h : Walk g n q w z)
    (hq : g[q]? = some s) (he : s.epsilon = []) (hs : s.edges = []) : w = [] ∧ q = z := by
  by_cases hz : q = z
  · subst z
    cases h with
    | stop => exact ⟨rfl, rfl⟩
    | epsilon hs' hr | edge hs' hr =>
        rw [hq] at hs'
        cases hs'
        simp_all
  · rcases h.step_cases hq hz with ⟨r, hr, -⟩ | ⟨c, r, v, hr, -⟩
    · rw [he] at hr
      simp at hr
    · rw [hs] at hr
      simp at hr

def join (targets : List Nat) : State := { epsilon := targets }

theorem wordsWithin_join_le {n q z : Nat} {targets : List Nat} (hq : g[q]? = some (join targets))
    (hz : q ≠ z) :
    g.wordsWithin n q z ≤ (targets.map (g.wordsWithin (n - 1) · z)).sum := by
  intro w hw
  rcases Walk.step_cases hw hq hz with ⟨r, hr, h⟩ | ⟨c, r, v, hr, -⟩
  · change r ∈ targets at hr
    clear hq
    induction targets with
    | nil => simp at hr
    | cons t ts ih =>
        rw [List.map_cons, List.sum_cons]
        rcases List.mem_cons.1 hr with rfl | hr
        · exact .inl h
        · exact .inr (ih hr)
  · simp [join] at hr

theorem wordsWithin_join_le_sum {n q z : Nat} {targets : List Nat}
    (hq : g[q]? = some (join targets)) (hz : q ≠ z) :
    g.wordsWithin n q z ≤ (targets.map (g.wordsWithin n · z)).sum := by
  refine (wordsWithin_join_le hq hz).trans (List.sum_le_sum fun t _ => ?_)
  exact wordsWithin_mono (Nat.sub_le n 1) t z

theorem wordsWithin_zero_le {q z : Nat} (hz : q ≠ z) (L : Language Char) :
    g.wordsWithin 0 q z ≤ L := by
  intro w hw
  cases hw
  exact absurd rfl hz

/-- A state from which one can leave, or come back by a word of the language. The number of moves
bounds the number of rounds, also of those that read nothing. -/
theorem wordsWithin_le_kstar {f x out z : Nat} {M : Language Char}
    (hx : g[x]? = some (join [f, out])) (hz : x ≠ z)
    (hf : ∀ n, g.wordsWithin n f z ≤ M * g.wordsWithin n x z) (n : Nat) :
    g.wordsWithin n x z ≤ M∗ * g.wordsWithin n out z := by
  induction n with
  | zero => exact wordsWithin_zero_le hz _
  | succ n ih =>
      have hj := wordsWithin_join_le (n := n + 1) hx hz
      simp only [Nat.add_sub_cancel, List.map_cons, List.map_nil, List.sum_cons, List.sum_nil,
        add_zero] at hj
      calc g.wordsWithin (n + 1) x z
          ≤ g.wordsWithin n f z + g.wordsWithin n out z := hj
        _ ≤ M * (M∗ * g.wordsWithin n out z) + g.wordsWithin n out z := by
            gcongr
            exact (hf n).trans (mul_le_mul_right ih M)
        _ = (1 + M * M∗) * g.wordsWithin n out z := by
            rw [add_mul, one_mul, mul_assoc, add_comm]
        _ ≤ M∗ * g.wordsWithin (n + 1) out z := by
            rw [one_add_mul_kstar]
            gcongr
            exact wordsWithin_mono (Nat.le_succ n) out z

theorem words_le_of_join {q r : Nat} {targets : List Nat} (hq : g[q]? = some (join targets))
    (hr : r ∈ targets) (z : Nat) : g.words r z ≤ g.words q z := words_le_of_epsilon hq hr z

theorem one_le_words_of_join {q r : Nat} {targets : List Nat} (hq : g[q]? = some (join targets))
    (hr : r ∈ targets) : 1 ≤ g.words q r := (one_le_words r).trans (words_le_of_join hq hr r)

theorem le_words_of_join {L : Language Char} {p q r : Nat} {targets : List Nat}
    (hL : L ≤ g.words p q) (hq : g[q]? = some (join targets)) (hr : r ∈ targets) :
    L ≤ g.words p r := by
  rw [← mul_one L]
  exact mul_le_words hL (one_le_words_of_join hq hr)

section Updates

variable (g)

@[simp] theorem size_add (s : State) : (g.add s).size = g.size + 1 := Array.size_push s

@[simp] theorem size_link (a b : Nat) : (g.link a b).size = g.size := Array.size_modify

theorem getElem?_add (s : State) (q : Nat) :
    (g.add s)[q]? = if q = g.size then some s else g[q]? := Array.getElem?_push

theorem getElem?_link_of_ne {a q : Nat} (b : Nat) (h : q ≠ a) : (g.link a b)[q]? = g[q]? := by
  rw [link, Array.getElem?_modify, if_neg (Ne.symm h)]

theorem getElem?_link_self {a : Nat} {targets : List Nat} (b : Nat)
    (h : g[a]? = some (join targets)) :
    (g.link a b)[a]? = some (join (targets ++ [b])) := by
  rw [link, Array.getElem?_modify, if_pos rfl, h]
  rfl

end Updates

end Munch.Nfa.Graph
