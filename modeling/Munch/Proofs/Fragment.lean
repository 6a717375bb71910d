import Munch.Proofs.Language
import Munch.Proofs.Walk

namespace Munch.Nfa

open Computability Nfa.Graph

def State.Within (lo hi : Nat) (s : State) : Prop :=
  s.accept = none ∧ (∀ t ∈ s.epsilon, lo ≤ t ∧ t < hi) ∧ ∀ e ∈ s.edges, lo ≤ e.2 ∧ e.2 < hi

theorem State.Within.mono {lo lo' hi hi' : Nat} {s : State} (h : s.Within lo hi)
    (hlo : lo' ≤ lo) (hhi : hi ≤ hi') : s.Within lo' hi' := by
  refine ⟨h.1, fun t ht => ?_, fun e he => ?_⟩
  · have := h.2.1 t ht
    omega
  · have := h.2.2 e he
    omega

theorem State.within_join {lo hi : Nat} {targets : List Nat}
    (h : ∀ t ∈ targets, lo ≤ t ∧ t < hi) : (join targets).Within lo hi :=
  ⟨rfl, h, fun e he => by simp [join] at he⟩

/-- The states added to a base form a part with an entry and with exits. Only the exits, which
have no moves yet, can be left. -/
structure Shape (base g : Graph) (entry : Nat) (exits : List Nat) : Prop where
  size_le : base.size ≤ g.size
  frame : ∀ q < base.size, g[q]? = base[q]?
  entry_ge : base.size ≤ entry
  entry_lt : entry < g.size
  exit_ge : ∀ x ∈ exits, base.size ≤ x
  bare : ∀ x ∈ exits, g[x]? = some (join [])
  nodup : exits.Nodup
  within : ∀ q s, base.size ≤ q → g[q]? = some s → s.Within base.size g.size

/-- `G` has the states that `g` adds to the base, except that exits may have got moves. -/
def Keeps (base g G : Graph) (exits : List Nat) : Prop :=
  ∀ q, base.size ≤ q → q < g.size → q ∉ exits → G[q]? = g[q]?

/-- A state that is met on the way to the exits at its end only. -/
def Outside (base g : Graph) (exits : List Nat) (z : Nat) : Prop :=
  z < base.size ∨ g.size ≤ z ∨ z ∈ exits

structure Sealed (g g' : Graph) (q : Nat) (targets : List Nat) : Prop where
  size_eq : g'.size = g.size
  self : g'[q]? = some (join targets)
  other : ∀ r, r ≠ q → g'[r]? = g[r]?

theorem sealed_link {g : Graph} {q : Nat} (h : g[q]? = some (join [])) (a : Nat) :
    Sealed g (g.link q a) q [a] :=
  ⟨g.size_link q a, g.getElem?_link_self a h, fun _ hr => g.getElem?_link_of_ne a hr⟩

theorem sealed_link_link {g : Graph} {q : Nat} (h : g[q]? = some (join [])) (a b : Nat) :
    Sealed g ((g.link q a).link q b) q [a, b] := by
  have ha := sealed_link h a
  refine ⟨?_, getElem?_link_self _ b ha.self, fun r hr => ?_⟩
  · rw [size_link, size_link]
  · rw [getElem?_link_of_ne _ b hr, getElem?_link_of_ne g a hr]

namespace Shape

variable {base g g₁ g₂ G : Graph} {entry f x l : Nat} {exits targets : List Nat}

theorem exit_lt (h : Shape base g entry exits) {x : Nat} (hx : x ∈ exits) : x < g.size :=
  (Array.getElem?_eq_some_iff.1 (h.bare x hx)).1

theorem lengthen (h : Shape base g entry (l :: exits)) (hf : Shape g g₁ f [x])
    (hs : Sealed g₁ g₂ l targets) (ht : ∀ t ∈ targets, base.size ≤ t ∧ t < g₁.size) :
    Shape base g₂ entry (x :: exits) := by
  have hl : l < g.size := h.exit_lt List.mem_cons_self
  have hx : g.size ≤ x := hf.exit_ge x (List.mem_singleton_self x)
  have hbase := h.size_le
  have hsize := hf.size_le
  have hnd := List.nodup_cons.1 h.nodup
  refine ⟨?_, ?_, h.entry_ge, ?_, ?_, ?_, ?_, ?_⟩
  · rw [hs.size_eq]
    omega
  · intro q hq
    have hlb := h.exit_ge l List.mem_cons_self
    rw [hs.other q (by omega), hf.frame q (by omega), h.frame q hq]
  · have := h.entry_lt
    rw [hs.size_eq]
    omega
  · intro y hy
    rcases List.mem_cons.1 hy with rfl | hy
    · omega
    · exact h.exit_ge y (List.mem_cons_of_mem l hy)
  · intro y hy
    rcases List.mem_cons.1 hy with rfl | hy
    · rw [hs.other y (by omega)]
      exact hf.bare y (List.mem_singleton_self y)
    · have hy' := List.mem_cons_of_mem l hy
      have hyl : y ≠ l := fun he => hnd.1 (he ▸ hy)
      rw [hs.other y hyl, hf.frame y (h.exit_lt hy')]
      exact h.bare y hy'
  · refine List.nodup_cons.2 ⟨fun hmem => ?_, hnd.2⟩
    have := h.exit_lt (List.mem_cons_of_mem l hmem)
    omega
  · intro q s hq hqs
    by_cases hql : q = l
    · subst q
      rw [hs.self] at hqs
      cases hqs
      rw [hs.size_eq]
      exact State.within_join ht
    · rw [hs.other q hql] at hqs
      rw [hs.size_eq]
      by_cases hqg : q < g.size
      · rw [hf.frame q hqg] at hqs
        exact (h.within q s hq hqs).mono le_rfl hsize
      · exact (hf.within q s (by omega) hqs).mono hbase le_rfl

theorem keeps_left (hf : Shape g g₁ f [x]) (hs : Sealed g₁ g₂ l targets)
    (hG : Keeps base g₂ G (x :: exits)) :
    Keeps base g G (l :: exits) := by
  intro q hq hqg hqe
  rw [List.mem_cons, not_or] at hqe
  have hx := hf.exit_ge x (List.mem_singleton_self x)
  have hsize := hf.size_le
  rw [hG q hq (by rw [hs.size_eq]; omega), hs.other q hqe.1, hf.frame q hqg]
  rw [List.mem_cons, not_or]
  exact ⟨by omega, hqe.2⟩

theorem keeps_right (h : Shape base g entry (l :: exits)) (hs : Sealed g₁ g₂ l targets)
    (hG : Keeps base g₂ G (x :: exits)) : Keeps g g₁ G [x] := by
  intro q hq hqg hqe
  have hl := h.exit_lt List.mem_cons_self
  have hbase := h.size_le
  rw [hG q (by omega) (by rw [hs.size_eq]; omega), hs.other q (by omega)]
  rw [List.mem_cons, not_or]
  refine ⟨fun he => hqe (he ▸ List.mem_singleton_self _), fun hmem => ?_⟩
  have := h.exit_lt (List.mem_cons_of_mem l hmem)
  omega

theorem keeps_self (h : Shape base g entry (l :: exits)) (hf : Shape g g₁ f [x])
    (hs : Sealed g₁ g₂ l targets) (hG : Keeps base g₂ G (x :: exits)) :
    G[l]? = some (join targets) := by
  have hl := h.exit_lt List.mem_cons_self
  have hsize := hf.size_le
  rw [hG l (h.exit_ge l List.mem_cons_self) (by rw [hs.size_eq]; omega), hs.self]
  have hx := hf.exit_ge x (List.mem_singleton_self x)
  rw [List.mem_cons, not_or]
  exact ⟨by omega, (List.nodup_cons.1 h.nodup).1⟩

theorem outside_left (h : Shape base g entry (l :: exits)) (hf : Shape g g₁ f [x])
    (hs : Sealed g₁ g₂ l targets) {z : Nat} (hz : Outside base g₂ (x :: exits) z) :
    Outside base g (l :: exits) z ∧ Outside g g₁ [x] z ∧ l ≠ z := by
  have hl := h.exit_lt List.mem_cons_self
  have hlb := h.exit_ge l List.mem_cons_self
  have hx := hf.exit_ge x (List.mem_singleton_self x)
  have hbase := h.size_le
  have hsize := hf.size_le
  have hle := hs.size_eq
  rcases hz with hz | hz | hz
  · exact ⟨.inl hz, .inl (by omega), by omega⟩
  · exact ⟨.inr (.inl (by omega)), .inr (.inl (by omega)), by omega⟩
  · rcases List.mem_cons.1 hz with rfl | hz
    · exact ⟨.inr (.inl hx), .inr (.inr (List.mem_singleton_self _)), by omega⟩
    · have hzg := h.exit_lt (List.mem_cons_of_mem l hz)
      refine ⟨.inr (.inr (List.mem_cons_of_mem l hz)), .inl hzg, fun he => ?_⟩
      exact (List.nodup_cons.1 h.nodup).1 (he ▸ hz)

theorem shut (h : Shape base g entry (l :: exits)) (hs : Sealed g g₁ l targets)
    (ht : ∀ t ∈ targets, base.size ≤ t ∧ t < g.size) : Shape base g₁ entry exits := by
  have hlb := h.exit_ge l List.mem_cons_self
  have hnd := List.nodup_cons.1 h.nodup
  refine ⟨hs.size_eq ▸ h.size_le, ?_, h.entry_ge, hs.size_eq ▸ h.entry_lt, ?_, ?_, hnd.2, ?_⟩
  · intro q hq
    rw [hs.other q (by omega), h.frame q hq]
  · intro y hy
    exact h.exit_ge y (List.mem_cons_of_mem l hy)
  · intro y hy
    rw [hs.other y fun he => hnd.1 (he ▸ hy)]
    exact h.bare y (List.mem_cons_of_mem l hy)
  · intro q s hq hqs
    rw [hs.size_eq]
    by_cases hql : q = l
    · subst q
      rw [hs.self] at hqs
      cases hqs
      exact State.within_join ht
    · rw [hs.other q hql] at hqs
      exact h.within q s hq hqs

theorem keeps_of_shut (hs : Sealed g g₁ l targets) (hG : Keeps base g₁ G exits) :
    Keeps base g G (l :: exits) := by
  intro q hq hqg hqe
  rw [List.mem_cons, not_or] at hqe
  rw [hG q hq (hs.size_eq ▸ hqg) hqe.2, hs.other q hqe.1]

theorem keeps_self_of_shut (h : Shape base g entry (l :: exits)) (hs : Sealed g g₁ l targets)
    (hG : Keeps base g₁ G exits) : G[l]? = some (join targets) := by
  rw [hG l (h.exit_ge l List.mem_cons_self) (hs.size_eq ▸ h.exit_lt List.mem_cons_self)
    (List.nodup_cons.1 h.nodup).1, hs.self]

theorem outside_of_shut (h : Shape base g entry (l :: exits)) (hs : Sealed g g₁ l targets)
    {z : Nat} (hz : Outside base g₁ exits z) : Outside base g (l :: exits) z ∧ l ≠ z := by
  have hl := h.exit_lt List.mem_cons_self
  have hlb := h.exit_ge l List.mem_cons_self
  rcases hz with hz | hz | hz
  · exact ⟨.inl hz, by omega⟩
  · rw [hs.size_eq] at hz
    exact ⟨.inr (.inl hz), by omega⟩
  · exact ⟨.inr (.inr (List.mem_cons_of_mem l hz)),
      fun he => (List.nodup_cons.1 h.nodup).1 (he ▸ hz)⟩

end Shape

/-- A part with what its ways from the entry to the exits spell. The part may stand in any graph
that keeps its states: then a word leads from the entry to a state outside just if it is a word of
an exit followed by one that leads on from there. -/
structure Ways (base g : Graph) (entry : Nat) (exits : List (Nat × Language Char)) : Prop where
  shape : Shape base g entry (exits.map Prod.fst)
  sound : ∀ G, Keeps base g G (exits.map Prod.fst) → ∀ z, Outside base g (exits.map Prod.fst) z →
    ∀ n, G.wordsWithin n entry z ≤ (exits.map fun x => x.2 * G.wordsWithin n x.1 z).sum
  complete : ∀ G, Keeps base g G (exits.map Prod.fst) → ∀ x ∈ exits, x.2 ≤ G.words entry x.1
  live : ∀ G, Keeps base g G (exits.map Prod.fst) → ∀ q, base.size ≤ q → q < g.size →
    ∃ x ∈ exits, ∃ w, w ∈ G.words q x.1

namespace Ways

variable {base g g₁ g₂ G : Graph} {entry f x l out : Nat} {L M K : Language Char}
variable {exits : List (Nat × Language Char)} {targets : List Nat}

theorem bare_of_append (h : Ways base g entry ((l, L) :: exits)) (hf : Ways g g₁ f [(x, M)]) :
    g₁[l]? = some (join []) := by
  rw [hf.shape.frame l (h.shape.exit_lt List.mem_cons_self)]
  exact h.shape.bare l List.mem_cons_self

theorem leads_on (h : Ways base g entry ((l, L) :: exits)) (hf : Ways g g₁ f [(x, M)])
    (hs : Sealed g₁ g₂ l targets) (ht : f ∈ targets)
    (hG : Keeps base g₂ G (x :: exits.map Prod.fst)) : ∃ w, w ∈ G.words l x := by
  obtain ⟨y, hy, w, hw⟩ := hf.live G (h.shape.keeps_right hs hG) f hf.shape.entry_ge
    hf.shape.entry_lt
  obtain rfl := List.mem_singleton.1 hy
  exact ⟨w, words_le_of_join (h.shape.keeps_self hf.shape hs hG) ht x hw⟩

theorem live_or (h : Ways base g entry ((l, L) :: exits)) (hf : Ways g g₁ f [(x, M)])
    (hs : Sealed g₁ g₂ l targets) (hG : Keeps base g₂ G (x :: exits.map Prod.fst))
    (q : Nat) (hq : base.size ≤ q) (hqg : q < g₁.size) :
    (∃ y ∈ (l, L) :: exits, ∃ w, w ∈ G.words q y.1) ∨ ∃ w, w ∈ G.words q x := by
  by_cases hlt : q < g.size
  · exact .inl (h.live G (Shape.keeps_left hf.shape hs hG) q hq hlt)
  · obtain ⟨y, hy, hw⟩ := hf.live G (h.shape.keeps_right hs hG) q (Nat.not_lt.1 hlt) hqg
    obtain rfl := List.mem_singleton.1 hy
    exact .inr hw

theorem append (h : Ways base g entry [(l, L)]) (hf : Ways g g₁ f [(x, M)]) :
    Ways base (g₁.link l f) entry [(x, L * M)] := by
  have hs := sealed_link (h.bare_of_append hf) f
  have hfb : base.size ≤ f := h.shape.size_le.trans hf.shape.entry_ge
  refine ⟨h.shape.lengthen hf.shape hs (by simpa using ⟨hfb, hf.shape.entry_lt⟩), ?_, ?_, ?_⟩
  · intro G hG z hz n
    obtain ⟨hzl, hzf, hne⟩ := h.shape.outside_left hf.shape hs hz
    have hL := h.sound G (Shape.keeps_left hf.shape hs hG) z hzl n
    have hM := hf.sound G (h.shape.keeps_right hs hG) z hzf n
    have hj := wordsWithin_join_le_sum (n := n) (h.shape.keeps_self hf.shape hs hG) hne
    simp only [List.map_cons, List.map_nil, List.sum_cons, List.sum_nil, add_zero] at hL hM hj ⊢
    calc G.wordsWithin n entry z
        ≤ L * G.wordsWithin n l z := hL
      _ ≤ L * (M * G.wordsWithin n x z) := by gcongr; exact hj.trans hM
      _ = L * M * G.wordsWithin n x z := (mul_assoc _ _ _).symm
  · intro G hG y hy
    obtain rfl := List.mem_singleton.1 hy
    have hL := h.complete G (Shape.keeps_left hf.shape hs hG) _ (List.mem_singleton_self _)
    have hM := hf.complete G (h.shape.keeps_right hs hG) _ (List.mem_singleton_self _)
    have hj := words_le_of_join (h.shape.keeps_self hf.shape hs hG) (List.mem_singleton_self f) x
    exact mul_le_words hL (hM.trans hj)
  · intro G hG q hq hqg
    have hlf := h.leads_on hf hs (List.mem_singleton_self f) hG
    rcases h.live_or hf hs hG q hq (hs.size_eq ▸ hqg) with ⟨y, hy, hql⟩ | hqx
    · obtain rfl := List.mem_singleton.1 hy
      exact ⟨_, List.mem_singleton_self _, exists_words_trans hql hlf⟩
    · exact ⟨_, List.mem_singleton_self _, hqx⟩

theorem fork (h : Ways base g entry [(l, L), (out, K)]) (hf : Ways g g₁ f [(x, M)]) :
    Ways base ((g₁.link l f).link l out) entry [(x, L * M), (out, K + L)] := by
  have hs := sealed_link_link (h.bare_of_append hf) f out
  have hfb : base.size ≤ f := h.shape.size_le.trans hf.shape.entry_ge
  have hob : base.size ≤ out := h.shape.exit_ge out (by simp)
  have hog : out < g₁.size := (h.shape.exit_lt (by simp)).trans_le hf.shape.size_le
  refine ⟨h.shape.lengthen hf.shape hs (by simpa using ⟨⟨hfb, hf.shape.entry_lt⟩, hob, hog⟩),
    ?_, ?_, ?_⟩
  · intro G hG z hz n
    obtain ⟨hzl, hzf, hne⟩ := h.shape.outside_left hf.shape hs hz
    have hL := h.sound G (Shape.keeps_left hf.shape hs hG) z hzl n
    have hM := hf.sound G (h.shape.keeps_right hs hG) z hzf n
    have hj := wordsWithin_join_le_sum (n := n) (h.shape.keeps_self hf.shape hs hG) hne
    simp only [List.map_cons, List.map_nil, List.sum_cons, List.sum_nil, add_zero] at hL hM hj ⊢
    calc G.wordsWithin n entry z
        ≤ L * G.wordsWithin n l z + K * G.wordsWithin n out z := hL
      _ ≤ L * (M * G.wordsWithin n x z + G.wordsWithin n out z) + K * G.wordsWithin n out z := by
          gcongr
          exact hj.trans (add_le_add_left hM _)
      _ = L * M * G.wordsWithin n x z + (K + L) * G.wordsWithin n out z := by
          rw [mul_add, add_mul, mul_assoc, add_assoc, add_comm (L * G.wordsWithin n out z)]
  · intro G hG y hy
    have hL := h.complete G (Shape.keeps_left hf.shape hs hG)
    have hM := hf.complete G (h.shape.keeps_right hs hG) _ (List.mem_singleton_self _)
    have hl := h.shape.keeps_self hf.shape hs hG
    rcases List.mem_pair.1 hy with rfl | rfl
    · exact mul_le_words (hL (l, L) (by simp))
        (hM.trans (words_le_of_join hl List.mem_cons_self x))
    · exact add_le (hL (out, K) (by simp)) (le_words_of_join (hL (l, L) (by simp)) hl (by simp))
  · intro G hG q hq hqg
    have hlx := h.leads_on hf hs (by simp) hG
    rcases h.live_or hf hs hG q hq (hs.size_eq ▸ hqg) with ⟨y, hy, hql⟩ | hqx
    · rcases List.mem_pair.1 hy with rfl | rfl
      · exact ⟨(x, L * M), by simp, exists_words_trans hql hlx⟩
      · exact ⟨(out, K + L), by simp, hql⟩
    · exact ⟨(x, L * M), by simp, hqx⟩

theorem close (h : Ways base g entry ((l, L) :: (out, K) :: exits)) :
    Ways base (g.link l out) entry ((out, K + L) :: exits) := by
  have hs := sealed_link (h.shape.bare l List.mem_cons_self) out
  have hout := h.shape.exit_ge out (by simp)
  refine ⟨h.shape.shut hs (by simpa using ⟨hout, h.shape.exit_lt (by simp)⟩), ?_, ?_, ?_⟩
  · intro G hG z hz n
    obtain ⟨hz, hne⟩ := h.shape.outside_of_shut hs hz
    have hL := h.sound G (Shape.keeps_of_shut hs hG) z hz n
    have hj := wordsWithin_join_le_sum (n := n) (h.shape.keeps_self_of_shut hs hG) hne
    simp only [List.map_cons, List.map_nil, List.sum_cons, List.sum_nil, add_zero] at hL hj ⊢
    calc G.wordsWithin n entry z
        ≤ L * G.wordsWithin n l z + (K * G.wordsWithin n out z + _) := hL
      _ ≤ L * G.wordsWithin n out z + (K * G.wordsWithin n out z + _) := by gcongr
      _ = (K + L) * G.wordsWithin n out z + _ := by
          rw [← add_assoc, add_mul, add_comm (L * _)]
  · intro G hG y hy
    have hL := h.complete G (Shape.keeps_of_shut hs hG)
    rcases List.mem_cons.1 hy with rfl | hy
    · exact add_le (hL (out, K) (by simp))
        (le_words_of_join (hL (l, L) (by simp)) (h.shape.keeps_self_of_shut hs hG) (by simp))
    · exact hL y (by simp [hy])
  · intro G hG q hq hqg
    have hl := h.shape.keeps_self_of_shut hs hG
    obtain ⟨y, hy, hqy⟩ := h.live G (Shape.keeps_of_shut hs hG) q hq (hs.size_eq ▸ hqg)
    simp only [List.mem_cons] at hy
    rcases hy with rfl | rfl | hy
    · exact ⟨(out, K + L), by simp,
        exists_words_trans hqy ⟨[], one_le_words_of_join hl (List.mem_singleton_self out) rfl⟩⟩
    · exact ⟨(out, K + L), by simp, hqy⟩
    · exact ⟨y, by simp [hy], hqy⟩

theorem loop (h : Ways base g entry [(l, L), (out, K)]) (hf : Ways g g₁ f [(x, M)]) :
    Ways base ((((g₁.link l f).link l out).link x f).link x out) entry [(out, K + L * M∗)] := by
  have hfork := h.fork hf
  have hs := sealed_link_link (h.bare_of_append hf) f out
  have hx := sealed_link_link (hfork.shape.bare x List.mem_cons_self) f out
  have hfb : base.size ≤ f := h.shape.size_le.trans hf.shape.entry_ge
  have hob : base.size ≤ out := h.shape.exit_ge out (by simp)
  have hog : out < g₁.size := (h.shape.exit_lt (by simp)).trans_le hf.shape.size_le
  have hin : ∀ t ∈ [f, out], base.size ≤ t ∧ t < ((g₁.link l f).link l out).size := by
    rw [hs.size_eq]
    simpa using ⟨⟨hfb, hf.shape.entry_lt⟩, hob, hog⟩
  refine ⟨hfork.shape.shut hx hin, ?_, ?_, ?_⟩
  · intro G hG z hz n
    obtain ⟨hz', hne⟩ := hfork.shape.outside_of_shut hx hz
    have hkeep := Shape.keeps_of_shut hx hG
    have hself := hfork.shape.keeps_self_of_shut hx hG
    have hM := hf.sound G (h.shape.keeps_right hs hkeep) z
      (h.shape.outside_left hf.shape hs hz').2.1
    have hL := hfork.sound G hkeep z hz' n
    simp only [List.map_cons, List.map_nil, List.sum_cons, List.sum_nil, add_zero] at hL hM ⊢
    calc G.wordsWithin n entry z
        ≤ L * M * G.wordsWithin n x z + (K + L) * G.wordsWithin n out z := hL
      _ ≤ L * M * (M∗ * G.wordsWithin n out z) + (K + L) * G.wordsWithin n out z := by
          gcongr
          exact wordsWithin_le_kstar hself hne hM n
      _ = (K + L * (1 + M * M∗)) * G.wordsWithin n out z := by
          simp only [mul_add, add_mul, mul_one, mul_assoc]
          rw [add_comm, add_assoc]
      _ = (K + L * M∗) * G.wordsWithin n out z := by rw [one_add_mul_kstar]
  · intro G hG y hy
    obtain rfl := List.mem_singleton.1 hy
    have hkeep := Shape.keeps_of_shut hx hG
    have hself := hfork.shape.keeps_self_of_shut hx hG
    have hL := h.complete G (Shape.keeps_left hf.shape hs hkeep)
    have hM := hf.complete G (h.shape.keeps_right hs hkeep) _ (List.mem_singleton_self _)
    have hl := h.shape.keeps_self hf.shape hs hkeep
    have hlout : M∗ ≤ G.words l out := by
      rw [← one_add_mul_kstar]
      refine add_le (one_le_words_of_join hl (by simp)) ?_
      refine mul_le_words (hM.trans (words_le_of_join hl (by simp) x)) ?_
      refine kstar_le_of_mul_le_right (one_le_words_of_join hself (by simp)) ?_
      exact mul_le_words (hM.trans (words_le_of_join hself (by simp) x)) le_rfl
    exact add_le (hL (out, K) (by simp)) (mul_le_words (hL (l, L) (by simp)) hlout)
  · intro G hG q hq hqg
    have hkeep := Shape.keeps_of_shut hx hG
    have hself := hfork.shape.keeps_self_of_shut hx hG
    obtain ⟨y, hy, hqy⟩ := hfork.live G hkeep q hq (hx.size_eq ▸ hqg)
    refine ⟨_, List.mem_singleton_self _, ?_⟩
    rcases List.mem_pair.1 hy with rfl | rfl
    · exact exists_words_trans hqy ⟨[], one_le_words_of_join hself (by simp) rfl⟩
    · exact hqy

end Ways

end Munch.Nfa
