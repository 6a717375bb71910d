import Munch.Proofs.CodePoints
import Munch.Proofs.Fragment

namespace Munch.Nfa

open Computability Nfa.Graph

namespace Shape

variable {base g g₁ : Graph} {entry : Nat} {exits : List Nat}

theorem perm {exits' : List Nat} (h : Shape base g entry exits) (hp : exits.Perm exits') :
    Shape base g entry exits' :=
  { h with
    exit_ge := fun x hx => h.exit_ge x (hp.mem_iff.2 hx)
    bare := fun x hx => h.bare x (hp.mem_iff.2 hx)
    nodup := hp.nodup_iff.1 h.nodup }

theorem getElem?_add_of_lt {s : State} {q : Nat} (hq : q < g.size) : (g.add s)[q]? = g[q]? := by
  rw [getElem?_add, if_neg (Nat.ne_of_lt hq)]

theorem getElem?_add_size {s : State} : (g.add s)[g.size]? = some s := by
  rw [getElem?_add, if_pos rfl]

theorem within_add {s : State} (h : Shape base g entry exits)
    (hs : s.Within base.size (g.size + 1)) (q : Nat) (t : State) (hq : base.size ≤ q)
    (hqt : (g.add s)[q]? = some t) : t.Within base.size (g.add s).size := by
  rw [size_add]
  rw [getElem?_add] at hqt
  by_cases hqg : q = g.size
  · rw [if_pos hqg] at hqt
    cases hqt
    exact hs
  · rw [if_neg hqg] at hqt
    exact (h.within q t hq hqt).mono le_rfl (Nat.le_succ _)

theorem addExit (h : Shape base g entry exits) :
    Shape base (g.add {}) entry (g.size :: exits) := by
  refine ⟨?_, ?_, h.entry_ge, ?_, ?_, ?_, ?_, h.within_add ?_⟩
  · rw [size_add]
    exact h.size_le.trans (Nat.le_succ _)
  · intro q hq
    rw [getElem?_add_of_lt (hq.trans_le h.size_le), h.frame q hq]
  · rw [size_add]
    exact h.entry_lt.trans (Nat.lt_succ_self _)
  · intro x hx
    rcases List.mem_cons.1 hx with rfl | hx
    · exact h.size_le
    · exact h.exit_ge x hx
  · intro x hx
    rcases List.mem_cons.1 hx with rfl | hx
    · exact getElem?_add_size
    · rw [getElem?_add_of_lt (h.exit_lt hx)]
      exact h.bare x hx
  · exact List.nodup_cons.2 ⟨fun hmem => Nat.lt_irrefl _ (h.exit_lt hmem), h.nodup⟩
  · exact State.within_join fun t ht => by simp at ht

section Either

variable {a b x y : Nat} {G : Graph}

theorem either (h : Shape base g a [x]) (h' : Shape g g₁ b [y]) :
    Shape base (g₁.add (join [a, b])) g₁.size [x, y] := by
  have hbase := h.size_le
  have hsize := h'.size_le
  have hxg : x < g.size := h.exit_lt (List.mem_singleton_self x)
  have hyg : g.size ≤ y := h'.exit_ge y (List.mem_singleton_self y)
  refine ⟨?_, ?_, hbase.trans hsize, ?_, ?_, ?_, ?_, ?_⟩
  · rw [size_add]
    omega
  · intro q hq
    rw [getElem?_add_of_lt (by omega), h'.frame q (by omega), h.frame q hq]
  · rw [size_add]
    omega
  · intro z hz
    rcases List.mem_pair.1 hz with rfl | rfl
    · exact h.exit_ge _ (List.mem_singleton_self _)
    · omega
  · intro z hz
    rcases List.mem_pair.1 hz with rfl | rfl
    · rw [getElem?_add_of_lt (by omega), h'.frame _ hxg]
      exact h.bare _ (List.mem_singleton_self _)
    · rw [getElem?_add_of_lt (h'.exit_lt (List.mem_singleton_self _))]
      exact h'.bare _ (List.mem_singleton_self _)
  · refine List.nodup_cons.2 ⟨?_, List.nodup_singleton y⟩
    rw [List.mem_singleton]
    omega
  · intro q s hq hqs
    rw [size_add]
    rw [getElem?_add] at hqs
    by_cases hqe : q = g₁.size
    · rw [if_pos hqe] at hqs
      cases hqs
      have hag := h.entry_lt
      have hab := h.entry_ge
      have hbg := h'.entry_lt
      have hbb := h'.entry_ge
      exact State.within_join (by simp; omega)
    · rw [if_neg hqe] at hqs
      by_cases hqg : q < g.size
      · rw [h'.frame q hqg] at hqs
        exact (h.within q s hq hqs).mono le_rfl (by omega)
      · exact (h'.within q s (by omega) hqs).mono hbase (Nat.le_succ _)

theorem either_keeps_left (h' : Shape g g₁ b [y])
    (hG : Keeps base (g₁.add (join [a, b])) G [x, y]) : Keeps base g G [x] := by
  intro q hq hqg hqe
  have hsize := h'.size_le
  have hyg := h'.exit_ge y (List.mem_singleton_self y)
  rw [hG q hq (by rw [size_add]; omega), getElem?_add_of_lt (by omega), h'.frame q hqg]
  rw [List.mem_pair, not_or]
  exact ⟨List.mem_singleton.not.1 hqe, by omega⟩

theorem either_keeps_right (h : Shape base g a [x])
    (hG : Keeps base (g₁.add (join [a, b])) G [x, y]) : Keeps g g₁ G [y] := by
  intro q hq hqg hqe
  have hbase := h.size_le
  have hxg := h.exit_lt (List.mem_singleton_self x)
  rw [hG q (by omega) (by rw [size_add]; omega), getElem?_add_of_lt hqg]
  rw [List.mem_pair, not_or]
  exact ⟨by omega, List.mem_singleton.not.1 hqe⟩

theorem either_keeps_self (h : Shape base g a [x]) (h' : Shape g g₁ b [y])
    (hG : Keeps base (g₁.add (join [a, b])) G [x, y]) : G[g₁.size]? = some (join [a, b]) := by
  have hbase := h.size_le
  have hsize := h'.size_le
  have hxg := h.exit_lt (List.mem_singleton_self x)
  have hyg := h'.exit_lt (List.mem_singleton_self y)
  rw [hG g₁.size (by omega) (by rw [size_add]; omega), getElem?_add_size]
  rw [List.mem_pair, not_or]
  exact ⟨by omega, by omega⟩

theorem either_outside (h : Shape base g a [x]) (h' : Shape g g₁ b [y]) {z : Nat}
    (hz : Outside base (g₁.add (join [a, b])) [x, y] z) :
    Outside base g [x] z ∧ Outside g g₁ [y] z ∧ g₁.size ≠ z := by
  have hbase := h.size_le
  have hsize := h'.size_le
  have hxg := h.exit_lt (List.mem_singleton_self x)
  have hyg := h'.exit_ge y (List.mem_singleton_self y)
  have hyg₁ := h'.exit_lt (List.mem_singleton_self y)
  rcases hz with hz | hz | hz
  · exact ⟨.inl hz, .inl (by omega), by omega⟩
  · rw [size_add] at hz
    exact ⟨.inr (.inl (by omega)), .inr (.inl (by omega)), by omega⟩
  · rcases List.mem_pair.1 hz with rfl | rfl
    · exact ⟨.inr (.inr (List.mem_singleton_self _)), .inl hxg, by omega⟩
    · exact ⟨.inr (.inl hyg), .inr (.inr (List.mem_singleton_self _)), by omega⟩

end Either

end Shape

namespace Ways

variable {base g g₁ : Graph} {entry f x l y out : Nat} {L M K : Language Char}
variable {exits exits' : List (Nat × Language Char)}

theorem perm (h : Ways base g entry exits) (hp : exits.Perm exits') :
    Ways base g entry exits' := by
  have hfst : (exits.map Prod.fst).Perm (exits'.map Prod.fst) := hp.map _
  have hkeep {G : Graph} (hG : Keeps base g G (exits'.map Prod.fst)) :
      Keeps base g G (exits.map Prod.fst) :=
    fun q hq hqg hqe => hG q hq hqg fun hmem => hqe (hfst.mem_iff.2 hmem)
  refine ⟨h.shape.perm hfst, ?_, ?_, ?_⟩
  · intro G hG z hz n
    rw [← (hp.map fun x => x.2 * G.wordsWithin n x.1 z).sum_eq]
    exact h.sound G (hkeep hG) z (hz.imp_right (Or.imp_right hfst.mem_iff.2)) n
  · intro G hG x hx
    exact h.complete G (hkeep hG) x (hp.mem_iff.2 hx)
  · intro G hG q hq hqg
    obtain ⟨x, hx, hw⟩ := h.live G (hkeep hG) q hq hqg
    exact ⟨x, hp.mem_iff.1 hx, hw⟩

theorem single (g : Graph) : Ways g (g.add {}) g.size [(g.size, 1)] := by
  refine ⟨⟨?_, ?_, le_rfl, ?_, ?_, ?_, ?_, ?_⟩, ?_, ?_, ?_⟩
  · rw [size_add]
    exact Nat.le_succ _
  · intro q hq
    exact Shape.getElem?_add_of_lt hq
  · rw [size_add]
    exact Nat.lt_succ_self _
  · simp
  · intro x hx
    obtain rfl := List.mem_singleton.1 hx
    exact Shape.getElem?_add_size
  · simp
  · intro q s hq hqs
    have hlt := (Array.getElem?_eq_some_iff.1 hqs).1
    rw [size_add] at hlt
    obtain rfl : q = g.size := by omega
    rw [Shape.getElem?_add_size] at hqs
    cases hqs
    exact State.within_join fun t ht => by simp at ht
  · intro G _ z _ n
    simp
  · intro G _ x hx
    obtain rfl := List.mem_singleton.1 hx
    exact one_le_words _
  · intro G _ q hq hqg
    rw [size_add] at hqg
    obtain rfl : q = g.size := by omega
    exact ⟨_, List.mem_singleton_self _, [], one_le_words _ rfl⟩

theorem addExit (h : Ways base g entry exits) :
    Ways base (g.add {}) entry ((g.size, 0) :: exits) := by
  have hkeep {G : Graph} (hG : Keeps base (g.add {}) G (g.size :: exits.map Prod.fst)) :
      Keeps base g G (exits.map Prod.fst) := by
    intro q hq hqg hqe
    rw [hG q hq (by rw [size_add]; omega), Shape.getElem?_add_of_lt hqg]
    rw [List.mem_cons, not_or]
    exact ⟨by omega, hqe⟩
  refine ⟨h.shape.addExit, ?_, ?_, ?_⟩
  · intro G hG z hz n
    rw [List.map_cons, List.sum_cons, zero_mul, zero_add]
    refine h.sound G (hkeep hG) z ?_ n
    rcases hz with hz | hz | hz
    · exact .inl hz
    · rw [size_add] at hz
      exact .inr (.inl (by omega))
    · rcases List.mem_cons.1 hz with rfl | hz
      · exact .inr (.inl le_rfl)
      · exact .inr (.inr hz)
  · intro G hG x hx
    rcases List.mem_cons.1 hx with rfl | hx
    · exact zero_le
    · exact h.complete G (hkeep hG) x hx
  · intro G hG q hq hqg
    rw [size_add] at hqg
    by_cases hqe : q = g.size
    · subst q
      exact ⟨_, List.mem_cons_self, [], one_le_words _ rfl⟩
    · obtain ⟨x, hx, hw⟩ := h.live G (hkeep hG) q hq (by omega)
      exact ⟨x, List.mem_cons_of_mem _ hx, hw⟩

theorem either {a b : Nat} (h : Ways base g a [(x, L)]) (h' : Ways g g₁ b [(y, M)]) :
    Ways base (g₁.add (join [a, b])) g₁.size [(x, L), (y, M)] := by
  refine ⟨h.shape.either h'.shape, ?_, ?_, ?_⟩
  · intro G hG z hz n
    obtain ⟨hzx, hzy, hne⟩ := h.shape.either_outside h'.shape hz
    have hL := h.sound G (Shape.either_keeps_left h'.shape hG) z hzx n
    have hM := h'.sound G (h.shape.either_keeps_right hG) z hzy n
    have hj := wordsWithin_join_le_sum (n := n) (h.shape.either_keeps_self h'.shape hG) hne
    simp only [List.map_cons, List.map_nil, List.sum_cons, List.sum_nil, add_zero] at hL hM hj ⊢
    exact hj.trans (add_le_add hL hM)
  · intro G hG z hz
    have hj := h.shape.either_keeps_self h'.shape hG
    have hL := h.complete G (Shape.either_keeps_left h'.shape hG) _ (List.mem_singleton_self _)
    have hM := h'.complete G (h.shape.either_keeps_right hG) _ (List.mem_singleton_self _)
    rcases List.mem_pair.1 hz with rfl | rfl
    · exact hL.trans (words_le_of_join hj List.mem_cons_self x)
    · exact hM.trans (words_le_of_join hj (by simp) y)
  · intro G hG q hq hqg
    have hlive := h.live G (Shape.either_keeps_left h'.shape hG)
    rw [size_add] at hqg
    by_cases hlt : q < g.size
    · obtain ⟨z, hz, hw⟩ := hlive q hq hlt
      obtain rfl := List.mem_singleton.1 hz
      exact ⟨(x, L), by simp, hw⟩
    · by_cases hqe : q = g₁.size
      · obtain ⟨z, hz, w, hw⟩ := hlive a h.shape.entry_ge h.shape.entry_lt
        obtain rfl := List.mem_singleton.1 hz
        subst q
        have hj := h.shape.either_keeps_self h'.shape hG
        exact ⟨(x, L), by simp, w, words_le_of_join hj List.mem_cons_self x hw⟩
      · obtain ⟨z, hz, hw⟩ := h'.live G (h.shape.either_keeps_right hG) q (by omega) (by omega)
        obtain rfl := List.mem_singleton.1 hz
        exact ⟨(y, M), by simp, hw⟩

section Bridge

variable (g : Graph) (cs : List Char)

theorem size_bridge : (g.bridge cs).1.size = g.size + 2 := by
  simp [Graph.bridge]

theorem getElem?_bridge_entry :
    (g.bridge cs).1[g.size]? = some { edges := cs.map (·, g.size + 1) } := by
  rw [Graph.bridge, Shape.getElem?_add_of_lt (by simp), Shape.getElem?_add_size]

theorem getElem?_bridge_exit : (g.bridge cs).1[g.size + 1]? = some (join []) := by
  rw [Graph.bridge, getElem?_add, size_add, if_pos rfl]
  rfl

theorem shape_bridge : Shape g (g.bridge cs).1 g.size [g.size + 1] := by
  have hsize := size_bridge g cs
  refine ⟨?_, ?_, le_rfl, ?_, ?_, ?_, ?_, ?_⟩
  · omega
  · intro q hq
    simp only [Graph.bridge, getElem?_add, size_add]
    rw [if_neg (by omega), if_neg (by omega)]
  · omega
  · simp
  · intro x hx
    obtain rfl := List.mem_singleton.1 hx
    exact getElem?_bridge_exit g cs
  · simp
  · intro q s hq hqs
    have hlt := (Array.getElem?_eq_some_iff.1 hqs).1
    rw [hsize] at hlt ⊢
    rcases Nat.eq_or_lt_of_le hq with rfl | hq
    · rw [getElem?_bridge_entry] at hqs
      cases hqs
      refine ⟨rfl, fun t ht => by simp at ht, fun e he => ?_⟩
      obtain ⟨c, -, rfl⟩ := List.mem_map.1 he
      exact ⟨Nat.le_succ _, Nat.lt_succ_self _⟩
    · obtain rfl : q = g.size + 1 := by omega
      rw [getElem?_bridge_exit] at hqs
      cases hqs
      exact State.within_join fun t ht => by simp at ht

end Bridge

theorem bridge (g : Graph) {cs : List Char} (hcs : cs ≠ []) :
    Ways g (g.bridge cs).1 g.size [(g.size + 1, {w : List Char | ∃ c ∈ cs, w = [c]})] := by
  have hsize := size_bridge g cs
  have hkeep {G : Graph} (hG : Keeps g (g.bridge cs).1 G [g.size + 1]) :
      G[g.size]? = some { edges := cs.map (·, g.size + 1) } := by
    rw [hG g.size le_rfl (by omega) (by simp), getElem?_bridge_entry]
  refine ⟨shape_bridge g cs, ?_, ?_, ?_⟩
  · intro G hG z hz n w hw
    have hne : g.size ≠ z := by
      rcases hz with hz | hz | hz
      · omega
      · omega
      · rw [List.mem_singleton.1 hz]
        omega
    simp only [List.map_cons, List.map_nil, List.sum_cons, List.sum_nil, add_zero]
    rcases Walk.step_cases hw (hkeep hG) hne with ⟨r, hr, -⟩ | ⟨c, r, v, hr, rfl, hv⟩
    · simp at hr
    · obtain ⟨d, hd, he⟩ := List.mem_map.1 hr
      cases he
      exact Language.append_mem_mul (a := [c]) ⟨c, hd, rfl⟩
        (wordsWithin_mono (Nat.sub_le n 1) _ _ hv)
  · intro G hG x hx
    obtain rfl := List.mem_singleton.1 hx
    rintro w ⟨c, hc, rfl⟩
    exact singleton_mem_words (hkeep hG) (List.mem_map.2 ⟨c, hc, rfl⟩)
  · intro G hG q hq hqg
    refine ⟨_, List.mem_singleton_self _, ?_⟩
    rcases Nat.eq_or_lt_of_le hq with rfl | hq
    · obtain ⟨c, hc⟩ := List.exists_mem_of_ne_nil cs hcs
      exact ⟨[c], singleton_mem_words (hkeep hG) (List.mem_map.2 ⟨c, hc, rfl⟩)⟩
    · obtain rfl : q = g.size + 1 := by omega
      exact ⟨[], one_le_words _ rfl⟩

end Ways

section Copies

/-- At least `lo` copies, but fewer than `hi`. -/
def copiesBelow (M : Language Char) (lo hi : Nat) : Language Char :=
  {w : List Char | ∃ n, lo ≤ n ∧ n < hi ∧ w ∈ M ^ n}

theorem copiesBelow_self (M : Language Char) (lo : Nat) : copiesBelow M lo lo = 0 := by
  ext w
  refine ⟨?_, fun hw => absurd hw (Language.notMem_zero w)⟩
  rintro ⟨n, hlo, hhi, -⟩
  omega

theorem copiesBelow_succ (M : Language Char) {lo hi : Nat} (h : lo ≤ hi) :
    copiesBelow M lo hi + M ^ hi = copiesBelow M lo (hi + 1) := by
  ext w
  rw [Language.mem_add]
  constructor
  · rintro (⟨n, hlo, hhi, hw⟩ | hw)
    · exact ⟨n, hlo, Nat.lt_succ_of_lt hhi, hw⟩
    · exact ⟨hi, h, Nat.lt_succ_self hi, hw⟩
  · rintro ⟨n, hlo, hhi, hw⟩
    rcases Nat.lt_succ_iff_lt_or_eq.1 hhi with hlt | rfl
    · exact .inl ⟨n, hlo, hlt, hw⟩
    · exact .inr hw

variable {grow : Graph → Graph × Fragment} {M : Language Char}
variable (hgrow : ∀ g, Ways g (grow g).1 (grow g).2.entry [((grow g).2.exit, M)])

include hgrow

theorem ways_chain {base g : Graph} {entry l : Nat} {L : Language Char} (n : Nat)
    (h : Ways base g entry [(l, L)]) :
    Ways base (chain grow n g l).1 entry [((chain grow n g l).2, L * M ^ n)] := by
  induction n generalizing g l L with
  | zero => rwa [pow_zero, mul_one]
  | succ n ih =>
      rw [pow_succ', ← mul_assoc]
      exact ih (h.append (hgrow g))

theorem ways_chainOut {base g : Graph} {entry l out lo c : Nat} (n : Nat) (hc : lo ≤ c)
    (h : Ways base g entry [(l, M ^ c), (out, copiesBelow M lo c)]) :
    Ways base (chainOut grow out n g l).1 entry
      [((chainOut grow out n g l).2, M ^ (c + n)), (out, copiesBelow M lo (c + n))] := by
  induction n generalizing g l c with
  | zero => exact h
  | succ n ih =>
      have hf := h.fork (hgrow g)
      rw [← pow_succ, copiesBelow_succ M hc] at hf
      rw [show c + (n + 1) = c + 1 + n by omega]
      exact ih (Nat.le_succ_of_le hc) hf

end Copies

end Munch.Nfa

namespace Munch

open Computability Nfa Nfa.Graph

theorem mem_symbols {lo hi c : Char} : c ∈ symbols lo hi ↔ lo ≤ c ∧ c ≤ hi := by
  rw [symbols, List.mem_filterMap, Char.le_def, Char.le_def]
  simp only [Text.scalar?_eq_some, exists_eq_right, List.mem_range'_1]
  have hlo : lo.val ≤ c.val ↔ lo.toNat ≤ c.toNat := UInt32.le_iff_toNat_le
  have hhi : c.val ≤ hi.val ↔ c.toNat ≤ hi.toNat := UInt32.le_iff_toNat_le
  rw [hlo, hhi]
  omega

namespace Pattern

theorem language_range (lo hi : Char) :
    (range lo hi).language = {w : List Char | ∃ c ∈ symbols lo hi, w = [c]} := by
  ext w
  rw [mem_language_range]
  constructor
  · rintro ⟨c, rfl, hc⟩
    exact ⟨c, mem_symbols.2 hc, rfl⟩
  · rintro ⟨c, hc, rfl⟩
    exact ⟨c, rfl, mem_symbols.1 hc⟩

theorem language_literal (c : Char) :
    (literal c).language = {w : List Char | ∃ d ∈ [c], w = [d]} := by
  ext w
  rw [mem_language_literal]
  constructor
  · rintro rfl
    exact ⟨c, List.mem_singleton_self c, rfl⟩
  · rintro ⟨d, hd, rfl⟩
    rw [List.mem_singleton.1 hd]

theorem language_repeated_none (p : Pattern) (least : Nat) :
    (repeated p least none).language = p.language ^ least * p.language∗ := by
  ext w
  rw [mem_language_repeated, Language.kstar_eq_iSup_pow, Language.mul_iSup, Language.mem_iSup]
  constructor
  · rintro ⟨n, hn, -, hw⟩
    obtain ⟨m, rfl⟩ := Nat.exists_eq_add_of_le hn
    exact ⟨m, by rwa [← pow_add]⟩
  · rintro ⟨m, hw⟩
    rw [← pow_add] at hw
    exact ⟨least + m, Nat.le_add_right _ _, by simp, hw⟩

theorem language_repeated_some (p : Pattern) (least most : Nat) :
    (repeated p least (some most)).language = copiesBelow p.language least (most + 1) := by
  ext w
  rw [mem_language_repeated]
  constructor
  · rintro ⟨n, hn, hm, hw⟩
    exact ⟨n, hn, Nat.lt_succ_of_le (hm most rfl), hw⟩
  · rintro ⟨n, hn, hm, hw⟩
    refine ⟨n, hn, ?_, hw⟩
    rintro m ⟨⟩
    exact Nat.le_of_lt_succ hm

/-- The graph of a sound pattern spells the words of the pattern, and nothing in it is a dead
end. -/
theorem ways_grow {p : Pattern} (h : p.flaw? = none) (g : Graph) :
    Ways g (p.grow g).1 (p.grow g).2.entry [((p.grow g).2.exit, p.language)] := by
  induction p generalizing g with
  | literal c =>
      rw [language_literal]
      exact Ways.bridge g (List.cons_ne_nil c [])
  | range lo hi =>
      have hle : lo ≤ hi := by
        rw [flaw?] at h
        by_contra hn
        simp [Char.not_le.1 hn] at h
      rw [language_range]
      exact Ways.bridge g (List.ne_nil_of_mem (mem_symbols.2 ⟨Char.le_refl lo, hle⟩))
  | concat p q ihp ihq =>
      obtain ⟨hp, hq⟩ := Option.or_eq_none_iff.1 h
      exact (ihp hp g).append (ihq hq _)
  | alternate p q ihp ihq =>
      obtain ⟨hp, hq⟩ := Option.or_eq_none_iff.1 h
      have he := ((ihp hp g).either (ihq hq _)).addExit
      have hx := (he.perm (.swap _ _ _)).close
      have hy := (hx.perm (.swap _ _ _)).close
      rw [zero_add, size_add] at hy
      exact hy
  | repeated p least most ih =>
      cases most with
      | none =>
          have hc := (ways_chain (ih h) least (Ways.single g)).addExit.perm (.swap _ _ _)
          have hl := hc.loop (ih h _)
          rw [one_mul, zero_add, ← language_repeated_none] at hl
          simp only [grow]
          exact hl
      | some most =>
          rw [flaw?] at h
          have hle : least ≤ most := by
            by_contra hn
            simp [Nat.not_le.1 hn] at h
          rw [if_neg (Nat.not_lt.2 hle)] at h
          by_cases hz : most = 0
          · -- No copy of the body is made, so nothing is known or needed of it.
            subst most
            obtain rfl := Nat.le_zero.1 hle
            have hl := ((Ways.single g).addExit.perm (.swap _ _ _)).close
            rw [language_repeated_zero, ← zero_add (1 : Language Char)]
            exact hl
          · rw [if_neg hz] at h
            have hc := (ways_chain (ih h) least (Ways.single g)).addExit.perm (.swap _ _ _)
            rw [one_mul, ← copiesBelow_self p.language least] at hc
            have hl := (ways_chainOut (ih h) (most - least) le_rfl hc).close
            rw [Nat.add_sub_cancel' hle, copiesBelow_succ _ hle, ← language_repeated_some] at hl
            exact hl

end Pattern

end Munch
