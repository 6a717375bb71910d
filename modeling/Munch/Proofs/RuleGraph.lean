import Munch.Proofs.Thompson

namespace Munch.Nfa

open Nfa.Graph

/-- The states of `G` from `lo` on are the parts of the rules one after the other. The exits accept
the numbers from `i` on. -/
inductive Hung (G : Graph) : Nat → Nat → List Rule → List Fragment → Prop
  | nil (i : Nat) : Hung G G.size i [] []
  | cons {g g₁ : Graph} {i : Nat} {rule : Rule} {rules : List Rule} {f : Fragment}
      {fs : List Fragment} (hw : Ways g g₁ f.entry [(f.exit, rule.pattern.language)])
      (hk : Keeps g g₁ G [f.exit]) (hx : G[f.exit]? = some { accept := some (.ofNat i) })
      (h : Hung G g₁.size (i + 1) rules fs) : Hung G g.size i (rule :: rules) (f :: fs)

def hang (i : Nat) (rule : Rule) (g : Graph) : Graph :=
  ((rule.pattern.grow g).1.link 0 (rule.pattern.grow g).2.entry).modify (rule.pattern.grow g).2.exit
    fun s => { s with accept := some (.ofNat i) }

theorem growRules_cons (rule : Rule) (rules : List Rule) (i : Nat) (g : Graph) :
    growRules (rule :: rules) i g = growRules rules (i + 1) (hang i rule g) := rfl

theorem size_hang (i : Nat) (rule : Rule) (g : Graph) :
    (hang i rule g).size = (rule.pattern.grow g).1.size := by
  rw [hang, Array.size_modify, size_link]

theorem getElem?_hang (i : Nat) (rule : Rule) (g : Graph) {q : Nat} (hq : 0 < q)
    (hx : q ≠ (rule.pattern.grow g).2.exit) :
    (hang i rule g)[q]? = (rule.pattern.grow g).1[q]? := by
  rw [hang, Array.getElem?_modify, if_neg (Ne.symm hx), getElem?_link_of_ne _ _ (Nat.ne_of_gt hq)]

theorem hung_growRules {rules : List Rule} (h : ∀ rule ∈ rules, rule.pattern.flaw? = none)
    (i : Nat) {g : Graph} {s : State} (hs : g[0]? = some s) :
    ∃ fs, Hung (growRules rules i g) g.size i rules fs ∧
      (∀ q, 0 < q → q < g.size → (growRules rules i g)[q]? = g[q]?) ∧
      (growRules rules i g)[0]? = some { s with epsilon := s.epsilon ++ fs.map (·.entry) } := by
  induction rules generalizing i g s with
  | nil => exact ⟨[], .nil i, fun _ _ _ => rfl, by rw [growRules, hs]; simp⟩
  | cons rule rules ih =>
      have hw := Pattern.ways_grow (h rule List.mem_cons_self) g
      have hpos : 0 < g.size := (Array.getElem?_eq_some_iff.1 hs).1
      have hxg := hw.shape.exit_ge _ List.mem_cons_self
      have hxg₁ := hw.shape.exit_lt List.mem_cons_self
      have hsize := hw.shape.size_le
      have hroot : (hang i rule g)[0]? =
          some { s with epsilon := s.epsilon ++ [(rule.pattern.grow g).2.entry] } := by
        rw [hang, Array.getElem?_modify, if_neg (by dsimp only at hxg; omega), link,
          Array.getElem?_modify, if_pos rfl, hw.shape.frame 0 hpos, hs]
        rfl
      obtain ⟨fs, hfs, hframe, hzero⟩ :=
        ih (fun r hr => h r (List.mem_cons_of_mem rule hr)) (i + 1) hroot
      rw [size_hang] at hfs hframe
      refine ⟨(rule.pattern.grow g).2 :: fs, .cons hw ?_ ?_ hfs, ?_, ?_⟩
      · intro q hq hqg hqx
        rw [growRules_cons, hframe q (by omega) hqg, getElem?_hang i rule g (by omega)]
        exact List.mem_singleton.not.1 hqx
      · have hbare := hw.shape.bare _ List.mem_cons_self
        dsimp only at hxg hxg₁ hbare
        rw [growRules_cons, hframe _ (by omega) hxg₁, hang, Array.getElem?_modify, if_pos rfl,
          getElem?_link_of_ne _ _ (by omega), hbare]
        rfl
      · intro q hq hqg
        dsimp only at hxg
        rw [growRules_cons, hframe q hq (by omega), getElem?_hang i rule g hq (by omega),
          hw.shape.frame q hqg]
      · rw [growRules_cons, hzero]
        simp

namespace Hung

variable {G : Graph} {lo i : Nat} {rules : List Rule} {fs : List Fragment}

theorem le_size (h : Hung G lo i rules fs) : lo ≤ G.size := by
  induction h with
  | nil i => exact le_rfl
  | cons hw _ _ _ ih => exact hw.shape.size_le.trans ih

theorem length_eq (h : Hung G lo i rules fs) : fs.length = rules.length := by
  induction h with
  | nil i => rfl
  | cons _ _ _ _ ih => rw [List.length_cons, List.length_cons, ih]

theorem part (h : Hung G lo i rules fs) {k : Nat} {rule : Rule} {f : Fragment}
    (hr : rules[k]? = some rule) (hf : fs[k]? = some f) :
    G[f.exit]? = some { accept := some (.ofNat (i + k)) } ∧
      ∃ g g₁ : Graph, lo ≤ g.size ∧ g₁.size ≤ G.size ∧
        Ways g g₁ f.entry [(f.exit, rule.pattern.language)] ∧ Keeps g g₁ G [f.exit] := by
  induction h generalizing k with
  | nil i => simp at hr
  | @cons g g₁ i _ _ _ _ hw hk hx h ih =>
      cases k with
      | zero =>
          cases hr
          cases hf
          exact ⟨hx, g, g₁, le_rfl, h.le_size, hw, hk⟩
      | succ k =>
          obtain ⟨htag, g', g'', hlo, hrest⟩ := ih hr hf
          refine ⟨?_, g', g'', hw.shape.size_le.trans hlo, hrest⟩
          rw [htag, Nat.add_right_comm, Nat.add_assoc]

theorem within (h : Hung G lo i rules fs) {q : Nat} {s : State} (hq : lo ≤ q)
    (hs : G[q]? = some s) :
    (∀ t ∈ s.epsilon, lo ≤ t ∧ t < G.size) ∧ ∀ e ∈ s.edges, lo ≤ e.2 ∧ e.2 < G.size := by
  induction h with
  | nil i =>
      have := (Array.getElem?_eq_some_iff.1 hs).1
      omega
  | @cons g g₁ i _ _ f _ hw hk hx h ih =>
      have hsize := hw.shape.size_le
      by_cases hqg : q < g₁.size
      · by_cases hqx : q = f.exit
        · subst q
          rw [hx] at hs
          cases hs
          simp
        · rw [hk q hq hqg (List.mem_singleton.not.2 hqx)] at hs
          exact ((hw.shape.within q s hq hs).mono le_rfl h.le_size).2
      · obtain ⟨he, hd⟩ := ih (Nat.not_lt.1 hqg)
        refine ⟨fun t ht => ?_, fun e hmem => ?_⟩
        · have := he t ht
          omega
        · have := hd e hmem
          omega

theorem live (h : Hung G lo i rules fs) {q : Nat} (hq : lo ≤ q) (hlt : q < G.size) :
    ∃ x t, G[x]? = some { accept := some t } ∧ ∃ w, w ∈ G.words q x := by
  induction h with
  | nil i => omega
  | @cons g g₁ i _ _ f _ hw hk hx h ih =>
      by_cases hqg : q < g₁.size
      · obtain ⟨x, hmem, hwq⟩ := hw.live G hk q hq hqg
        obtain rfl := List.mem_singleton.1 hmem
        exact ⟨f.exit, _, hx, hwq⟩
      · exact ih (Nat.not_lt.1 hqg)

end Hung

theorem outside_of_accept {g g₁ G : Graph} {entry z : Nat} {exits : List Nat} {s : State}
    (h : Shape g g₁ entry exits) (hk : Keeps g g₁ G exits) (hz : G[z]? = some s)
    (hs : s.accept ≠ none) : Outside g g₁ exits z := by
  by_contra hn
  simp only [Outside, not_or, Nat.not_lt, Nat.not_le] at hn
  obtain ⟨hge, hlt, hx⟩ := hn
  rw [hk z hge hlt hx] at hz
  exact hs (h.within z s hge hz).1

/-- From the entry of a part every way to an accepting state ends at the exit. -/
theorem mem_language_of_accept {g g₁ G : Graph} {f : Fragment} {L : Language Char} {s t : State}
    {z : Nat} {w : List Char} (hw : Ways g g₁ f.entry [(f.exit, L)]) (hk : Keeps g g₁ G [f.exit])
    (hx : G[f.exit]? = some s) (he : s.epsilon = []) (hd : s.edges = [])
    (hz : G[z]? = some t) (ht : t.accept ≠ none) (h : w ∈ G.words f.entry z) :
    w ∈ L ∧ z = f.exit := by
  obtain ⟨n, hn⟩ := h
  have hsound := hw.sound G hk z (outside_of_accept hw.shape hk hz ht) n hn
  simp only [List.map_cons, List.map_nil, List.sum_cons, List.sum_nil, add_zero] at hsound
  obtain ⟨u, hu, v, hv, rfl⟩ := Language.mem_mul.1 hsound
  obtain ⟨rfl, hxz⟩ := Walk.eq_of_bare hv hx he hd
  rw [List.append_nil]
  exact ⟨hu, hxz.symm⟩

section OfRules

variable {rules : List Rule}

theorem hung_ofRules (h : ∀ rule ∈ rules, rule.pattern.flaw? = none) :
    ∃ fs, Hung (ofRules rules).states 1 0 rules fs ∧
      (ofRules rules).states[0]? = some (join (fs.map (·.entry))) := by
  obtain ⟨fs, hfs, -, hroot⟩ := hung_growRules h 0 (g := #[{}]) (s := {}) rfl
  exact ⟨fs, hfs, hroot⟩

theorem accept_ofRules_iff (h : ∀ rule ∈ rules, rule.pattern.flaw? = none) (w : List Char)
    (t : UInt32) :
    (∃ q s, w ∈ words (ofRules rules).states 0 q ∧ (ofRules rules).states[q]? = some s ∧
        s.accept = some t) ↔
      ∃ k rule, rules[k]? = some rule ∧ w ∈ rule.pattern.language ∧ t = .ofNat k := by
  obtain ⟨fs, hfs, hroot⟩ := hung_ofRules h
  constructor
  · rintro ⟨q, s, ⟨n, hn⟩, hq, hs⟩
    have hne : 0 ≠ q := by
      rintro rfl
      rw [hroot] at hq
      cases hq
      simp [join] at hs
    rcases Walk.step_cases hn hroot hne with ⟨r, hr, hwr⟩ | ⟨c, r, v, hr, -⟩
    · obtain ⟨f, hf, rfl⟩ := List.mem_map.1 hr
      obtain ⟨k, hk⟩ := List.mem_iff_getElem?.1 hf
      have hlt : k < rules.length := hfs.length_eq ▸ (List.getElem?_eq_some_iff.1 hk).1
      obtain ⟨hx, g, g₁, -, -, hways, hkeep⟩ := hfs.part (List.getElem?_eq_getElem hlt) hk
      obtain ⟨hmem, rfl⟩ := mem_language_of_accept hways hkeep hx rfl rfl hq (by simp [hs])
        ⟨_, hwr⟩
      refine ⟨k, rules[k], List.getElem?_eq_getElem hlt, hmem, ?_⟩
      rw [hx] at hq
      cases hq
      rw [Nat.zero_add] at hs
      exact (Option.some.inj hs).symm
    · simp [join] at hr
  · rintro ⟨k, rule, hr, hmem, rfl⟩
    have hlt : k < fs.length := hfs.length_eq ▸ (List.getElem?_eq_some_iff.1 hr).1
    obtain ⟨hx, g, g₁, -, -, hways, hkeep⟩ := hfs.part hr (List.getElem?_eq_getElem hlt)
    rw [Nat.zero_add] at hx
    refine ⟨_, _, ?_, hx, rfl⟩
    have hentry : (fs[k]).entry ∈ fs.map (·.entry) := List.mem_map.2 ⟨_, List.getElem_mem hlt, rfl⟩
    exact words_le_of_join hroot hentry _
      (hways.complete _ hkeep _ (List.mem_singleton_self _) hmem)

theorem moves_ofRules (h : ∀ rule ∈ rules, rule.pattern.flaw? = none) {q : Nat} {s : State}
    (hs : (ofRules rules).states[q]? = some s) :
    (∀ t ∈ s.epsilon, 1 ≤ t ∧ t < (ofRules rules).states.size) ∧
      ∀ e ∈ s.edges, 1 ≤ e.2 ∧ e.2 < (ofRules rules).states.size := by
  obtain ⟨fs, hfs, hroot⟩ := hung_ofRules h
  by_cases hq : q = 0
  · subst q
    rw [hroot] at hs
    cases hs
    refine ⟨fun t ht => ?_, fun e he => by simp [join] at he⟩
    obtain ⟨f, hf, rfl⟩ := List.mem_map.1 ht
    obtain ⟨k, hk⟩ := List.mem_iff_getElem?.1 hf
    have hlt : k < rules.length := hfs.length_eq ▸ (List.getElem?_eq_some_iff.1 hk).1
    obtain ⟨-, g, g₁, hlo, hhi, hways, -⟩ := hfs.part (List.getElem?_eq_getElem hlt) hk
    exact ⟨hlo.trans hways.shape.entry_ge, hways.shape.entry_lt.trans_le hhi⟩
  · exact hfs.within (by omega) hs

theorem live_ofRules (h : ∀ rule ∈ rules, rule.pattern.flaw? = none) {q : Nat} (hq : 1 ≤ q)
    (hlt : q < (ofRules rules).states.size) :
    ∃ x t, (ofRules rules).states[x]? = some { accept := some t } ∧
      ∃ w, w ∈ words (ofRules rules).states q x := by
  obtain ⟨fs, hfs, -⟩ := hung_ofRules h
  exact hfs.live hq hlt

end OfRules

end Munch.Nfa
