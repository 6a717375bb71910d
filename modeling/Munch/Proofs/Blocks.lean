import Munch.Proofs.GraphSize

namespace Munch.Nfa

open Nfa.Graph

def State.Leads (s : State) (t : Nat) : Prop := t ∈ s.epsilon ∨ ∃ c, (c, t) ∈ s.edges

def Graph.Leads (g : Graph) (q t : Nat) : Prop := ∃ s, g[q]? = some s ∧ s.Leads t

def Graph.Closed (g : Graph) : Prop := ∀ q t, g.Leads q t → t < g.size

section Leads

variable {base g : Graph} {q t : Nat}

theorem Graph.Leads.lt (h : g.Leads q t) : q < g.size := by
  obtain ⟨s, hs, -⟩ := h
  exact (Array.getElem?_eq_some_iff.1 hs).1

theorem Graph.Leads.of_eq {g' : Graph} (h : g.Leads q t) (heq : g'[q]? = g[q]?) :
    g'.Leads q t := by
  obtain ⟨s, hs, ht⟩ := h
  exact ⟨s, heq.trans hs, ht⟩

theorem State.not_leads_bare : ¬ State.Leads {} t := by
  rintro (h | ⟨c, h⟩)
  · exact List.not_mem_nil h
  · exact List.not_mem_nil h

theorem State.leads_join {targets : List Nat} (h : (join targets).Leads t) : t ∈ targets :=
  h.resolve_right fun ⟨_, hc⟩ => List.not_mem_nil hc

theorem State.Within.leads {lo hi : Nat} {s : State} (h : s.Within lo hi) (ht : s.Leads t) :
    lo ≤ t ∧ t < hi := by
  rcases ht with ht | ⟨c, ht⟩
  · exact h.2.1 t ht
  · exact h.2.2 (c, t) ht

theorem leads_add {s : State} (h : (g.add s).Leads q t) : g.Leads q t ∨ s.Leads t := by
  obtain ⟨r, hr, ht⟩ := h
  rw [getElem?_add] at hr
  split at hr
  · cases hr
    exact .inr ht
  · exact .inl ⟨r, hr, ht⟩

theorem leads_link {a b : Nat} (h : (g.link a b).Leads q t) : g.Leads q t ∨ t = b := by
  obtain ⟨r, hr, ht⟩ := h
  rw [Graph.link, Array.getElem?_modify] at hr
  split at hr
  · obtain ⟨s, hs, rfl⟩ := Option.map_eq_some_iff.1 hr
    rcases ht with ht | ht
    · rcases List.mem_append.1 ht with ht | ht
      · exact .inl ⟨s, hs, .inl ht⟩
      · exact .inr (List.mem_singleton.1 ht)
    · exact .inl ⟨s, hs, .inr ht⟩
  · exact .inl ⟨r, hr, ht⟩

theorem leads_accept {a : Nat} {k : Option UInt32}
    (h : Graph.Leads (g.modify a fun s => { s with accept := k }) q t) : g.Leads q t := by
  obtain ⟨r, hr, ht⟩ := h
  rw [Array.getElem?_modify] at hr
  split at hr
  · obtain ⟨s, hs, rfl⟩ := Option.map_eq_some_iff.1 hr
    exact ⟨s, hs, ht⟩
  · exact ⟨r, hr, ht⟩

theorem Shape.leads {entry : Nat} {exits : List Nat} (h : Shape base g entry exits)
    (hqt : g.Leads q t) : base.Leads q t ∨ base.size ≤ q ∧ base.size ≤ t ∧ t < g.size := by
  rcases Nat.lt_or_ge q base.size with hlt | hge
  · exact .inl (hqt.of_eq (h.frame q hlt).symm)
  · obtain ⟨s, hs, ht⟩ := hqt
    exact .inr ⟨hge, (h.within q s hge hs).leads ht⟩

theorem Shape.closed {entry : Nat} {exits : List Nat} (h : Shape base g entry exits)
    (hc : base.Closed) : g.Closed := by
  intro q t hqt
  rcases h.leads hqt with hold | ⟨-, -, hlt⟩
  · exact (hc q t hold).trans_le h.size_le
  · exact hlt

end Leads

/-- Of the part that is added to a base only the moves of the exit have changed in `G`, and moves
into the part lead to its entry. -/
structure Kept (base g : Graph) (f : Fragment) (G : Graph) : Prop where
  size_le : g.size ≤ G.size
  keeps : Keeps base g G [f.exit]
  -- The entry takes the place of the exit for targets: they are outside, or the entry.
  enters : ∀ q t, G.Leads q t → Outside base g [f.exit] q → Outside base g [f.entry] t

namespace Kept

variable {base base' g g' G G' : Graph} {f f' : Fragment}

theorem refl (h : Shape base g f.entry [f.exit]) (hc : base.Closed) : Kept base g f g where
  size_le := le_rfl
  keeps _ _ _ _ := rfl
  enters q t hqt hq := by
    rcases h.leads hqt with hold | ⟨hge, -⟩
    · exact .inl (hc q t hold)
    · have hlt := hqt.lt
      have hexit : q ∈ [f.exit] := by
        rcases hq with hq | hq | hq
        · omega
        · omega
        · exact hq
      obtain ⟨s, hs, ht⟩ := hqt
      cases (h.bare q hexit).symm.trans hs
      exact absurd ht State.not_leads_bare

theorem change (h : Kept base g f G) (hsize : G.size ≤ G'.size)
    (hsame : ∀ q < G.size, ¬ Outside base g [f.exit] q → G'[q]? = G[q]?)
    (hleads : ∀ q t, G'.Leads q t → G.Leads q t ∨ Outside base g [f.entry] t) :
    Kept base g f G' where
  size_le := h.size_le.trans hsize
  keeps q hq hqg hqe := by
    refine (hsame q (hqg.trans_le h.size_le) ?_).trans (h.keeps q hq hqg hqe)
    rintro (hq' | hq' | hq')
    · omega
    · omega
    · exact hqe hq'
  enters q t hqt hq := by
    rcases hleads q t hqt with hold | hnew
    · exact h.enters q t hold hq
    · exact hnew

theorem add (h : Kept base g f G) {s : State}
    (hs : ∀ t, s.Leads t → Outside base g [f.entry] t) : Kept base g f (G.add s) := by
  refine h.change ?_ (fun q hq _ => Shape.getElem?_add_of_lt hq) fun q t hqt => ?_
  · rw [size_add]
    exact Nat.le_succ _
  · exact (leads_add hqt).imp_right (hs t)

theorem addBare (h : Kept base g f G) : Kept base g f (G.add {}) :=
  h.add fun _ ht => absurd ht State.not_leads_bare

theorem link (h : Kept base g f G) {a b : Nat} (ha : Outside base g [f.exit] a)
    (hb : Outside base g [f.entry] b) : Kept base g f (G.link a b) := by
  refine h.change (size_link G a b).ge (fun q _ hq => ?_) fun q t hqt => ?_
  · exact getElem?_link_of_ne _ _ fun heq => hq (heq ▸ ha)
  · refine (leads_link hqt).imp_right fun heq => ?_
    rwa [heq]

theorem accept (h : Kept base g f G) {a : Nat} (ha : Outside base g [f.exit] a)
    (k : Option UInt32) : Kept base g f (G.modify a fun s => { s with accept := k }) := by
  refine h.change ?_ (fun q _ hq => ?_) fun q t hqt => .inl (leads_accept hqt)
  · rw [Array.size_modify]
  · rw [Array.getElem?_modify, if_neg]
    exact fun heq => hq (heq ▸ ha)

theorem grow (h : Kept base g f G) {entry : Nat} {exits : List Nat}
    (hs : Shape G G' entry exits) : Kept base g f G' := by
  refine h.change hs.size_le (fun q hq _ => hs.frame q hq) fun q t hqt => ?_
  refine (hs.leads hqt).imp_right fun ⟨_, hge, _⟩ => .inr (.inl ?_)
  exact h.size_le.trans hge

theorem outside (h : Kept base g f G) {q : Nat} (hq : G.size ≤ q) (exits : List Nat) :
    Outside base g exits q := .inr (.inl (h.size_le.trans hq))

section Copies

variable {grow : Graph → Graph × Fragment} {l : Nat}
variable (hgrow : ∀ g, Shape g (grow g).1 (grow g).2.entry [(grow g).2.exit])

include hgrow

theorem chain (k : Nat) (h : Kept base g f G) (hl : Outside base g [f.exit] l) :
    Kept base g f (chain grow k G l).1 ∧ Outside base g [f.exit] (chain grow k G l).2 := by
  induction k generalizing G l with
  | zero => exact ⟨h, hl⟩
  | succ k ih =>
      have hentry := h.outside (hgrow G).entry_ge [f.entry]
      exact ih ((h.grow (hgrow G)).link hl hentry)
        (h.outside ((hgrow G).exit_ge _ (List.mem_singleton_self _)) _)

theorem chainOut {out : Nat} (k : Nat) (h : Kept base g f G) (hl : Outside base g [f.exit] l)
    (hout : Outside base g [f.entry] out) :
    Kept base g f (chainOut grow out k G l).1 ∧
      Outside base g [f.exit] (chainOut grow out k G l).2 := by
  induction k generalizing G l with
  | zero => exact ⟨h, hl⟩
  | succ k ih =>
      have hentry := h.outside (hgrow G).entry_ge [f.entry]
      exact ih (((h.grow (hgrow G)).link hl hentry).link hl hout)
        (h.outside ((hgrow G).exit_ge _ (List.mem_singleton_self _)) _)

end Copies

theorem trans (h' : Kept base' g' f' g) (h : Kept base g f G) (hbase : base.size ≤ base'.size)
    (hexit : Outside base' g' [f'.exit] f.exit) (hentry : Outside base' g' [f'.entry] f.entry) :
    Kept base' g' f' G where
  size_le := h'.size_le.trans h.size_le
  keeps q hq hqg hqe := by
    have hne : q ∉ [f.exit] := by
      intro hmem
      obtain rfl := List.mem_singleton.1 hmem
      rcases hexit with hlt | hge | hmem
      · omega
      · omega
      · exact hqe hmem
    exact (h.keeps q (hbase.trans hq) (hqg.trans_le h'.size_le) hne).trans (h'.keeps q hq hqg hqe)
  enters q t hqt hq := by
    by_cases hin : base.size ≤ q ∧ q < g.size ∧ q ∉ [f.exit]
    · exact h'.enters q t (hqt.of_eq (h.keeps q hin.1 hin.2.1 hin.2.2).symm) hq
    · have hout : Outside base g [f.exit] q := by
        rw [Outside]
        by_contra hnot
        exact hin ⟨by omega, by omega, fun hmem => hnot (.inr (.inr hmem))⟩
      rcases h.enters q t hqt hout with hlt | hge | hmem
      · exact .inl (hlt.trans_le hbase)
      · exact .inr (.inl (h'.size_le.trans hge))
      · rwa [List.mem_singleton.1 hmem]

end Kept

end Munch.Nfa
