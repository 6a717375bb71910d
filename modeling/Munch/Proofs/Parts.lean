import Munch.Proofs.Blocks

namespace Munch

open Nfa Nfa.Graph

namespace Nfa

variable (grow : Graph → Graph × Fragment)

theorem chain_add (k n : Nat) (g : Graph) (last : Nat) :
    chain grow (k + n) g last =
      chain grow n (chain grow k g last).1 (chain grow k g last).2 := by
  induction k generalizing g last with
  | zero => rw [Nat.zero_add, chain]
  | succ k ih =>
      rw [Nat.add_right_comm, chain, chain]
      exact ih _ _

theorem chainOut_add (out k n : Nat) (g : Graph) (last : Nat) :
    chainOut grow out (k + n) g last =
      chainOut grow out n (chainOut grow out k g last).1 (chainOut grow out k g last).2 := by
  induction k generalizing g last with
  | zero => rw [Nat.zero_add, chainOut]
  | succ k ih =>
      rw [Nat.add_right_comm, chainOut, chainOut]
      exact ih _ _

end Nfa

namespace Pattern

section Shapes

variable {p : Pattern} (h : p.flaw? = none)

include h

theorem shape_grow (g : Graph) :
    Shape g (p.grow g).1 (p.grow g).2.entry [(p.grow g).2.exit] := (ways_grow h g).shape

theorem shape_copies (k : Nat) (g : Graph) :
    Shape g (p.copies k g).1 g.size [(p.copies k g).2] :=
  (ways_chain (ways_grow h) k (Ways.single g)).shape

theorem shape_moreCopies (least k : Nat) (g : Graph) :
    Shape g (p.moreCopies least k g).1 g.size
      [(p.moreCopies least k g).2, (p.copies least g).1.size] := by
  have hc := (ways_chain (ways_grow h) least (Ways.single g)).addExit.perm (.swap _ _ _)
  rw [one_mul, ← copiesBelow_self p.language least] at hc
  exact (ways_chainOut (ways_grow h) k le_rfl hc).shape

end Shapes

/-- Growing the first pattern on the first graph makes a part for the second pattern on the second
graph. -/
inductive Part : Pattern → Graph → Pattern → Graph → Prop
  | concatLeft (p q : Pattern) (g : Graph) : Part (concat p q) g p g
  | concatRight (p q : Pattern) (g : Graph) : Part (concat p q) g q (p.grow g).1
  | alternateLeft (p q : Pattern) (g : Graph) : Part (alternate p q) g p g
  | alternateRight (p q : Pattern) (g : Graph) : Part (alternate p q) g q (p.grow g).1
  | copy (p : Pattern) (g : Graph) (most : Option Nat) {least k : Nat} (hk : k < least) :
      Part (repeated p least most) g p (p.copies k g).1
  | circle (p : Pattern) (g : Graph) (least : Nat) :
      Part (repeated p least none) g p ((p.copies least g).1.add {})
  | optional (p : Pattern) (g : Graph) {least most k : Nat} (hk : k < most - least) :
      Part (repeated p least (some most)) g p (p.moreCopies least k g).1

namespace Part

variable {p p' : Pattern} {g g' : Graph}

theorem flaw?_eq_none (h : Part p g p' g') (hp : p.flaw? = none) : p'.flaw? = none := by
  cases h with
  | concatLeft | alternateLeft => exact (Option.or_eq_none_iff.1 hp).1
  | concatRight | alternateRight => exact (Option.or_eq_none_iff.1 hp).2
  | copy _ _ most hk =>
      cases most with
      | none => exact hp
      | some most =>
          obtain ⟨hle, hbody⟩ := flaw?_body hp
          exact hbody (by omega)
  | circle => exact hp
  | optional _ _ hk =>
      obtain ⟨-, hbody⟩ := flaw?_body hp
      exact hbody (by omega)

/-- Before a part the whole has made nothing, or else a shape of its own. -/
theorem before (h : Part p g p' g') (hp : p.flaw? = none) :
    g' = g ∨ ∃ entry exits, Shape g g' entry exits := by
  have hp' := h.flaw?_eq_none hp
  cases h with
  | concatLeft | alternateLeft => exact .inl rfl
  | concatRight | alternateRight =>
      exact .inr ⟨_, _, shape_grow (Option.or_eq_none_iff.1 hp).1 g⟩
  | copy => exact .inr ⟨_, _, shape_copies hp' _ g⟩
  | circle => exact .inr ⟨_, _, (shape_copies hp' _ g).addExit⟩
  | optional => exact .inr ⟨_, _, shape_moreCopies hp' _ _ g⟩

theorem base_le (h : Part p g p' g') (hp : p.flaw? = none) : g.size ≤ g'.size := by
  rcases h.before hp with rfl | ⟨entry, exits, hshape⟩
  · exact le_rfl
  · exact hshape.size_le

theorem closed (h : Part p g p' g') (hp : p.flaw? = none) (hc : g.Closed) : g'.Closed := by
  rcases h.before hp with rfl | ⟨entry, exits, hshape⟩
  · exact hc
  · exact hshape.closed hc

end Part

end Pattern

namespace Nfa

open Pattern

theorem Kept.repeated {p : Pattern} (hp : p.flaw? = none) {base g g₀ : Graph} {f : Fragment}
    {least : Nat} (h : Kept base g f (p.copies least g₀).1)
    (hl : Outside base g [f.exit] (p.copies least g₀).2) (most : Option Nat) :
    Kept base g f ((Pattern.repeated p least most).grow g₀).1 := by
  have hout := h.outside le_rfl
  cases most with
  | none =>
      have hr := shape_grow hp ((p.copies least g₀).1.add {})
      have hadd := h.addBare
      have hentry := hadd.outside hr.entry_ge
      have hexit := hadd.outside (hr.exit_ge _ (List.mem_singleton_self _))
      rw [grow_repeated_none]
      dsimp only
      exact ((((hadd.grow hr).link hl (hentry _)).link hl (hout _)).link (hexit _)
        (hentry _)).link (hexit _) (hout _)
  | some most =>
      obtain ⟨hmore, hlast⟩ := h.addBare.chainOut (shape_grow hp) (most - least) hl (hout _)
      rw [← moreCopies] at hmore hlast
      rw [grow_repeated_some]
      dsimp only
      exact hmore.link hlast (hout _)

end Nfa

namespace Pattern

theorem fragment_repeated (p : Pattern) (least : Nat) (most : Option Nat) (g : Graph) :
    ((repeated p least most).grow g).2 = ⟨g.size, (p.copies least g).1.size⟩ := by
  cases most <;> rfl

section Kept

variable {p q : Pattern} {g : Graph}

theorem kept_self (hp : p.flaw? = none) (hc : g.Closed) :
    Kept g (p.grow g).1 (p.grow g).2 (p.grow g).1 := .refl (shape_grow hp g) hc

theorem outside_exit (p : Pattern) (g : Graph) :
    Outside g (p.grow g).1 [(p.grow g).2.exit] (p.grow g).2.exit :=
  .inr (.inr (List.mem_singleton_self _))

theorem outside_entry (p : Pattern) (g : Graph) :
    Outside g (p.grow g).1 [(p.grow g).2.entry] (p.grow g).2.entry :=
  .inr (.inr (List.mem_singleton_self _))

theorem kept_concatLeft (hp : p.flaw? = none) (hq : q.flaw? = none) (hc : g.Closed) :
    Kept g (p.grow g).1 (p.grow g).2 ((concat p q).grow g).1 := by
  have hright := shape_grow hq (p.grow g).1
  have hself := kept_self hp hc
  exact (hself.grow hright).link (outside_exit p g) (hself.outside hright.entry_ge _)

theorem kept_concatRight (hp : p.flaw? = none) (hq : q.flaw? = none) (hc : g.Closed) :
    Kept (p.grow g).1 (q.grow (p.grow g).1).1 (q.grow (p.grow g).1).2
      ((concat p q).grow g).1 := by
  have hleft := shape_grow hp g
  have hexit := hleft.exit_lt (List.mem_singleton_self _)
  exact (kept_self hq (hleft.closed hc)).link (.inl hexit) (outside_entry q _)

theorem kept_alternateLeft (hp : p.flaw? = none) (hq : q.flaw? = none) (hc : g.Closed) :
    Kept g (p.grow g).1 (p.grow g).2 ((alternate p q).grow g).1 := by
  have hright := shape_grow hq (p.grow g).1
  have hself := kept_self hp hc
  have hboth := hself.grow hright
  have hfork := hboth.add (s := join [(p.grow g).2.entry, (q.grow (p.grow g).1).2.entry]) <| by
    intro t ht
    rcases List.mem_pair.1 (State.leads_join ht) with rfl | rfl
    · exact outside_entry p g
    · exact hself.outside hright.entry_ge _
  have hend := hboth.outside (Nat.le_succ _) [(p.grow g).2.entry]
  have hexit := hself.outside (hright.exit_ge _ (List.mem_singleton_self _)) [(p.grow g).2.exit]
  exact (hfork.addBare.link (outside_exit p g) hend).link hexit hend

theorem kept_alternateRight (hp : p.flaw? = none) (hq : q.flaw? = none) (hc : g.Closed) :
    Kept (p.grow g).1 (q.grow (p.grow g).1).1 (q.grow (p.grow g).1).2
      ((alternate p q).grow g).1 := by
  have hleft := shape_grow hp g
  have hself := kept_self hq (hleft.closed hc)
  have hfork := hself.add (s := join [(p.grow g).2.entry, (q.grow (p.grow g).1).2.entry]) <| by
    intro t ht
    rcases List.mem_pair.1 (State.leads_join ht) with rfl | rfl
    · exact .inl hleft.entry_lt
    · exact outside_entry q _
  have hend := hself.outside (Nat.le_succ _) [(q.grow (p.grow g).1).2.entry]
  have hexit := hleft.exit_lt (List.mem_singleton_self _)
  exact (hfork.addBare.link (.inl hexit) hend).link (outside_exit q _) hend

theorem copies_add (p : Pattern) (k n : Nat) (g : Graph) :
    p.copies (k + (n + 1)) g =
      let c := p.copies k g
      let r := p.grow c.1
      chain p.grow n (r.1.link c.2 r.2.entry) r.2.exit := by
  rw [copies, chain_add]
  rfl

theorem moreCopies_add (p : Pattern) (least k n : Nat) (g : Graph) :
    p.moreCopies least (k + (n + 1)) g =
      let c := p.moreCopies least k g
      let r := p.grow c.1
      let out := (p.copies least g).1.size
      chainOut p.grow out n ((r.1.link c.2 r.2.entry).link c.2 out) r.2.exit := by
  rw [moreCopies, chainOut_add]
  rfl

theorem kept_copies (hp : p.flaw? = none) (hc : g.Closed) {least k : Nat} (hk : k < least) :
    Kept (p.copies k g).1 (p.grow (p.copies k g).1).1 (p.grow (p.copies k g).1).2
        (p.copies least g).1 ∧
      Outside (p.copies k g).1 (p.grow (p.copies k g).1).1
        [(p.grow (p.copies k g).1).2.exit] (p.copies least g).2 := by
  have hshape := shape_copies hp k g
  have hlast := hshape.exit_lt (List.mem_singleton_self _)
  have hlink := (kept_self hp (hshape.closed hc)).link (.inl hlast) (outside_entry p _)
  -- The `n` copies behind this one are linked to its exit.
  obtain ⟨n, hn⟩ := Nat.exists_eq_add_of_le hk
  obtain rfl : least = k + (n + 1) := by omega
  rw [copies_add]
  exact hlink.chain (shape_grow hp) n (outside_exit p _)

theorem kept_circle (hp : p.flaw? = none) (hc : g.Closed) (least : Nat) :
    Kept ((p.copies least g).1.add {}) (p.grow ((p.copies least g).1.add {})).1
      (p.grow ((p.copies least g).1.add {})).2 ((repeated p least none).grow g).1 := by
  have hshape := (shape_copies hp least g).addExit
  have hself := kept_self hp (hshape.closed hc)
  have hlast := hshape.exit_lt (List.mem_cons_of_mem _ (List.mem_singleton_self _))
  have hend := hshape.exit_lt List.mem_cons_self
  rw [grow_repeated_none]
  dsimp only
  exact (((hself.link (.inl hlast) (outside_entry p _)).link (.inl hlast) (.inl hend)).link
    (outside_exit p _) (outside_entry p _)).link (outside_exit p _) (.inl hend)

theorem kept_optional (hp : p.flaw? = none) (hc : g.Closed) {least most k : Nat}
    (hk : k < most - least) :
    Kept (p.moreCopies least k g).1 (p.grow (p.moreCopies least k g).1).1
      (p.grow (p.moreCopies least k g).1).2 ((repeated p least (some most)).grow g).1 := by
  have hshape := shape_moreCopies hp least k g
  have hself := kept_self hp (hshape.closed hc)
  have hlast := hshape.exit_lt List.mem_cons_self
  have hend := hshape.exit_lt (List.mem_cons_of_mem _ (List.mem_singleton_self _))
  have hlink := (hself.link (.inl hlast) (outside_entry p _)).link (.inl hlast) (.inl hend)
  obtain ⟨n, hn⟩ := Nat.exists_eq_add_of_le hk
  obtain ⟨hmore, hl⟩ := hlink.chainOut (shape_grow hp) n (outside_exit p _) (.inl hend)
  rw [← moreCopies_add] at hmore hl
  rw [grow_repeated_some, show most - least = k + (n + 1) by omega]
  exact hmore.link hl (.inl hend)

end Kept

namespace Part

variable {p p' : Pattern} {g g' : Graph}

theorem kept (h : Part p g p' g') (hp : p.flaw? = none) (hc : g.Closed) :
    Kept g' (p'.grow g').1 (p'.grow g').2 (p.grow g).1 := by
  have hp' := h.flaw?_eq_none hp
  cases h with
  | concatLeft => exact kept_concatLeft hp' (Option.or_eq_none_iff.1 hp).2 hc
  | concatRight => exact kept_concatRight (Option.or_eq_none_iff.1 hp).1 hp' hc
  | alternateLeft => exact kept_alternateLeft hp' (Option.or_eq_none_iff.1 hp).2 hc
  | alternateRight => exact kept_alternateRight (Option.or_eq_none_iff.1 hp).1 hp' hc
  | copy _ _ most hk =>
      obtain ⟨hcopies, hlast⟩ := kept_copies hp' hc hk
      exact hcopies.repeated hp' hlast most
  | circle _ _ least => exact kept_circle hp' hc least
  | optional _ _ hk => exact kept_optional hp' hc hk

theorem outside_exit (h : Part p g p' g') (hp : p.flaw? = none) (hc : g.Closed) :
    Outside g' (p'.grow g').1 [(p'.grow g').2.exit] (p.grow g).2.exit := by
  have hp' := h.flaw?_eq_none hp
  cases h with
  | concatLeft p q g =>
      have hright := shape_grow (Option.or_eq_none_iff.1 hp).2 (p'.grow g).1
      exact .inr (.inl (hright.exit_ge _ (List.mem_singleton_self _)))
  | concatRight => exact Pattern.outside_exit p' _
  | alternateLeft p q g =>
      have hright := shape_grow (Option.or_eq_none_iff.1 hp).2 (p'.grow g).1
      exact .inr (.inl (hright.size_le.trans (Nat.le_succ _)))
  | alternateRight => exact .inr (.inl (Nat.le_succ _))
  | copy _ _ most hk =>
      rw [fragment_repeated]
      exact .inr (.inl (kept_copies hp' hc hk).1.size_le)
  | circle =>
      rw [fragment_repeated]
      exact .inl ((shape_copies hp' _ g).addExit.exit_lt List.mem_cons_self)
  | optional =>
      rw [fragment_repeated]
      exact .inl ((shape_moreCopies hp' _ _ g).exit_lt
        (List.mem_cons_of_mem _ (List.mem_singleton_self _)))

theorem outside_entry (h : Part p g p' g') (hp : p.flaw? = none) :
    Outside g' (p'.grow g').1 [(p'.grow g').2.entry] (p.grow g).2.entry := by
  have hp' := h.flaw?_eq_none hp
  cases h with
  | concatLeft => exact Pattern.outside_entry p' g
  | concatRight => exact .inl (shape_grow (Option.or_eq_none_iff.1 hp).1 g).entry_lt
  | alternateLeft p q g =>
      have hright := shape_grow (Option.or_eq_none_iff.1 hp).2 (p'.grow g).1
      exact .inr (.inl hright.size_le)
  | alternateRight => exact .inr (.inl le_rfl)
  | copy =>
      rw [fragment_repeated]
      exact .inl (shape_copies hp' _ g).entry_lt
  | circle =>
      rw [fragment_repeated]
      exact .inl (shape_copies hp' _ g).addExit.entry_lt
  | optional =>
      rw [fragment_repeated]
      exact .inl (shape_moreCopies hp' _ _ g).entry_lt

end Part

section Cover

variable {p : Pattern} {g : Graph} {q : Nat}

theorem size_copies_succ (p : Pattern) (k : Nat) (g : Graph) :
    (p.copies (k + 1) g).1.size = (p.grow (p.copies k g).1).1.size := by
  rw [show k + 1 = k + (0 + 1) from rfl, copies_add]
  exact size_link _ _ _

theorem size_moreCopies_succ (p : Pattern) (least k : Nat) (g : Graph) :
    (p.moreCopies least (k + 1) g).1.size = (p.grow (p.moreCopies least k g).1).1.size := by
  rw [show k + 1 = k + (0 + 1) from rfl, moreCopies_add]
  exact (size_link _ _ _).trans (size_link _ _ _)

/-- Where the graphs of a row are made one from the other, a new state is made in one step. -/
theorem exists_step (graphs : Nat → Graph)
    (hstep : ∀ k, (graphs (k + 1)).size = (p.grow (graphs k)).1.size) {k : Nat}
    (hq : (graphs 0).size ≤ q) (hlt : q < (graphs k).size) :
    ∃ j < k, (graphs j).size ≤ q ∧ q < (p.grow (graphs j)).1.size := by
  induction k with
  | zero => omega
  | succ k ih =>
      rcases Nat.lt_or_ge q (graphs k).size with hbefore | hge
      · obtain ⟨j, hj, hin⟩ := ih hbefore
        exact ⟨j, Nat.lt_succ_of_lt hj, hin⟩
      · exact ⟨k, Nat.lt_succ_self k, hge, hlt.trans_eq (hstep k)⟩

/-- A new state is the entry or the exit of the whole, or belongs to a part. -/
theorem exists_part (hq : g.size ≤ q) (hlt : q < (p.grow g).1.size) :
    q = (p.grow g).2.entry ∨ q = (p.grow g).2.exit ∨
      ∃ p' g', Part p g p' g' ∧ g'.size ≤ q ∧ q < (p'.grow g').1.size := by
  cases p with
  | literal | range =>
      have hsize := hlt.trans_eq (Ways.size_bridge g _)
      rcases Nat.eq_or_lt_of_le hq with heq | hgt
      · exact .inl heq.symm
      · exact .inr (.inl (by change q = g.size + 1; omega))
  | concat a b =>
      rw [grow, size_link] at hlt
      rcases Nat.lt_or_ge q (a.grow g).1.size with hleft | hright
      · exact .inr (.inr ⟨a, g, .concatLeft a b g, hq, hleft⟩)
      · exact .inr (.inr ⟨b, _, .concatRight a b g, hright, hlt⟩)
  | alternate a b =>
      rw [grow, size_link, size_link, size_add, size_add] at hlt
      rcases Nat.lt_or_ge q (b.grow (a.grow g).1).1.size with hin | hnew
      · rcases Nat.lt_or_ge q (a.grow g).1.size with hleft | hright
        · exact .inr (.inr ⟨a, g, .alternateLeft a b g, hq, hleft⟩)
        · exact .inr (.inr ⟨b, _, .alternateRight a b g, hright, hin⟩)
      · rcases Nat.eq_or_lt_of_le hnew with heq | hgt
        · exact .inl heq.symm
        · exact .inr (.inl (Nat.le_antisymm (Nat.le_of_lt_succ hlt) hgt))
  | repeated body least most =>
      rw [fragment_repeated]
      rcases Nat.eq_or_lt_of_le hq with heq | hentry
      · exact .inl heq.symm
      rcases Nat.lt_trichotomy q (body.copies least g).1.size with hcopy | hexit | hmore
      · have hfirst := (size_add g {}).trans_le hentry
        obtain ⟨k, hk, hin⟩ := exists_step (fun k => (body.copies k g).1)
          (size_copies_succ body · g) hfirst hcopy
        exact .inr (.inr ⟨body, _, .copy body g most hk, hin⟩)
      · exact .inr (.inl hexit)
      · cases most with
        | none =>
            rw [grow_repeated_none] at hlt
            simp only [size_link] at hlt
            refine .inr (.inr ⟨body, _, .circle body g least, ?_, hlt⟩)
            rw [size_add]
            exact hmore
        | some most =>
            rw [grow_repeated_some] at hlt
            simp only [size_link] at hlt
            have hfirst := (size_add (body.copies least g).1 {}).trans_le hmore
            obtain ⟨k, hk, hin⟩ := exists_step (fun k => (body.moreCopies least k g).1)
              (size_moreCopies_succ body least · g) hfirst hlt
            exact .inr (.inr ⟨body, _, .optional body g hk, hin⟩)

theorem Part.sizeOf_lt {p' : Pattern} {g' : Graph} (h : Part p g p' g') :
    sizeOf p' < sizeOf p := by
  cases h <;> simp only [concat.sizeOf_spec, alternate.sizeOf_spec, repeated.sizeOf_spec] <;> omega

end Cover

end Pattern

end Munch
