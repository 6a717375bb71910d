import Munch.Proofs.Members

namespace Munch

namespace Pattern

def nesting : Pattern → Nat
  | literal _ | range _ _ => 0
  | concat p q | alternate p q => max p.nesting q.nesting + 1
  | repeated p _ _ => p.nesting + 1

/-- All symbols are from the alphabet, all bounds are in order, and counts are small. -/
def Tame (alphabet : Array Char) : Pattern → Prop
  | literal c => c ∈ alphabet
  | range lo hi => lo ∈ alphabet ∧ hi ∈ alphabet ∧ lo ≤ hi
  | concat p q | alternate p q => p.Tame alphabet ∧ q.Tame alphabet
  | repeated p least most =>
    least ≤ 2 ∧ (∀ m ∈ most, least ≤ m ∧ m ≤ least + 2) ∧ p.Tame alphabet

theorem Tame.flaw?_eq_none {alphabet : Array Char} {p : Pattern} (h : p.Tame alphabet) :
    p.flaw? = none := by
  induction p with
  | literal c => rfl
  | range lo hi =>
      obtain ⟨-, -, hle⟩ := h
      exact if_neg (Char.not_lt.2 hle)
  | concat p q ihp ihq | alternate p q ihp ihq =>
      exact Option.or_eq_none_iff.2 ⟨ihp h.1, ihq h.2⟩
  | repeated p least most ih =>
      obtain ⟨-, hmost, hp⟩ := h
      exact flaw?_repeated_eq_none_iff.2 ⟨fun m hm => (hmost m hm).1, fun _ => ih hp⟩

end Pattern

namespace Draw

section Failing

variable {α β : Type} {ok : α → Prop} {draw : Draw α} {next : α → Draw β}

def Fails (draw : Draw α) : Prop := ∀ i, draw i = none

theorem Fails.bind (h : draw.Fails) (next : α → Draw β) : Fails (draw >>= next) := by
  intro i
  change (draw i).bind (fun x => next x.1 x.2) = none
  rw [h i]
  rfl

theorem Gives.bind_fails (h : draw.Gives ok) (hnext : ∀ a, ok a → (next a).Fails) :
    Fails (draw >>= next) := by
  intro i
  obtain ⟨a, j, ha, hok⟩ := h i
  change (draw i).bind (fun x => next x.1 x.2) = none
  rw [ha]
  exact hnext a hok j

end Failing

variable (ws : Words) {alphabet : Array Char}

theorem gives_below {n : Nat} (hn : 0 < n) : (below ws n).Gives (· < n) :=
  gives_scaled (gives_word ws) hn

theorem gives_counts : (counts ws).Gives fun c =>
    c.1 ≤ 2 ∧ ∀ m ∈ c.2, c.1 ≤ m ∧ m ≤ c.1 + 2 := by
  refine (gives_between ws (Nat.zero_le 2)).bind fun least hleast => ?_
  refine (gives_coin ws).bind fun unbounded _ => ?_
  cases unbounded with
  | true => exact gives_pure ⟨hleast.2, fun m hm => absurd hm (Option.not_mem_none m)⟩
  | false =>
      refine (gives_between ws (Nat.zero_le 2)).bind fun more hmore => gives_pure ⟨hleast.2, ?_⟩
      intro m hm
      obtain rfl := Option.some.inj hm
      exact ⟨Nat.le_add_right _ _, Nat.add_le_add_left hmore.2 _⟩

section Alphabet

variable (h : alphabet ≠ #[])

include h

theorem gives_pick : (pick ws alphabet).Gives (· ∈ alphabet) := by
  have hpos : 0 < alphabet.size := Array.size_pos_iff.2 h
  rw [pick, if_neg (by simpa using h)]
  refine (gives_between ws (Nat.zero_le _)).bind fun n hn => ?_
  have hlt : n < alphabet.size := by omega
  rw [Array.getElem?_eq_getElem hlt]
  exact gives_pure (Array.getElem_mem hlt)

theorem gives_literal (depth : Nat) :
    (literal ws alphabet).Gives fun p => p.nesting ≤ depth ∧ p.Tame alphabet :=
  (gives_pick ws h).bind fun _ hc => gives_pure ⟨Nat.zero_le depth, hc⟩

theorem gives_range (depth : Nat) :
    (range ws alphabet).Gives fun p => p.nesting ≤ depth ∧ p.Tame alphabet := by
  refine (gives_pick ws h).bind fun c hc => (gives_pick ws h).bind fun d hd => gives_pure ?_
  split
  case isTrue hle => exact ⟨Nat.zero_le depth, hc, hd, hle⟩
  case isFalse hle => exact ⟨Nat.zero_le depth, hd, hc, (Char.le_total d c).resolve_right hle⟩

theorem gives_pattern (depth : Nat) :
    (pattern ws alphabet depth).Gives fun p => p.nesting ≤ depth ∧ p.Tame alphabet := by
  induction depth with
  | zero =>
      refine (gives_below ws Nat.two_pos).bind fun form _ => ?_
      split
      · exact gives_literal ws h 0
      · exact gives_range ws h 0
  | succ depth ih =>
      refine (gives_below ws (Nat.succ_pos 4)).bind fun form _ => ?_
      split
      · exact gives_literal ws h _
      · exact gives_range ws h _
      · refine ih.bind fun p hp => ih.bind fun q hq => gives_pure ⟨?_, hp.2, hq.2⟩
        exact Nat.succ_le_succ (Nat.max_le.2 ⟨hp.1, hq.1⟩)
      · refine ih.bind fun p hp => ih.bind fun q hq => gives_pure ⟨?_, hp.2, hq.2⟩
        exact Nat.succ_le_succ (Nat.max_le.2 ⟨hp.1, hq.1⟩)
      · refine (gives_counts ws).bind fun c hc => ih.bind fun p hp => gives_pure ?_
        exact ⟨Nat.succ_le_succ hp.1, hc.1, hc.2, hp.2⟩

end Alphabet

theorem fails_pick : (pick ws #[]).Fails := fun _ => rfl

theorem fails_literal : (literal ws #[]).Fails := (fails_pick ws).bind _

theorem fails_range : (range ws #[]).Fails := (fails_pick ws).bind _

/-- Every pattern has a leaf, and the first leaf has no symbol to pick. -/
theorem fails_pattern (depth : Nat) : (pattern ws #[] depth).Fails := by
  induction depth with
  | zero =>
      refine (gives_below ws Nat.two_pos).bind_fails fun form _ => ?_
      split
      · exact fails_literal ws
      · exact fails_range ws
  | succ depth ih =>
      refine (gives_below ws (Nat.succ_pos 4)).bind_fails fun form _ => ?_
      split
      · exact fails_literal ws
      · exact fails_range ws
      · exact ih.bind _
      · exact ih.bind _
      · exact (gives_counts ws).bind_fails fun c _ => ih.bind _

/-- Over an alphabet that is not empty a pattern is drawn, whatever the random words are, and tables
can be made of it. Over the empty alphabet there is none to draw. -/
theorem pattern_compiles (depth : Nat) :
    (∀ alphabet : Array Char, alphabet ≠ #[] → (pattern ws alphabet depth).Gives fun p =>
      p.nesting ≤ depth ∧ p.Tame alphabet ∧ ∀ name, ∃ t, Tables.ofRules? [⟨name, p⟩] = .ok t) ∧
    (pattern ws #[] depth).Fails := by
  refine ⟨fun alphabet h => ?_, fails_pattern ws depth⟩
  refine (gives_pattern ws h depth).mono fun p hp => ⟨hp.1, hp.2, fun name => ?_⟩
  exact Rule.compiles_iff.2 hp.2.flaw?_eq_none

def countedWords : Words :=
  Words.cycle [0xffffffff, 0x55555556, 0, 0x80000000, 0xffffffff, 0x80000000, 0, 0x55555556]

theorem pattern_compiles_counted :
    pattern countedWords #['b', 'a', 'b'] 1 0 =
        some (.repeated (.range 'a' 'b') 1 (some 3), 8) ∧
      (Pattern.repeated (.range 'a' 'b') 1 (some 3)).nesting ≤ 1 ∧
      (Pattern.repeated (.range 'a' 'b') 1 (some 3)).Tame #['b', 'a', 'b'] ∧
      (∃ t, Tables.ofRules? [⟨"P", .repeated (.range 'a' 'b') 1 (some 3)⟩] = .ok t) ∧
      (pattern countedWords #[] 1).Fails := by
  obtain ⟨hgives, hfails⟩ := pattern_compiles countedWords 1
  have hdraw : pattern countedWords #['b', 'a', 'b'] 1 0 =
      some (.repeated (.range 'a' 'b') 1 (some 3), 8) := rfl
  obtain ⟨p, j, hp, hnesting, htame, hcompiles⟩ := hgives #['b', 'a', 'b'] (by simp) 0
  rw [hdraw] at hp
  cases hp
  exact ⟨hdraw, hnesting, htame, hcompiles "P", hfails⟩

end Draw

end Munch
