import Munch.Proofs.Language

namespace Munch.Pattern

theorem mem_language_concat {p q : Pattern} {w : List Char} :
    w ∈ (concat p q).language ↔ ∃ u ∈ p.language, ∃ v ∈ q.language, u ++ v = w := Language.mem_mul

theorem mem_language_alternate {p q : Pattern} {w : List Char} :
    w ∈ (alternate p q).language ↔ w ∈ p.language ∨ w ∈ q.language := Iff.rfl

/-- The pattern stands for the single symbols with a property. -/
def Symbols (p : Pattern) (ok : Char → Prop) : Prop :=
  ∀ w, w ∈ p.language ↔ ∃ c, w = [c] ∧ ok c

section Symbols

variable {p q : Pattern} {ok ok' : Char → Prop}

theorem Symbols.congr (hp : p.Symbols ok) (h : ∀ c, ok c ↔ ok' c) : p.Symbols ok' := by
  intro w
  rw [hp w]
  simp only [h]

theorem symbols_literal (c : Char) : (literal c).Symbols (· = c) := by
  intro w
  rw [mem_language_literal]
  simp

theorem symbols_range (lo hi : Char) : (range lo hi).Symbols fun c => lo ≤ c ∧ c ≤ hi :=
  fun _ => Iff.rfl

theorem Symbols.alternate (hp : p.Symbols ok) (hq : q.Symbols ok') :
    (alternate p q).Symbols fun c => ok c ∨ ok' c := by
  intro w
  rw [mem_language_alternate, hp w, hq w]
  simp only [and_or_left, exists_or]

theorem Symbols.mem_pow (hp : p.Symbols ok) {n : Nat} {w : List Char} :
    w ∈ p.language ^ n ↔ w.length = n ∧ ∀ c ∈ w, ok c := by
  induction n generalizing w with
  | zero =>
      rw [pow_zero, Language.mem_one, List.length_eq_zero_iff]
      constructor
      · rintro rfl
        exact ⟨rfl, fun c hc => absurd hc List.not_mem_nil⟩
      · exact And.left
  | succ n ih =>
      rw [pow_succ', Language.mem_mul]
      constructor
      · rintro ⟨u, hu, v, hv, rfl⟩
        obtain ⟨c, rfl, hc⟩ := (hp u).1 hu
        obtain ⟨hlen, hall⟩ := ih.1 hv
        simpa [hlen, hc] using hall
      · rintro ⟨hlen, hall⟩
        obtain ⟨c, cs, rfl⟩ := List.exists_cons_of_length_eq_add_one hlen
        rw [List.forall_mem_cons] at hall
        exact ⟨[c], (hp [c]).2 ⟨c, rfl, hall.1⟩, cs, ih.2 ⟨by simpa using hlen, hall.2⟩, rfl⟩

theorem Symbols.mem_repeated (hp : p.Symbols ok) {least : Nat} {w : List Char} :
    w ∈ (repeated p least none).language ↔ least ≤ w.length ∧ ∀ c ∈ w, ok c := by
  rw [mem_language_repeated]
  constructor
  · rintro ⟨n, hn, -, hw⟩
    obtain ⟨rfl, hall⟩ := hp.mem_pow.1 hw
    exact ⟨hn, hall⟩
  · rintro ⟨hn, hall⟩
    exact ⟨w.length, hn, fun m hm => absurd hm (Option.not_mem_none m), hp.mem_pow.2 ⟨rfl, hall⟩⟩

theorem Symbols.mem_star (hp : p.Symbols ok) {w : List Char} :
    w ∈ (star p).language ↔ ∀ c ∈ w, ok c := by
  rw [star, hp.mem_repeated]
  exact and_iff_right (Nat.zero_le _)

theorem Symbols.mem_plus (hp : p.Symbols ok) {w : List Char} :
    w ∈ (plus p).language ↔ w ≠ [] ∧ ∀ c ∈ w, ok c := by
  rw [plus, hp.mem_repeated, Nat.one_le_iff_ne_zero, ← List.length_pos_iff, Nat.pos_iff_ne_zero]

end Symbols

/-- A sequence that is nested to the left has the words of its first part in front. -/
theorem language_foldl_concat (p : Pattern) (ps : List Pattern) :
    (ps.foldl concat p).language = p.language * (ps.map language).prod := by
  induction ps generalizing p with
  | nil => exact (mul_one p.language).symm
  | cons q ps ih =>
      rw [List.foldl_cons, ih, List.map_cons, List.prod_cons, ← mul_assoc]
      rfl

theorem language_sequence (ps : List Pattern) :
    (sequence ps).language = (ps.map language).prod := by
  cases ps with
  | nil => exact language_repeated_zero _
  | cons p ps => exact language_foldl_concat p ps

theorem mem_language_word {cs w : List Char} : w ∈ (word cs).language ↔ w = cs := by
  rw [word, language_sequence, List.map_map]
  induction cs generalizing w with
  | nil => exact Language.mem_one w
  | cons c cs ih =>
      rw [List.map_cons, List.prod_cons, Language.mem_mul]
      constructor
      · rintro ⟨u, rfl, v, hv, rfl⟩
        rw [ih.1 hv]
        rfl
      · rintro rfl
        exact ⟨[c], rfl, cs, ih.2 rfl, rfl⟩

theorem mem_language_foldl_alternate {p : Pattern} {ps : List Pattern} {w : List Char} :
    w ∈ (ps.foldl alternate p).language ↔ ∃ q ∈ p :: ps, w ∈ q.language := by
  induction ps generalizing p with
  | nil => simp
  | cons q ps ih =>
      rw [List.foldl_cons, ih]
      simp only [List.mem_cons, exists_eq_or_imp, mem_language_alternate, or_assoc]

theorem mem_language_choice {p : Pattern} {ps : List Pattern} (h : choice? ps = some p)
    {w : List Char} : w ∈ p.language ↔ ∃ q ∈ ps, w ∈ q.language := by
  cases ps with
  | nil => cases h
  | cons q ps =>
      cases h
      exact mem_language_foldl_alternate

theorem symbols_oneOf {cs : List Char} {p : Pattern} (h : oneOf? cs = some p) :
    p.Symbols (· ∈ cs) := by
  intro w
  rw [mem_language_choice h]
  simp only [List.mem_map, exists_exists_and_eq_and, mem_language_literal]
  exact exists_congr fun c => and_comm

theorem toNat_le_iff {c d : Char} : c ≤ d ↔ c.toNat ≤ d.toNat := by
  rw [Char.le_def, UInt32.le_iff_toNat_le]
  rfl

theorem runs_ordered (cs : List Char) : ∀ r ∈ runs cs, r.1 ≤ r.2 := by
  induction cs with
  | nil => exact fun r hr => absurd hr List.not_mem_nil
  | cons c cs ih =>
      rw [runs]
      split
      next => simp
      next lo hi rest hruns =>
        rw [hruns, List.forall_mem_cons] at ih
        obtain ⟨hle, hrest⟩ := ih
        split
        next hnext =>
          refine List.forall_mem_cons.2 ⟨?_, hrest⟩
          dsimp only at hle ⊢
          rw [toNat_le_iff] at hle ⊢
          omega
        next =>
          exact List.forall_mem_cons.2 ⟨Char.le_refl c, List.forall_mem_cons.2 ⟨hle, hrest⟩⟩

theorem mem_runs {cs : List Char} {c : Char} : (∃ r ∈ runs cs, r.1 ≤ c ∧ c ≤ r.2) ↔ c ∈ cs := by
  have hself (d : Char) : c = d ↔ d ≤ c ∧ c ≤ d := by
    rw [and_comm, toNat_le_iff, toNat_le_iff, ← Nat.le_antisymm_iff, Char.toNat_inj]
  induction cs with
  | nil => simp [runs]
  | cons d cs ih =>
      have hordered := runs_ordered cs
      rw [List.mem_cons, ih.symm, runs]
      split
      next hruns => simp [hruns, hself]
      next lo hi rest hruns =>
        rw [hruns, List.forall_mem_cons] at hordered
        rw [hruns]
        split
        next hnext =>
          have hle := toNat_le_iff.1 hordered.1
          simp only [List.mem_cons, exists_eq_or_imp, ← or_assoc, hself d, toNat_le_iff] at hle ⊢
          refine or_congr_left ?_
          omega
        next => simp only [List.mem_cons, exists_eq_or_imp, hself d]

theorem mem_ascii {c : Char} : c ∈ ascii ↔ c.toNat < 128 := by
  rw [ascii, List.mem_map]
  constructor
  · rintro ⟨n, hn, rfl⟩
    have hn := List.mem_range.1 hn
    have hvalid : n.isValidChar := .inl (by omega)
    rw [Char.ofNat, dif_pos hvalid]
    exact hn
  · intro hc
    exact ⟨c.toNat, List.mem_range.2 hc, Char.ofNat_toNat c⟩

theorem symbols_noneOf {excluded : List Char} {p : Pattern} (h : noneOf? excluded = some p) :
    p.Symbols fun c => c.toNat < 128 ∧ c ∉ excluded := by
  have hmem (c : Char) : c.toNat < 128 ∧ c ∉ excluded ↔
      ∃ r ∈ runs (ascii.filter (!excluded.contains ·)), r.1 ≤ c ∧ c ≤ r.2 := by
    rw [mem_runs, List.mem_filter, mem_ascii]
    simp
  intro w
  rw [mem_language_choice h]
  simp only [List.mem_map, exists_exists_and_eq_and, mem_language_range, hmem]
  constructor
  · rintro ⟨r, hr, c, hw, hc⟩
    exact ⟨c, hw, r, hr, hc⟩
  · rintro ⟨c, hw, r, hr, hc⟩
    exact ⟨r, hr, c, hw, hc⟩

end Munch.Pattern
