import Mathlib.Computability.Language
import Munch.Pattern.Endpoints
import Munch.Pattern.Flaw

namespace Munch.Pattern

def language : Pattern → Language Char
  | literal c => {[c]}
  | range lo hi => {w : List Char | ∃ c, w = [c] ∧ lo ≤ c ∧ c ≤ hi}
  | concat p q => p.language * q.language
  | alternate p q => p.language + q.language
  | repeated p least most =>
    {w : List Char | ∃ n, least ≤ n ∧ (∀ m ∈ most, n ≤ m) ∧ w ∈ p.language ^ n}

theorem mem_language_literal {c : Char} {w : List Char} :
    w ∈ (literal c).language ↔ w = [c] := Iff.rfl

theorem mem_language_range {lo hi : Char} {w : List Char} :
    w ∈ (range lo hi).language ↔ ∃ c, w = [c] ∧ lo ≤ c ∧ c ≤ hi := Iff.rfl

theorem mem_language_repeated {p : Pattern} {least : Nat} {most : Option Nat} {w : List Char} :
    w ∈ (repeated p least most).language ↔
      ∃ n, least ≤ n ∧ (∀ m ∈ most, n ≤ m) ∧ w ∈ p.language ^ n := Iff.rfl

theorem language_repeated_zero (p : Pattern) : (repeated p 0 (some 0)).language = 1 := by
  ext w
  rw [mem_language_repeated]
  constructor
  · rintro ⟨n, -, hn, hw⟩
    rwa [Nat.le_zero.1 (hn 0 rfl), pow_zero] at hw
  · intro hw
    exact ⟨0, le_rfl, fun m _ => Nat.zero_le m, by rwa [pow_zero]⟩

theorem language_star (p : Pattern) : (repeated p 0 none).language = KStar.kstar p.language := by
  ext w
  rw [mem_language_repeated, Language.kstar_eq_iSup_pow, Language.mem_iSup]
  constructor
  · rintro ⟨n, -, -, hw⟩
    exact ⟨n, hw⟩
  · rintro ⟨n, hw⟩
    exact ⟨n, Nat.zero_le n, fun m hm => absurd hm (Option.not_mem_none m), hw⟩

/-- Ways of writing the same: concatenations bracketed otherwise, alternatives in another order and
stars of stars, anywhere in a pattern. -/
inductive Rewrites : Pattern → Pattern → Prop
  | assoc (p q r : Pattern) : Rewrites (concat (concat p q) r) (concat p (concat q r))
  | swap (p q : Pattern) : Rewrites (alternate p q) (alternate q p)
  | nest (p : Pattern) : Rewrites (repeated (repeated p 0 none) 0 none) (repeated p 0 none)
  | refl (p : Pattern) : Rewrites p p
  | symm {p q : Pattern} : Rewrites p q → Rewrites q p
  | trans {p q r : Pattern} : Rewrites p q → Rewrites q r → Rewrites p r
  | concat {p p' q q' : Pattern} : Rewrites p p' → Rewrites q q' →
      Rewrites (concat p q) (concat p' q')
  | alternate {p p' q q' : Pattern} : Rewrites p p' → Rewrites q q' →
      Rewrites (alternate p q) (alternate p' q')
  | repeated {p p' : Pattern} (least : Nat) (most : Option Nat) : Rewrites p p' →
      Rewrites (repeated p least most) (repeated p' least most)

theorem Rewrites.language_eq {p q : Pattern} (h : Rewrites p q) : p.language = q.language := by
  induction h with
  | assoc p q r => exact mul_assoc p.language q.language r.language
  | swap p q => exact add_comm p.language q.language
  | nest p => rw [language_star, language_star, kstar_idem]
  | refl p => rfl
  | symm _ ih => exact ih.symm
  | trans _ _ ih ih' => exact ih.trans ih'
  | concat _ _ ih ih' | alternate _ _ ih ih' => rw [language, language, ih, ih']
  | repeated least most _ ih => rw [language, language, ih]

/-- The bounds of every repetition are in order, except in a body that is never repeated. -/
def CountsOrdered : Pattern → Prop
  | literal _ | range _ _ => True
  | concat p q | alternate p q => p.CountsOrdered ∧ q.CountsOrdered
  | repeated p _ none => p.CountsOrdered
  | repeated p least (some most) => least ≤ most ∧ (most = 0 ∨ p.CountsOrdered)

theorem countsOrdered_of_flaw? {p : Pattern} (h : p.flaw? = none) : p.CountsOrdered := by
  induction p with
  | literal c => trivial
  | range lo hi => trivial
  | concat p q ihp ihq | alternate p q ihp ihq =>
      obtain ⟨hp, hq⟩ := Option.or_eq_none_iff.1 h
      exact ⟨ihp hp, ihq hq⟩
  | repeated p least most ih =>
      cases most with
      | none => exact ih h
      | some most =>
          rw [flaw?] at h
          by_cases hlt : most < least
          · simp [hlt] at h
          · refine ⟨Nat.not_lt.1 hlt, ?_⟩
            by_cases hz : most = 0
            · exact .inl hz
            · rw [if_neg hlt, if_neg hz] at h
              exact .inr (ih h)

section Offsets

variable (input : List Char)

def Reaches (L : Language Char) (i j : Nat) : Prop :=
  ∃ w ∈ L, w <+: input.drop i ∧ j = i + w.length

variable {input}

theorem reaches_one {i j : Nat} : Reaches input 1 i j ↔ j = i := by
  constructor
  · rintro ⟨w, hw, -, rfl⟩
    rw [Language.mem_one] at hw
    simp [hw]
  · rintro rfl
    exact ⟨[], Language.nil_mem_one, List.nil_prefix, rfl⟩

theorem reaches_add {L M : Language Char} {i j : Nat} :
    Reaches input (L + M) i j ↔ Reaches input L i j ∨ Reaches input M i j := by
  constructor
  · rintro ⟨w, hw | hw, hp, hj⟩
    · exact .inl ⟨w, hw, hp, hj⟩
    · exact .inr ⟨w, hw, hp, hj⟩
  · rintro (⟨w, hw, hp, hj⟩ | ⟨w, hw, hp, hj⟩)
    · exact ⟨w, .inl hw, hp, hj⟩
    · exact ⟨w, .inr hw, hp, hj⟩

theorem reaches_mul {L M : Language Char} {i k : Nat} :
    Reaches input (L * M) i k ↔ ∃ j, Reaches input L i j ∧ Reaches input M j k := by
  constructor
  · rintro ⟨w, hw, ⟨rest, hrest⟩, rfl⟩
    obtain ⟨u, hu, v, hv, rfl⟩ := Language.mem_mul.1 hw
    refine ⟨i + u.length, ⟨u, hu, ⟨v ++ rest, ?_⟩, rfl⟩, v, hv, ⟨rest, ?_⟩, ?_⟩
    · rw [← hrest, List.append_assoc]
    · rw [← List.drop_drop, ← hrest, List.append_assoc, List.drop_left]
    · rw [List.length_append, Nat.add_assoc]
  · rintro ⟨j, ⟨u, hu, ⟨r, hr⟩, rfl⟩, v, hv, ⟨s, hs⟩, rfl⟩
    refine ⟨u ++ v, Language.append_mem_mul hu hv, ⟨s, ?_⟩, ?_⟩
    · rw [← List.drop_drop, ← hr, List.drop_left] at hs
      rw [List.append_assoc, hs, hr]
    · rw [List.length_append, Nat.add_assoc]

theorem Reaches.le {L : Language Char} {i j : Nat} (h : Reaches input L i j) : i ≤ j := by
  obtain ⟨w, -, -, rfl⟩ := h
  omega

theorem Reaches.sub_le {L : Language Char} {i j : Nat} (h : Reaches input L i j) :
    j - i ≤ input.length := by
  obtain ⟨w, -, hp, rfl⟩ := h
  have hw := hp.length_le
  rw [List.length_drop] at hw
  omega

/-- Copies that read nothing can be left out, so no more are needed than symbols are read. -/
theorem Reaches.few_copies {L : Language Char} {n i j : Nat} (h : Reaches input (L ^ n) i j) :
    ∃ m, m ≤ n ∧ m ≤ j - i ∧ Reaches input (L ^ m) i j := by
  induction n generalizing i with
  | zero => exact ⟨0, le_rfl, Nat.zero_le _, h⟩
  | succ n ih =>
      rw [pow_succ', reaches_mul] at h
      obtain ⟨k, hk, hj⟩ := h
      obtain ⟨m, hmn, hmj, hm⟩ := ih hj
      by_cases he : i = k
      · subst k
        exact ⟨m, Nat.le_succ_of_le hmn, hmj, hm⟩
      · have hik := hk.le
        have hkj := hj.le
        refine ⟨m + 1, Nat.succ_le_succ hmn, by omega, ?_⟩
        rw [pow_succ', reaches_mul]
        exact ⟨k, hk, hm⟩

end Offsets

end Munch.Pattern
