import Munch.Proofs.Language

namespace Munch.Pattern

theorem mem_unite {xs ys : List Nat} {j : Nat} : j ∈ unite xs ys ↔ j ∈ xs ∨ j ∈ ys := by
  by_cases hj : j ∈ xs <;> simp [unite, hj]

section Copies

variable {input : List Char} {L : Language Char} {f : List Nat → List Nat}

/-- The function takes a set of offsets to all offsets that one word of the language reaches. -/
def Advances (input : List Char) (L : Language Char) (f : List Nat → List Nat) : Prop :=
  ∀ starts j, j ∈ f starts ↔ ∃ i ∈ starts, Reaches input L i j

theorem mem_passes (hf : Advances input L f) {n : Nat} {starts : List Nat} {j : Nat} :
    j ∈ passes f n starts ↔ ∃ i ∈ starts, Reaches input (L ^ n) i j := by
  induction n generalizing starts with
  | zero => simp [passes, reaches_one]
  | succ n ih =>
      rw [passes]
      by_cases he : starts = []
      · simp [he]
      · rw [if_neg (by simpa using he), ih]
        constructor
        · rintro ⟨k, hk, hj⟩
          obtain ⟨i, hi, hik⟩ := (hf starts k).1 hk
          refine ⟨i, hi, ?_⟩
          rw [pow_succ', reaches_mul]
          exact ⟨k, hik, hj⟩
        · rintro ⟨i, hi, hj⟩
          rw [pow_succ', reaches_mul] at hj
          obtain ⟨k, hik, hkj⟩ := hj
          exact ⟨k, (hf starts k).2 ⟨i, hi, hik⟩, hkj⟩

/-- What was seen before the last pass has already been followed by one more copy. -/
def Followed (input : List Char) (L : Language Char) (seen fresh : List Nat) : Prop :=
  ∀ i ∈ seen, i ∉ fresh → ∀ j, Reaches input L i j → j ∈ seen

theorem Followed.next (hf : Advances input L f) {seen fresh : List Nat}
    (h : Followed input L seen fresh) {i j : Nat} (hi : i ∈ seen) (hij : Reaches input L i j) :
    j ∈ seen ++ (f fresh).filter (!seen.contains ·) := by
  by_cases hj : j ∈ seen
  · exact List.mem_append_left _ hj
  · have hfresh : i ∈ fresh := by
      by_contra hn
      exact hj (h i hi hn j hij)
    refine List.mem_append_right _ (List.mem_filter.2 ⟨(hf fresh j).2 ⟨i, hfresh, hij⟩, ?_⟩)
    simpa using hj

theorem Followed.step (hf : Advances input L f) {seen fresh : List Nat}
    (h : Followed input L seen fresh) :
    Followed input L (seen ++ (f fresh).filter (!seen.contains ·))
      ((f fresh).filter (!seen.contains ·)) := by
  intro i hi hn j hij
  rcases List.mem_append.1 hi with hi | hi
  · exact h.next hf hi hij
  · exact absurd hi hn

theorem Followed.closed {seen : List Nat} (h : Followed input L seen []) {n i j : Nat}
    (hi : i ∈ seen) (hij : Reaches input (L ^ n) i j) : j ∈ seen := by
  induction n generalizing i with
  | zero =>
      rw [pow_zero, reaches_one] at hij
      rwa [hij]
  | succ n ih =>
      rw [pow_succ', reaches_mul] at hij
      obtain ⟨k, hik, hkj⟩ := hij
      exact ih (h i hi List.not_mem_nil k hik) hkj

/-- A sweep finds what at most `n` copies reach, although it follows each offset once only. -/
theorem mem_sweep (hf : Advances input L f) {n : Nat} {seen fresh : List Nat}
    (hsub : fresh ⊆ seen) (h : Followed input L seen fresh) {j : Nat} :
    j ∈ sweep f n seen fresh ↔ ∃ i ∈ seen, ∃ m ≤ n, Reaches input (L ^ m) i j := by
  induction n generalizing seen fresh with
  | zero => simp [sweep, reaches_one]
  | succ n ih =>
      rw [sweep]
      by_cases he : fresh = []
      · subst fresh
        rw [List.isEmpty_nil, if_pos rfl]
        constructor
        · intro hj
          exact ⟨j, hj, 0, Nat.zero_le _, by rw [pow_zero, reaches_one]⟩
        · rintro ⟨i, hi, m, -, hij⟩
          exact h.closed hi hij
      · rw [if_neg (by simpa using he), ih (List.subset_append_right _ _) (h.step hf)]
        constructor
        · rintro ⟨k, hk, m, hm, hkj⟩
          rcases List.mem_append.1 hk with hk | hk
          · exact ⟨k, hk, m, Nat.le_succ_of_le hm, hkj⟩
          · obtain ⟨i, hi, hik⟩ := (hf fresh k).1 (List.mem_of_mem_filter hk)
            refine ⟨i, hsub hi, m + 1, Nat.succ_le_succ hm, ?_⟩
            rw [pow_succ', reaches_mul]
            exact ⟨k, hik, hkj⟩
        · rintro ⟨i, hi, m, hm, hij⟩
          cases m with
          | zero => exact ⟨i, List.mem_append_left _ hi, 0, Nat.zero_le _, hij⟩
          | succ m =>
              rw [pow_succ', reaches_mul] at hij
              obtain ⟨k, hik, hkj⟩ := hij
              exact ⟨k, h.next hf hi hik, m, Nat.le_of_succ_le_succ hm, hkj⟩

end Copies

theorem exists_copies_iff {input : Array Char} {L : Language Char} {least : Nat}
    {most : Option Nat} {i j : Nat} (hm : ∀ m ∈ most, least ≤ m) :
    (∃ n ≤ sweepLimit input least most, Reaches input.toList (L ^ (least + n)) i j) ↔
      ∃ n, least ≤ n ∧ (∀ m ∈ most, n ≤ m) ∧ Reaches input.toList (L ^ n) i j := by
  constructor
  · rintro ⟨n, hn, h⟩
    refine ⟨least + n, Nat.le_add_right _ _, ?_, h⟩
    rintro m rfl
    have := hm m rfl
    rw [sweepLimit, Nat.le_min] at hn
    omega
  · rintro ⟨n, hn, hmost, h⟩
    obtain ⟨extra, rfl⟩ := Nat.exists_eq_add_of_le hn
    rw [pow_add, reaches_mul] at h
    obtain ⟨k, hik, hkj⟩ := h
    obtain ⟨e, he, hlen, hr⟩ := hkj.few_copies
    refine ⟨e, ?_, ?_⟩
    · have hsize := hkj.sub_le
      rw [Array.length_toList] at hsize
      cases most with
      | none =>
          rw [sweepLimit]
          omega
      | some m =>
          have := hmost m rfl
          rw [sweepLimit, Nat.le_min]
          omega
    · rw [pow_add, reaches_mul]
      exact ⟨k, hik, hr⟩

theorem advances_repeated {input : Array Char} {p : Pattern} {least : Nat} {most : Option Nat}
    (hp : Advances input.toList p.language (endpoints input p)) (hm : ∀ m ∈ most, least ≤ m) :
    Advances input.toList (repeated p least most).language
      (endpoints input (repeated p least most)) := by
  intro starts j
  rw [endpoints, mem_sweep hp (List.Subset.refl _) fun _ hi hn => absurd hi hn]
  constructor
  · rintro ⟨k, hk, n, hn, hkj⟩
    obtain ⟨i, hi, hik⟩ := (mem_passes hp).1 hk
    obtain ⟨c, hl, hc, w, hw, hpre, hj⟩ := (exists_copies_iff hm).1
      ⟨n, hn, by rw [pow_add, reaches_mul]; exact ⟨k, hik, hkj⟩⟩
    exact ⟨i, hi, w, ⟨c, hl, hc, hw⟩, hpre, hj⟩
  · rintro ⟨i, hi, w, ⟨c, hl, hc, hw⟩, hpre, hj⟩
    obtain ⟨n, hn, hr⟩ := (exists_copies_iff hm).2 ⟨c, hl, hc, w, hw, hpre, hj⟩
    rw [pow_add, reaches_mul] at hr
    obtain ⟨k, hik, hkj⟩ := hr
    exact ⟨k, (mem_passes hp).2 ⟨i, hi, hik⟩, n, hn, hkj⟩

theorem singleton_prefix_drop {input : Array Char} {i : Nat} {c : Char} :
    [c] <+: input.toList.drop i ↔ input[i]? = some c := by
  rw [← Array.getElem?_toList, ← List.head?_drop]
  cases input.toList.drop i with
  | nil => simp
  | cons d ds => simp [List.cons_prefix_cons, eq_comm]

theorem advances_symbol {input : Array Char} {ok : Char → Prop} {test : Nat → Bool}
    (htest : ∀ i, test i = true ↔ ∃ c, input[i]? = some c ∧ ok c) :
    Advances input.toList {w : List Char | ∃ c, w = [c] ∧ ok c}
      fun starts => (starts.filter test).map (· + 1) := by
  intro starts j
  rw [List.mem_map]
  constructor
  · rintro ⟨i, hi, rfl⟩
    obtain ⟨hi, ht⟩ := List.mem_filter.1 hi
    obtain ⟨c, hc, hok⟩ := (htest i).1 ht
    exact ⟨i, hi, [c], ⟨c, rfl, hok⟩, singleton_prefix_drop.2 hc, rfl⟩
  · rintro ⟨i, hi, w, ⟨c, rfl, hok⟩, hp, rfl⟩
    exact ⟨i, List.mem_filter.2 ⟨hi, (htest i).2 ⟨c, singleton_prefix_drop.1 hp, hok⟩⟩, rfl⟩

theorem advances_endpoints (input : Array Char) {p : Pattern} (h : p.CountsOrdered) :
    Advances input.toList p.language (endpoints input p) := by
  induction p with
  | literal c =>
      have hl : (literal c).language = {w : List Char | ∃ d, w = [d] ∧ d = c} := by
        ext w
        constructor
        · intro hw
          exact ⟨c, hw, rfl⟩
        · rintro ⟨d, rfl, rfl⟩
          rfl
      rw [hl]
      exact advances_symbol fun i => by simp
  | range lo hi =>
      refine advances_symbol fun i => ?_
      cases input[i]? <;> simp
  | concat p q ihp ihq =>
      intro starts j
      rw [endpoints, ihq h.2]
      constructor
      · rintro ⟨k, hk, hkj⟩
        obtain ⟨i, hi, hik⟩ := (ihp h.1 starts k).1 hk
        exact ⟨i, hi, reaches_mul.2 ⟨k, hik, hkj⟩⟩
      · rintro ⟨i, hi, hij⟩
        obtain ⟨k, hik, hkj⟩ := reaches_mul.1 hij
        exact ⟨k, (ihp h.1 starts k).2 ⟨i, hi, hik⟩, hkj⟩
  | alternate p q ihp ihq =>
      intro starts j
      rw [endpoints, mem_unite, ihp h.1, ihq h.2]
      simp only [language, reaches_add, and_or_left, exists_or]
  | repeated p least most ih =>
      cases most with
      | none => exact advances_repeated (ih h) fun m hm => absurd hm (Option.not_mem_none m)
      | some most =>
          obtain ⟨hle, hz | hp⟩ := h
          · -- The body of an empty repetition may be malformed: it is never looked at.
            obtain rfl := hz
            obtain rfl := Nat.le_zero.1 hle
            intro starts j
            rw [language_repeated_zero]
            simp [endpoints, passes, sweepLimit, sweep, reaches_one]
          · refine advances_repeated (ih hp) fun m hm => ?_
            cases hm
            exact hle

theorem matchesAll_iff {p : Pattern} (h : p.CountsOrdered) (w : List Char) :
    p.matchesAll w.toArray = true ↔ w ∈ p.language := by
  rw [matchesAll, List.contains_iff_mem, advances_endpoints w.toArray h]
  constructor
  · rintro ⟨i, hi, u, hu, hp, hlen⟩
    obtain rfl := List.mem_singleton.1 hi
    have he : u = w := hp.eq_of_length (by simpa using hlen.symm)
    rwa [he] at hu
  · intro hw
    exact ⟨0, List.mem_singleton_self 0, w, hw, by simp, by simp⟩

end Munch.Pattern
