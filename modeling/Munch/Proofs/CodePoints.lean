import Munch.Text.Identifier

namespace Munch.Text

theorem scalar?_eq_some {n : Nat} {c : Char} : scalar? n = some c ↔ n = c.toNat := by
  rw [scalar?]
  constructor
  · intro h
    by_cases hn : n.isValidChar
    · rw [dif_pos hn] at h
      cases h
      rfl
    · simp [hn] at h
  · rintro rfl
    have hc : c.toNat.isValidChar := c.valid
    rw [dif_pos hc]
    rfl

namespace CodePoints

/-- The members one by one, where the last change is back to no membership. -/
def members : List Nat → List Nat
  | a :: b :: flips => List.range' a (b - a) ++ members flips
  | _ => []

theorem mem_members {n : Nat} {flips : List Nat} (heven : flips.length % 2 = 0)
    (h : oddBelow n flips = true) : n ∈ members flips := by
  fun_induction members flips with
  | case1 a b flips ih =>
      rw [oddBelow, oddBelow] at h
      rw [List.mem_append, List.mem_range'_1]
      split at h
      · cases h
      · split at h
        · left
          omega
        · rw [Bool.not_not] at h
          right
          apply ih _ h
          rw [List.length_cons, List.length_cons] at heven
          omega
  | case2 flips hflips =>
      match flips with
      | [] => cases h
      | [a] => cases heven
      | a :: b :: flips => exact absurd rfl (hflips a b flips)

end CodePoints

theorem not_alphanumeric_of_blank {c : Char} (h : blank.contains c = true) :
    isAlphanumeric c = false := by
  have hall : ∀ n ∈ CodePoints.members blank.flips, CodePoints.oddBelow n alphabetic.flips = false ∧
      CodePoints.oddBelow n numeric.flips = false := by
    decide +kernel
  obtain ⟨halpha, hnum⟩ := hall _ (CodePoints.mem_members rfl h)
  rw [isAlphanumeric, CodePoints.contains, CodePoints.contains, halpha, hnum]
  rfl

end Munch.Text
