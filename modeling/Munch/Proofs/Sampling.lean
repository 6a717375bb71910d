import Mathlib.Computability.Language
import Munch.Draw

namespace Munch.Draw

section Choices

variable {α β : Type} {ok : α → Prop} {draw : Draw α}

/-- Wherever the choice begins to read, it is made, and what comes out is fit. -/
def Gives (draw : Draw α) (ok : α → Prop) : Prop := ∀ i, ∃ a j, draw i = some (a, j) ∧ ok a

theorem gives_pure {a : α} (h : ok a) : Gives (pure a) ok := fun i => ⟨a, i, rfl, h⟩

theorem Gives.mono {ok' : α → Prop} (h : draw.Gives ok) (himp : ∀ a, ok a → ok' a) :
    draw.Gives ok' := by
  intro i
  obtain ⟨a, j, ha, hok⟩ := h i
  exact ⟨a, j, ha, himp a hok⟩

theorem Gives.bind {ok' : β → Prop} {next : α → Draw β} (h : draw.Gives ok)
    (hnext : ∀ a, ok a → (next a).Gives ok') : Gives (draw >>= next) ok' := by
  intro i
  obtain ⟨a, j, ha, hok⟩ := h i
  obtain ⟨b, k, hb, hok'⟩ := hnext a hok j
  refine ⟨b, k, ?_, hok'⟩
  change (draw i).bind (fun x => next x.1 x.2) = _
  rw [ha]
  exact hb

end Choices

section Numbers

/-- A lower half that may have a carry stands for a product so small that the upper half can take
the carry. -/
theorem carry_fits {size n k : Nat} (hk : k < size) (hlower : size - n < k * n % size) :
    k * n / size + 1 < n := by
  by_contra hge
  have hproduct : size * (k * n / size) + k * n % size = k * n := Nat.div_add_mod _ _
  have hmost : k * n + n ≤ size * n := by
    rw [← Nat.succ_mul]
    exact Nat.mul_le_mul_right n hk
  have hupper : size * n ≤ size * (k * n / size) + size := by
    rw [← Nat.mul_succ]
    exact Nat.mul_le_mul_left size (Nat.not_lt.1 hge)
  omega

theorem gives_scaled {size n : Nat} {number : Draw Nat} (h : number.Gives (· < size))
    (hn : 0 < n) : (scaled size number n).Gives (· < n) := by
  rw [scaled, if_neg hn.ne']
  refine h.bind fun k hk => ?_
  dsimp only
  split
  case isTrue hlower =>
    have hfits := carry_fits hk hlower
    refine h.bind fun k' _ => gives_pure ?_
    split <;> omega
  case isFalse => exact gives_pure (Nat.div_lt_of_lt_mul (Nat.mul_lt_mul_of_pos_right hk hn))

variable (ws : Words)

theorem gives_word : (word ws).Gives (· < Text.words32) :=
  fun i => ⟨_, _, rfl, (ws i).toNat_lt⟩

theorem gives_doubleWord : (doubleWord ws).Gives (· < Text.words64) := by
  refine (gives_word ws).bind fun lower hlower => (gives_word ws).bind fun upper hupper => ?_
  rw [Text.words32] at hlower hupper
  refine gives_pure ?_
  rw [Text.words32, Text.words64]
  omega

theorem gives_coin : (coin ws).Gives fun _ => True :=
  (gives_doubleWord ws).bind fun _ _ => gives_pure trivial

theorem gives_between {least most : Nat} (h : least ≤ most) :
    (between ws least most).Gives fun n => least ≤ n ∧ n ≤ most := by
  have hpos : 0 < most + 1 - least := by omega
  have hadd (v : Nat) (hv : v < most + 1 - least) :
      (pure (least + v) : Draw Nat).Gives fun n => least ≤ n ∧ n ≤ most :=
    gives_pure (by omega)
  rw [between]
  dsimp only
  split
  · exact (gives_scaled (gives_word ws) hpos).bind hadd
  · exact (gives_scaled (gives_doubleWord ws) hpos).bind hadd

end Numbers

theorem greatestCount_eq {extra least : Nat} (h : least + extra < Text.words64)
    (most : Option Nat) : greatestCount extra least most = pure (most.getD (least + extra)) :=
  if_pos h

theorem gives_times {L : Language Char} {draw : Draw (List Char)} {n : Nat}
    (h : n ≠ 0 → draw.Gives (· ∈ L)) : (times draw n).Gives (· ∈ L ^ n) := by
  induction n with
  | zero => exact gives_pure (by rw [pow_zero]; exact Language.nil_mem_one)
  | succ n ih =>
      have hdraw := h n.succ_ne_zero
      refine hdraw.bind fun u hu => (ih fun _ => hdraw).bind fun v hv => gives_pure ?_
      rw [pow_succ']
      exact Language.append_mem_mul hu hv

end Munch.Draw
