import Mathlib.Data.Finset.Card
import Munch.Dfa.Minimal
import Munch.Proofs.Follow
import Munch.Proofs.Numbering

namespace Munch

namespace Partition

/-- The blocks of `n` states are numbered by their smallest members. -/
structure Dense (p : Partition) (n : Nat) : Prop where
  size : p.block.size = n
  lt : ∀ q < n, p.of q < p.count
  first : ∀ q < n, ∀ b < p.of q, ∃ r < q, p.of r = b
  full : ∀ b < p.count, ∃ q < n, p.of q = b

theorem getElem?_block_ofKeys {keys : List (List Nat)} {q : Nat} {k : List Nat}
    (h : keys[q]? = some k) :
    (ofKeys keys).block[q]? = some ((Numbering.ofList keys).idOf k) := by
  rw [ofKeys, List.getElem?_toArray, List.getElem?_map, h]
  rfl

theorem of_ofKeys {keys : List (List Nat)} {q : Nat} {k : List Nat} (h : keys[q]? = some k) :
    (ofKeys keys).of q = (Numbering.ofList keys).idOf k := by
  rw [of, Array.getD_eq_getD_getElem?, getElem?_block_ofKeys h, Option.getD_some]

theorem mem_keys_of_getElem? {keys : List (List Nat)} {q : Nat} {k : List Nat}
    (h : keys[q]? = some k) : k ∈ (Numbering.ofList keys).keys :=
  Numbering.mem_keys_ofList.2 (List.mem_of_getElem? h)

theorem of_ofKeys_eq_iff {keys : List (List Nat)} {q r : Nat} {k l : List Nat}
    (hk : keys[q]? = some k) (hl : keys[r]? = some l) :
    (ofKeys keys).of q = (ofKeys keys).of r ↔ k = l := by
  rw [of_ofKeys hk, of_ofKeys hl]
  exact Numbering.idOf_inj _ (mem_keys_of_getElem? hk) (mem_keys_of_getElem? hl)

theorem dense_ofKeys (keys : List (List Nat)) : (ofKeys keys).Dense keys.length where
  size := by
    rw [ofKeys, List.size_toArray, List.length_map]
  lt q hq := by
    rw [of_ofKeys (List.getElem?_eq_getElem hq)]
    exact Numbering.idOf_lt _ (mem_keys_of_getElem? (List.getElem?_eq_getElem hq))
  first q hq b hb := by
    have hk := List.getElem?_eq_getElem hq
    have hid := Numbering.getElem?_idOf _ (mem_keys_of_getElem? hk)
    rw [of_ofKeys hk] at hb
    obtain ⟨l, hl⟩ : ∃ l, (Numbering.ofList keys).keys[b]? = some l :=
      ⟨_, Array.getElem?_eq_getElem (hb.trans (Array.getElem?_eq_some_iff.1 hid).1)⟩
    have hcut := congrArg Numbering.ofList (Numbering.take_append_cons_drop hk).symm
    obtain ⟨r, hr⟩ := List.mem_iff_getElem?.1 (Numbering.mem_of_lt hcut hid hl hb)
    rw [List.getElem?_take] at hr
    split at hr
    case isTrue hlt =>
      refine ⟨r, hlt, ?_⟩
      rw [of_ofKeys hr, Numbering.idOf_eq _ hl]
    case isFalse => cases hr
  full b hb := by
    have hb := Array.getElem?_eq_getElem hb
    obtain ⟨q, hq⟩ := List.mem_iff_getElem?.1
      (Numbering.mem_keys_ofList.1 (Array.mem_of_getElem? hb))
    refine ⟨q, (List.getElem?_eq_some_iff.1 hq).1, ?_⟩
    rw [of_ofKeys hq, Numbering.idOf_eq _ hb]

theorem Dense.of_zero {p : Partition} {n : Nat} (h : p.Dense n) (hn : 0 < n) : p.of 0 = 0 := by
  by_contra hne
  obtain ⟨r, hr, -⟩ := h.first 0 hn 0 (Nat.pos_of_ne_zero hne)
  exact absurd hr (Nat.not_lt_zero r)

theorem Dense.of_eq_of_count_le {p p' : Partition} {n : Nat} (h : p.Dense n) (h' : p'.Dense n)
    (hcount : p'.count ≤ p.count)
    (href : ∀ q < n, ∀ r < n, p'.of q = p'.of r → p.of q = p.of r) :
    ∀ q < n, ∀ r < n, p.of q = p.of r → p'.of q = p'.of r := by
  choose! member hmember using h'.full
  have hof (q : Nat) (hq : q < n) : p.of (member (p'.of q)) = p.of q := by
    obtain ⟨hlt, heq⟩ := hmember _ (h'.lt q hq)
    exact href _ hlt q hq heq
  -- The blocks of the refinement are mapped onto the blocks.
  have himage : (Finset.range p'.count).image (fun b => p.of (member b)) =
      Finset.range p.count := by
    ext b
    rw [Finset.mem_image, Finset.mem_range]
    constructor
    · rintro ⟨b', hb', rfl⟩
      exact h.lt _ (hmember b' (Finset.mem_range.1 hb')).1
    · intro hb
      obtain ⟨q, hq, rfl⟩ := h.full b hb
      exact ⟨p'.of q, Finset.mem_range.2 (h'.lt q hq), hof q hq⟩
  have hinj : Set.InjOn (fun b => p.of (member b)) (Finset.range p'.count) := by
    apply Finset.injOn_of_card_image_eq
    apply Nat.le_antisymm Finset.card_image_le
    rwa [himage, Finset.card_range, Finset.card_range]
  intro q hq r hr heq
  apply hinj
  · exact Finset.mem_coe.2 (Finset.mem_range.2 (h'.lt q hq))
  · exact Finset.mem_coe.2 (Finset.mem_range.2 (h'.lt r hr))
  · change p.of (member (p'.of q)) = p.of (member (p'.of r))
    rw [hof q hq, hof r hr, heq]

end Partition

end Munch
