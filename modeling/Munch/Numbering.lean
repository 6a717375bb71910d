import Std.Data.HashMap

namespace Munch

open Std

/-- Dense numbers for keys, given out in order of first appearance. -/
structure Numbering (α : Type) [BEq α] [Hashable α] where
  keys : Array α
  index : HashMap α Nat
  index_eq_some : ∀ (k : α) (i : Nat), index[k]? = some i ↔ keys[i]? = some k

namespace Numbering

variable {α : Type} [BEq α] [Hashable α]

def idOf (nb : Numbering α) (k : α) : Nat := nb.index[k]?.getD 0

variable [LawfulBEq α]

def empty : Numbering α := ⟨#[], ∅, by simp⟩

def add (nb : Numbering α) (k : α) : Numbering α :=
  match h : nb.index[k]? with
  | some _ => nb
  | none =>
    { keys := nb.keys.push k
      index := nb.index.insert k nb.keys.size
      index_eq_some := by
        intro x i
        have hx := nb.index_eq_some x i
        have hk := nb.index_eq_some k i
        simp only [HashMap.getElem?_insert, Array.getElem?_push, beq_iff_eq]
        grind }

def addAll (nb : Numbering α) (ks : List α) : Numbering α := ks.foldl add nb

def ofList (ks : List α) : Numbering α := empty.addAll ks

theorem size_add_le (nb : Numbering α) (k : α) : (nb.add k).keys.size ≤ nb.keys.size + 1 := by
  unfold add
  split <;> simp

theorem size_addAll_le (nb : Numbering α) (ks : List α) :
    (nb.addAll ks).keys.size ≤ nb.keys.size + ks.length := by
  induction ks generalizing nb with
  | nil => simp [addAll]
  | cons k ks ih =>
    have h := ih (nb.add k)
    have := nb.size_add_le k
    simp only [addAll, List.foldl_cons, List.length_cons] at h ⊢
    omega

end Numbering

end Munch
