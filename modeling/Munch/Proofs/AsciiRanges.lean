import Munch.Proofs.Combinators
import Munch.Proofs.Matching
import Munch.Text.CodePoints

namespace Munch.Pattern

theorem toNat_ofNat_of_ascii {n : Nat} (h : n < 128) : (Char.ofNat n).toNat = n := by
  have hvalid : n.isValidChar := .inl (by omega)
  rw [Char.ofNat, dif_pos hvalid]
  rfl

section Runs

def Separated (rs : List (Char × Char)) : Prop :=
  rs.Pairwise fun r s => r.2.toNat + 1 < s.1.toNat

theorem exists_runs_cons (c : Char) (cs : List Char) :
    ∃ hi rest, runs (c :: cs) = (c, hi) :: rest := by
  rw [runs]
  split
  next => exact ⟨c, [], rfl⟩
  next lo hi rest _ =>
    split
    next => exact ⟨hi, rest, rfl⟩
    next => exact ⟨c, (lo, hi) :: rest, rfl⟩

theorem separated_runs {cs : List Char} (h : cs.Pairwise (·.toNat < ·.toNat)) :
    Separated (runs cs) := by
  induction cs with
  | nil => exact .nil
  | cons c cs ih =>
      rw [List.pairwise_cons] at h
      obtain ⟨hlt, hcs⟩ := h
      have hrest := ih hcs
      have hordered := runs_ordered cs
      rw [runs]
      split
      next => exact List.pairwise_singleton _ _
      next lo hi rest hruns =>
        rw [hruns] at hrest hordered
        obtain ⟨hhi, hpairs⟩ := List.pairwise_cons.1 hrest
        have hle := toNat_le_iff.1 (List.forall_mem_cons.1 hordered).1
        split
        next => exact List.pairwise_cons.2 ⟨hhi, hpairs⟩
        next hne =>
          have hmem : lo ∈ cs := by
            refine mem_runs.1 ⟨(lo, hi), ?_, Char.le_refl lo, toNat_le_iff.2 hle⟩
            rw [hruns]
            exact List.mem_cons_self
          have hgap : c.toNat + 1 < lo.toNat := by
            have := hlt lo hmem
            omega
          refine List.pairwise_cons.2 ⟨List.forall_mem_cons.2 ⟨hgap, fun s hs => ?_⟩, hrest⟩
          have := hhi s hs
          dsimp only at hle this ⊢
          omega

end Runs

section Pass

def before (c : Char) : Char := (Text.scalar? (c.toNat - 1)).getD c

/-- A pass over symbols in a row, with the lower end of the range that is open, if there is one. An
excluded symbol closes the range, and so does the end of ASCII. -/
def collect (excluded : List Char) : Option Char → List Char → List (Char × Char)
  | lo, [] => lo.toList.map (·, '\x7f')
  | lo, c :: cs =>
    if excluded.contains c then lo.toList.map (·, before c) ++ collect excluded none cs
    else collect excluded (lo.or (some c)) cs

def consecutive (k n : Nat) : List Char := (List.range' k n).map Char.ofNat

theorem consecutive_succ (k n : Nat) :
    consecutive k (n + 1) = Char.ofNat k :: consecutive (k + 1) n := by
  rw [consecutive, List.range'_succ, List.map_cons]
  rfl

theorem le_toNat_of_mem_consecutive {k n : Nat} {c : Char} (hk : k + n ≤ 128)
    (hc : c ∈ consecutive k n) : k ≤ c.toNat := by
  obtain ⟨m, hm, rfl⟩ := List.mem_map.1 hc
  rw [List.mem_range'_1] at hm
  rw [toNat_ofNat_of_ascii (by omega)]
  exact hm.1

def extend (lo : Char) (n : Nat) : List (Char × Char) → List (Char × Char)
  | [] => [(lo, Char.ofNat (n - 1))]
  | (next, hi) :: rest =>
    if next.toNat = n then (lo, hi) :: rest else (lo, Char.ofNat (n - 1)) :: (next, hi) :: rest

theorem runs_cons (c : Char) (cs : List Char) :
    runs (c :: cs) = extend c (c.toNat + 1) (runs cs) := by
  rw [runs]
  cases runs cs <;> simp [extend]

theorem extend_extend {lo c : Char} {n : Nat} (hc : c.toNat = n) (rs : List (Char × Char)) :
    extend lo n (extend c (n + 1) rs) = extend lo (n + 1) rs := by
  subst n
  cases rs with
  | nil => simp [extend]
  | cons r rs =>
      obtain ⟨next, hi⟩ := r
      by_cases hnext : next.toNat = c.toNat + 1 <;> simp [extend, hnext]

theorem extend_runs_of_lt {lo : Char} {n : Nat} {cs : List Char} (h : ∀ c ∈ cs, n < c.toNat) :
    extend lo n (runs cs) = (lo, Char.ofNat (n - 1)) :: runs cs := by
  cases cs with
  | nil => rfl
  | cons c cs =>
      obtain ⟨hi, rest, hruns⟩ := exists_runs_cons c cs
      have hc : c.toNat ≠ n := (h c List.mem_cons_self).ne'
      rw [hruns, extend, if_neg hc]

theorem before_ofNat {n : Nat} (h : n < 128) : before (Char.ofNat n) = Char.ofNat (n - 1) := by
  have hprev : n - 1 < 128 := by omega
  have hscalar : Text.scalar? (n - 1) = some (Char.ofNat (n - 1)) := by
    have hvalid : (n - 1).isValidChar := .inl (by omega)
    rw [Text.scalar?, dif_pos hvalid, Char.ofNat, dif_pos hvalid]
  rw [before, toNat_ofNat_of_ascii h, hscalar, Option.getD_some]

variable (excluded : List Char)

/-- From each symbol on, a pass collects the maximal runs of what is not excluded. If a range is
open, the first of them may go on with it. -/
theorem collect_consecutive {k n : Nat} (hk : k + n = 128) :
    collect excluded none (consecutive k n) =
        runs ((consecutive k n).filter (!excluded.contains ·)) ∧
      ∀ lo, collect excluded (some lo) (consecutive k n) =
        extend lo k (runs ((consecutive k n).filter (!excluded.contains ·))) := by
  induction n generalizing k with
  | zero =>
      obtain rfl : k = 128 := hk
      exact ⟨rfl, fun lo => rfl⟩
  | succ n ih =>
      obtain ⟨hclosed, hopen⟩ := ih (show k + 1 + n = 128 by omega)
      have hascii : k < 128 := by omega
      have hc := toNat_ofNat_of_ascii hascii
      rw [consecutive_succ]
      by_cases hex : excluded.contains (Char.ofNat k) = true
      · rw [List.filter_cons_of_neg (by simpa using hex)]
        constructor
        · rw [collect, if_pos hex, hclosed]
          rfl
        · intro lo
          have hlater : ∀ c ∈ (consecutive (k + 1) n).filter (!excluded.contains ·),
              k < c.toNat := fun c hc =>
            le_toNat_of_mem_consecutive (by omega) (List.mem_of_mem_filter hc)
          rw [collect, if_pos hex, hclosed, extend_runs_of_lt hlater, before_ofNat hascii]
          rfl
      · rw [List.filter_cons_of_pos (by simpa using hex), runs_cons, hc]
        constructor
        · rw [collect, if_neg hex]
          exact hopen (Char.ofNat k)
        · intro lo
          rw [collect, if_neg hex, extend_extend hc]
          exact hopen lo

theorem collect_ascii :
    collect excluded none ascii = runs (ascii.filter (!excluded.contains ·)) := by
  have hascii : ascii = consecutive 0 128 := by
    rw [ascii, List.range_eq_range', consecutive]
  rw [hascii]
  exact (collect_consecutive excluded (Nat.zero_add 128)).1

end Pass

theorem ascii_ascending : ascii.Pairwise (·.toNat < ·.toNat) := by
  rw [ascii, List.pairwise_map]
  refine List.pairwise_lt_range.imp_of_mem fun hm hn hlt => ?_
  rw [toNat_ofNat_of_ascii (List.mem_range.1 hm), toNat_ofNat_of_ascii (List.mem_range.1 hn)]
  exact hlt

theorem countsOrdered_foldl_alternate {p : Pattern} {ps : List Pattern}
    (h : ∀ q ∈ p :: ps, q.CountsOrdered) : (ps.foldl alternate p).CountsOrdered := by
  induction ps generalizing p with
  | nil => exact h p List.mem_cons_self
  | cons q ps ih =>
      obtain ⟨hp, hrest⟩ := List.forall_mem_cons.1 h
      obtain ⟨hq, hps⟩ := List.forall_mem_cons.1 hrest
      exact ih (List.forall_mem_cons.2 ⟨⟨hp, hq⟩, hps⟩)

/-- Unless all of ASCII is excluded, the pattern is an alternation of the ranges that one pass over
ASCII collects. They are in order and apart from each other, and stand for the rest of ASCII. -/
theorem noneOf_exact (excluded : List Char) :
    ((∃ c : Char, c.toNat < 128 ∧ c ∉ excluded) → ∃ p r rs,
      noneOf? excluded = some p ∧
      p = (rs.map fun s => range s.1 s.2).foldl alternate (range r.1 r.2) ∧
      collect excluded none ascii = r :: rs ∧
      (∀ s ∈ r :: rs, s.1 ≤ s.2) ∧ Separated (r :: rs) ∧
      ∀ w : List Char, p.matchesAll w.toArray = true ↔
        ∃ c, w = [c] ∧ c.toNat < 128 ∧ c ∉ excluded) ∧
    ((∀ c : Char, c.toNat < 128 → c ∈ excluded) → noneOf? excluded = none) := by
  have hkept (c : Char) : c ∈ ascii.filter (!excluded.contains ·) ↔
      c.toNat < 128 ∧ c ∉ excluded := by
    rw [List.mem_filter, mem_ascii]
    simp
  constructor
  · rintro ⟨c, hc⟩
    obtain ⟨s, hs, -⟩ := mem_runs.2 ((hkept c).2 hc)
    obtain ⟨r, rs, hruns⟩ := List.exists_cons_of_ne_nil (List.ne_nil_of_mem hs)
    have hordered := runs_ordered (ascii.filter (!excluded.contains ·))
    have hseparated := separated_runs (ascii_ascending.filter (!excluded.contains ·))
    rw [hruns] at hordered hseparated
    have hsome : noneOf? excluded =
        some ((rs.map fun s => range s.1 s.2).foldl alternate (range r.1 r.2)) := by
      rw [noneOf?, hruns]
      rfl
    refine ⟨_, r, rs, hsome, rfl, (collect_ascii excluded).trans hruns, hordered, hseparated,
      fun w => ?_⟩
    rw [matchesAll_iff (countsOrdered_foldl_alternate fun q hq => ?_)]
    · exact symbols_noneOf hsome w
    · obtain ⟨s, -, rfl⟩ := List.mem_map.1 (show q ∈ (r :: rs).map fun s => range s.1 s.2 from hq)
      trivial
  · intro hall
    have hnil : ascii.filter (!excluded.contains ·) = [] := by
      rw [List.eq_nil_iff_forall_not_mem]
      exact fun c hc => ((hkept c).1 hc).2 (hall c ((hkept c).1 hc).1)
    rw [noneOf?, hnil]
    rfl

def slashAndStar : List Char := ['/', 'é', '*', '/']

theorem noneOf_exact_slashAndStar :
    noneOf? slashAndStar = some (alternate (alternate (range '\x00' ')') (range '+' '.'))
        (range '0' '\x7f')) ∧
      (∀ w : List Char, (alternate (alternate (range '\x00' ')') (range '+' '.'))
          (range '0' '\x7f')).matchesAll w.toArray = true ↔
        ∃ c, w = [c] ∧ c.toNat < 128 ∧ c ∉ slashAndStar) ∧
      noneOf? ascii = none := by
  have hsome : noneOf? slashAndStar = some (alternate (alternate (range '\x00' ')') (range '+' '.'))
      (range '0' '\x7f')) := rfl
  obtain ⟨p, r, rs, hp, -, -, -, -, hmatch⟩ :=
    (noneOf_exact slashAndStar).1 ⟨'a', by decide, by decide⟩
  rw [hsome] at hp
  cases hp
  exact ⟨hsome, hmatch, (noneOf_exact ascii).2 fun c hc => mem_ascii.2 hc⟩

end Munch.Pattern
