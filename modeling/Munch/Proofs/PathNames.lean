import Mathlib.Data.List.TakeWhile
import Munch.Command.Path

namespace Munch.Path

/-- The path ends with a name, in a directory that is written with its slash or left out. -/
structure Named (path dir name : List Char) : Prop where
  eq : path = dir ++ name
  dir : dir = [] ∨ ∃ up, dir = up ++ ['/']
  name : '/' ∉ name

theorem exists_named (path : List Char) : ∃ dir name, Named path dir name := by
  refine ⟨(path.reverse.dropWhile (· ≠ '/')).reverse, (path.reverse.takeWhile (· ≠ '/')).reverse,
    ?_, ?_, ?_⟩
  · rw [← List.reverse_append, List.takeWhile_append_dropWhile, List.reverse_reverse]
  · cases hdir : path.reverse.dropWhile (· ≠ '/') with
    | nil => exact .inl rfl
    | cons c cs =>
        have hc := List.head?_dropWhile_not (· ≠ '/') path.reverse
        rw [hdir] at hc
        obtain rfl : c = '/' := by simpa using hc
        exact .inr ⟨cs.reverse, List.reverse_cons⟩
  · rw [List.mem_reverse]
    intro hmem
    simpa using List.mem_takeWhile_imp hmem

theorem split_of_not_mem {name : List Char} (h : '/' ∉ name) : split name = [name] := by
  induction name with
  | nil => rfl
  | cons c name ih =>
      rw [List.mem_cons, not_or] at h
      rw [split, ih h.2]
      exact if_neg (Ne.symm h.1)

theorem exists_split_eq_cons (path : List Char) : ∃ part parts, split path = part :: parts := by
  cases path with
  | nil => exact ⟨[], [], rfl⟩
  | cons c path =>
      rw [split]
      split
      · exact ⟨_, _, rfl⟩
      · split <;> exact ⟨_, _, rfl⟩

theorem split_append_slash (up rest : List Char) :
    split (up ++ '/' :: rest) = split up ++ split rest := by
  induction up with
  | nil =>
      obtain ⟨part, parts, hrest⟩ := exists_split_eq_cons rest
      simp [split, hrest]
  | cons c up ih =>
      obtain ⟨part, parts, hup⟩ := exists_split_eq_cons up
      rw [List.cons_append, split, split, ih, hup, List.cons_append]
      dsimp only
      split <;> rfl

def way (dir : List Char) : List (List Char) := (split dir).dropLast

theorem dropBack_eq_self {cs : List Char} (hslash : cs.head? ≠ some '/')
    (hdot : ∀ rest, cs ≠ '.' :: '/' :: rest) : dropBack cs = cs := by
  fun_cases dropBack cs with
  | case1 rest => exact absurd rfl (hdot rest)
  | case2 c rest => exact absurd rfl hslash
  | case3 => rfl

section Named

variable {path dir name : List Char} (h : Named path dir name)

include h

theorem Named.split_eq : split path = way dir ++ [name] := by
  obtain ⟨rfl, rfl | ⟨up, rfl⟩, hname⟩ := h
  · exact split_of_not_mem hname
  · have hway : way (up ++ ['/']) = split up := by
      rw [way, split_append_slash]
      exact List.dropLast_concat
    rw [hway, List.append_assoc, List.singleton_append, split_append_slash, split_of_not_mem hname]

theorem Named.head?_eq_slash_iff : path.head? = some '/' ↔ dir.head? = some '/' := by
  obtain ⟨rfl, rfl | ⟨up, rfl⟩, hname⟩ := h
  · exact iff_of_false (fun hslash => hname (List.mem_of_head? hslash)) (by simp)
  · rw [List.append_assoc, List.head?_append, List.head?_append]
    cases up <;> simp

variable (hne : name ≠ []) (hdot : name ≠ ['.'])

include hne hdot

theorem Named.trimmed_eq : trimmed path = path := by
  obtain ⟨rfl, -, hname⟩ := h
  obtain ⟨cs, rfl⟩ : ∃ cs, name = cs.reverse := ⟨name.reverse, (List.reverse_reverse name).symm⟩
  rw [List.mem_reverse] at hname
  have hself : dropBack (cs ++ dir.reverse) = cs ++ dir.reverse := by
    rcases cs with _ | ⟨c, _ | ⟨d, cs⟩⟩
    · exact absurd rfl hne
    · apply dropBack_eq_self
      · rintro ⟨⟩
        simp at hname
      · intro rest heq
        exact hdot (by rw [(List.cons.inj heq).1]; rfl)
    · apply dropBack_eq_self
      · rintro ⟨⟩
        simp at hname
      · rintro rest ⟨⟩
        simp at hname
  rw [trimmed, List.reverse_append, List.reverse_reverse, hself, List.reverse_append,
    List.reverse_reverse]

theorem Named.lastPart_eq : lastPart path = name := by
  rw [lastPart, h.trimmed_eq hne hdot]
  obtain ⟨rfl, hdir, hname⟩ := h
  have hrev : ∀ c ∈ name.reverse, decide (c ≠ '/') = true := by
    intro c hc
    exact decide_eq_true fun heq => hname (heq ▸ List.mem_reverse.1 hc)
  rw [List.reverse_append, List.takeWhile_append_of_pos hrev]
  obtain rfl | ⟨up, rfl⟩ := hdir
  · simp
  · simp

end Named

theorem stem_isPrefix (name : List Char) : stem name <+: name := by
  have hbefore : (name.reverse.dropWhile (· ≠ '.')).reverse <+: name := by
    rw [← List.reverse_suffix, List.reverse_reverse]
    exact List.dropWhile_suffix _
  unfold stem
  split
  · exact List.prefix_rfl
  · exact List.prefix_rfl
  · exact (List.dropLast_prefix _).trans hbefore

/-- Only the name changes with the extension. -/
theorem Named.withExtension {path dir name ext : List Char} (h : Named path dir name)
    (hname : name ∉ [[], ['.'], ['.', '.']]) (hext : '/' ∉ ext) :
    Named (withExtension path ext) dir (stem name ++ '.' :: ext) := by
  have hne : name ≠ [] := fun heq => by simp [heq] at hname
  have hdot : name ≠ ['.'] := fun heq => by simp [heq] at hname
  refine ⟨?_, h.dir, ?_⟩
  · rw [Path.withExtension, h.lastPart_eq hne hdot, h.trimmed_eq hne hdot, if_neg hname]
    dsimp only
    rw [h.eq, List.length_append, Nat.add_sub_cancel, List.take_left, List.append_assoc]
  · rw [List.mem_append, List.mem_cons]
    rintro (hstem | hdot | hmem)
    · exact h.name ((stem_isPrefix name).subset hstem)
    · cases hdot
    · exact hext hmem

end Munch.Path
