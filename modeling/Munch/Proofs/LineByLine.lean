import Munch.Proofs.LineGrammar

namespace Munch.TableText

open Text

/-- What the next line is to hold, with what the lines before it have given. -/
inductive Due where
  | flags
  | opening (accepts : List Bool)
  | state (accepts : List Bool) (states : Array (Row Nat))
  | row (accepts : List Bool) (states : Array (Row Nat))
  | binding (accepts : List Bool) (states : Array (Row Nat))
  | nothing (t : TableText)

namespace Due

def Open : Due → Prop
  | nothing _ => False
  | _ => True

def take : Due → List Char → Except LineError Due
  | flags, line => (readAcceptsLine line).map opening
  | opening accepts, line => (readStatesLine line).map fun _ => state accepts #[]
  | state accepts states, line =>
    match eat? [']'] (trimStart line) with
    | some rest => (readEnd rest).map fun _ => binding accepts states
    | none => (readNumberLine states.size (trimStart line)).map fun _ => row accepts states
  | row accepts states, line =>
    (readRowLine (trimStart line)).map fun r => state accepts (states.push r)
  | binding accepts states, line =>
    (readBindingLine line).map fun (name, typeRef) =>
      nothing ⟨name, typeRef, ⟨states, accepts.toArray⟩⟩
  | nothing t, _ => .ok (nothing t)

/-- The lines one by one, after `n` others. Those that come when nothing is due are not
looked at. -/
def readFrom (n : Nat) : Due → List (List Char) → Except TextError TableText
  | nothing t, _ => (t.automaton.check.mapError .malformed).map fun _ => t
  | _, [] => .error (.truncated n)
  | d, line :: ls => do readFrom (n + 1) (← inLine (n + 1) (d.take line)) ls

variable {d d' d'' : Due} {line : List Char} {ls : List (List Char)}

theorem inLine_map_bind {α β γ : Type} (n : Nat) (x : Except LineError α) (f : α → β)
    (g : β → Except TextError γ) :
    inLine n (x.map f) >>= g = inLine n x >>= fun a => g (f a) := by
  cases x <;> rfl

theorem readFrom_nothing (t : TableText) (n : Nat) (ls : List (List Char)) :
    (nothing t).readFrom n ls = (t.automaton.check.mapError .malformed).map fun _ => t := by
  cases ls <;> rfl

theorem readFrom_nil (h : d.Open) (n : Nat) : d.readFrom n [] = .error (.truncated n) := by
  cases d with
  | nothing t => exact h.elim
  | _ => rfl

theorem readFrom_cons (h : d.Open) (n : Nat) (line : List Char) (ls : List (List Char)) :
    d.readFrom n (line :: ls) = inLine (n + 1) (d.take line) >>= (readFrom (n + 1) · ls) := by
  cases d with
  | nothing t => exact h.elim
  | _ => rfl

theorem readFrom_state (accepts : List Bool) (n : Nat) (states : Array (Row Nat))
    (ls : List (List Char)) :
    (state accepts states).readFrom n ls =
      readStates n states ls >>= fun r => (binding accepts r.1).readFrom r.2.1 r.2.2 := by
  -- On the number of lines, since a state takes two of them.
  induction hlen : ls.length using Nat.strongRecOn generalizing n states ls with
  | ind len ih =>
    cases ls with
    | nil => rfl
    | cons line ls =>
        rw [readFrom_cons (d := state accepts states) trivial, take, readStates.eq_def]
        dsimp only
        cases eat? [']'] (trimStart line) with
        | some rest =>
            dsimp only
            rw [inLine_map_bind, bind_assoc]
            rfl
        | none =>
            dsimp only
            rw [inLine_map_bind, bind_assoc]
            congr 1
            funext _
            cases ls with
            | nil => rfl
            | cons line' ls =>
                rw [readFrom_cons (d := row accepts states) trivial, take, inLine_map_bind]
                dsimp only
                rw [bind_assoc]
                congr 1
                funext r
                apply ih ls.length _ (n + 2) (states.push r) ls rfl
                simp only [List.length_cons] at hlen
                omega

theorem readLines_eq_readFrom (ls : List (List Char)) : readLines ls = flags.readFrom 0 ls := by
  cases ls with
  | nil => rfl
  | cons line ls =>
      rw [readFrom_cons (d := flags) trivial, take, inLine_map_bind, readLines]
      congr 1
      funext accepts
      cases ls with
      | nil => rfl
      | cons line ls =>
          rw [readFrom_cons (d := opening accepts) trivial, take, inLine_map_bind]
          dsimp only
          congr 1
          funext _
          rw [readFrom_state]
          congr 1
          funext r
          obtain ⟨states, n, ls⟩ := r
          cases ls with
          | nil => rfl
          | cons line ls =>
              dsimp only
              rw [readFrom_cons (d := binding accepts states) trivial, take, inLine_map_bind]
              congr 1
              funext b
              obtain ⟨name, typeRef⟩ := b
              rw [readFrom_nothing]
              exact (map_eq_pure_bind _ _).symm

/-- All the lines are read, and then something else is due. -/
inductive Takes : Due → List (List Char) → Due → Prop
  | nil (d : Due) : Takes d [] d
  | cons {d d' d'' : Due} {line : List Char} {ls : List (List Char)} (hopen : d.Open)
      (hline : d.take line = .ok d') (h : Takes d' ls d'') : Takes d (line :: ls) d''

theorem Takes.readFrom_append (h : d.Takes ls d') (n : Nat) (more : List (List Char)) :
    d.readFrom n (ls ++ more) = d'.readFrom (n + ls.length) more := by
  induction h generalizing n with
  | nil d => rfl
  | @cons _ _ _ line ls hopen hline h ih =>
      rw [List.cons_append, readFrom_cons hopen, hline, List.length_cons, Nat.add_comm ls.length 1,
        ← Nat.add_assoc]
      exact ih (n + 1)

theorem Takes.split {before : List (List Char)} (h : d.Takes (before ++ line :: ls) d'') :
    ∃ between d', d.Takes before between ∧ between.Open ∧ between.take line = .ok d' ∧
      d'.Takes ls d'' := by
  induction before generalizing d with
  | nil =>
      obtain - | ⟨hopen, hline, h⟩ := h
      exact ⟨d, _, .nil d, hopen, hline, h⟩
  | cons first before ih =>
      obtain - | ⟨hopen, hfirst, h⟩ := h
      obtain ⟨between, d', hbefore, hbetween, hline, hrest⟩ := ih h
      exact ⟨between, d', .cons hopen hfirst hbefore, hbetween, hline, hrest⟩

theorem open_or_eq_nothing (d : Due) : d.Open ∨ ∃ t, d = nothing t := by
  cases d with
  | nothing t => exact .inr ⟨t, rfl⟩
  | _ => exact .inl trivial

theorem eq_of_readFrom_nothing {n : Nat} {t t' : TableText}
    (h : (nothing t).readFrom n ls = .ok t') : t' = t := by
  rw [readFrom_nothing] at h
  obtain ⟨-, -, rfl⟩ := map_eq_ok_iff.1 h
  rfl

theorem takes_cases (d : Due) (ls : List (List Char)) :
    (∃ used rest t, ls = used ++ rest ∧ d.Takes used (nothing t)) ∨
      (∃ before line after d' e, ls = before ++ line :: after ∧ d.Takes before d' ∧ d'.Open ∧
        d'.take line = .error e) ∨
      ∃ d', d.Takes ls d' ∧ d'.Open := by
  induction ls generalizing d with
  | nil =>
      rcases d.open_or_eq_nothing with hopen | ⟨t, rfl⟩
      · exact .inr (.inr ⟨d, .nil d, hopen⟩)
      · exact .inl ⟨[], [], t, rfl, .nil _⟩
  | cons line ls ih =>
      rcases d.open_or_eq_nothing with hopen | ⟨t, rfl⟩
      · cases hline : d.take line with
        | error e => exact .inr (.inl ⟨[], line, ls, d, e, rfl, .nil d, hopen, hline⟩)
        | ok next =>
            rcases ih next with ⟨used, rest, t, rfl, h⟩ |
              ⟨before, wrong, after, d', e, rfl, h, hopen', hwrong⟩ | ⟨d', h, hopen'⟩
            · exact .inl ⟨line :: used, rest, t, rfl, .cons hopen hline h⟩
            · exact .inr (.inl ⟨line :: before, wrong, after, d', e, rfl, .cons hopen hline h,
                hopen', hwrong⟩)
            · exact .inr (.inr ⟨d', .cons hopen hline h, hopen'⟩)
      · exact .inl ⟨[], line :: ls, t, rfl, .nil _⟩

theorem Takes.readFrom_whole {t : TableText} (h : d.Takes ls (nothing t)) (n : Nat)
    (rest : List (List Char)) : d.readFrom n (ls ++ rest) = .ok t ∨
      ∃ defect, d.readFrom n (ls ++ rest) = .error (.malformed defect) := by
  rw [h.readFrom_append, readFrom_nothing]
  cases t.automaton.check with
  | error defect => exact .inr ⟨defect, rfl⟩
  | ok => exact .inl rfl

theorem Takes.readFrom_wrong {e : LineError} (h : d.Takes ls d') (hopen : d'.Open)
    (hline : d'.take line = .error e) (n : Nat) (after : List (List Char)) :
    d.readFrom n (ls ++ line :: after) = .error (.inLine (n + ls.length + 1) e) := by
  rw [h.readFrom_append, readFrom_cons hopen, hline]
  rfl

theorem Takes.readFrom_short (h : d.Takes ls d') (hopen : d'.Open) (n : Nat) :
    d.readFrom n ls = .error (.truncated (n + ls.length)) := by
  have hread := h.readFrom_append n []
  rwa [List.append_nil, readFrom_nil hopen] at hread

theorem exists_takes_of_readFrom {n : Nat} {t : TableText} (h : d.readFrom n ls = .ok t) :
    ∃ used rest, ls = used ++ rest ∧ d.Takes used (nothing t) := by
  rcases d.takes_cases ls with ⟨used, rest, t', rfl, hused⟩ |
    ⟨before, line, after, d', e, rfl, hbefore, hopen, hline⟩ | ⟨d', htakes, hopen⟩
  · rw [hused.readFrom_append] at h
    obtain rfl := eq_of_readFrom_nothing h
    exact ⟨used, rest, rfl, hused⟩
  · rw [hbefore.readFrom_wrong hopen hline] at h
    cases h
  · rw [htakes.readFrom_short hopen] at h
    cases h

theorem eq_binding_of_take {t : TableText} (hopen : d.Open) (h : d.take line = .ok (nothing t)) :
    ∃ accepts states, d = binding accepts states := by
  cases d with
  | flags | opening | row =>
      obtain ⟨_, -, he⟩ := map_eq_ok_iff.1 h
      cases he
  | state accepts states =>
      rw [take] at h
      split at h
      all_goals
        obtain ⟨_, -, he⟩ := map_eq_ok_iff.1 h
        cases he
  | binding accepts states => exact ⟨accepts, states, rfl⟩
  | nothing t => exact hopen.elim

theorem Takes.eq_nil {t : TableText} (h : (nothing t).Takes ls d) : ls = [] := by
  cases h with
  | nil => rfl
  | cons hopen => exact hopen.elim

theorem Takes.readFrom_before {before : List (List Char)}
    (h : d.Takes (before ++ line :: ls) d'') (n : Nat) :
    d.readFrom n before = .error (.truncated (n + before.length)) := by
  obtain ⟨between, d', hbefore, hopen, -, -⟩ := h.split
  exact hbefore.readFrom_short hopen n

/-- A line stands in the place of another, and nothing follows. Both are taken for bindings only if
the other is the last one. -/
theorem Takes.readFrom_instead {before : List (List Char)} {t : TableText} {part : List Char}
    (h : d.Takes (before ++ line :: ls) (nothing t))
    (hbinding : ∀ b b', readBindingLine part = .ok b → readBindingLine line = .ok b' → ls ≠ [])
    (n : Nat) :
    d.readFrom n (before ++ [part]) = .error (.truncated (n + before.length + 1)) ∨
      ∃ e, d.readFrom n (before ++ [part]) = .error (.inLine (n + before.length + 1) e) := by
  obtain ⟨between, d', hbefore, hopen, hline, hrest⟩ := h.split
  rw [hbefore.readFrom_append, readFrom_cons hopen]
  cases hpart : between.take part with
  | error e => exact .inr ⟨e, rfl⟩
  | ok next =>
      left
      rcases next.open_or_eq_nothing with hnext | ⟨t', rfl⟩
      · exact readFrom_nil hnext _
      · obtain ⟨accepts, states, rfl⟩ := eq_binding_of_take hopen hpart
        obtain ⟨b, hb, -⟩ := map_eq_ok_iff.1 hpart
        obtain ⟨b', hb', rfl⟩ := map_eq_ok_iff.1 hline
        exact absurd hrest.eq_nil (hbinding b b' hb hb')

end Due

end Munch.TableText
