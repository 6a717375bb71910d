import Munch.Proofs.Follow

namespace Munch

namespace Automaton

variable {a : Automaton}

theorem strayMove?_eq_none_iff : a.strayMove? = none ↔ a.InRange := by
  rw [strayMove?, List.findSome?_eq_none_iff]
  constructor
  · intro h q c r hr
    obtain ⟨row, hrow, hget⟩ := Option.bind_eq_some_iff.1 hr
    have hmem : (row, q) ∈ a.states.toList.zipIdx := by
      rw [List.mem_zipIdx_iff_getElem?, Array.getElem?_toList]
      exact hrow
    have hnone := h (row, q) hmem
    rw [Option.map_eq_none_iff, List.find?_eq_none] at hnone
    simpa using hnone (c, r) (Row.mem_entries_iff.2 hget)
  · rintro h ⟨row, q⟩ hmem
    rw [List.mem_zipIdx_iff_getElem?, Array.getElem?_toList] at hmem
    rw [Option.map_eq_none_iff, List.find?_eq_none]
    rintro ⟨c, r⟩ he
    have hnext : a.next q c = some r := by
      rw [next, hmem]
      exact Row.mem_entries_iff.1 he
    simpa using h q c r hnext

theorem check_eq_ok_iff :
    a.check = .ok () ↔ 0 < a.states.size ∧ a.accepts.size = a.states.size ∧ a.InRange := by
  rw [← strayMove?_eq_none_iff, check, Array.isEmpty, Nat.pos_iff_ne_zero]
  by_cases hsize : a.states.size = 0
  · simp [hsize]
  · by_cases hflags : a.accepts.size = a.states.size
    · cases a.strayMove? <;> simp [hsize, hflags]
    · simp [hsize, hflags]

theorem target_lt (h : a.check = .ok ()) {r : Row Nat} {q : Nat} (hr : a.states[q]? = some r) :
    ∀ e ∈ r.entries, e.2 < a.states.size := by
  obtain ⟨-, -, hrange⟩ := check_eq_ok_iff.1 h
  rintro ⟨c, target⟩ he
  apply hrange q c
  rw [next, hr, Option.bind_some]
  exact Row.mem_entries_iff.1 he

theorem isAccepting?_of_lt (h : a.check = .ok ()) {q : Nat} (hq : q < a.states.size) :
    ∃ b, a.isAccepting? q = .ok b := by
  obtain ⟨-, hflags, -⟩ := check_eq_ok_iff.1 h
  refine ⟨a.accepts[q], ?_⟩
  rw [isAccepting?, Array.getElem?_eq_getElem]

/-- A run has read a token, or it has read nothing or does not end in an accepting state. -/
theorem closes_cases (h : a.check = .ok ()) (cs : List Char) :
    (a.closes (a.run 0 cs) = .ok true ∧ 0 < (a.run 0 cs).length ∧
        a.isAccepting? (a.run 0 cs).state = .ok true) ∨
      (a.closes (a.run 0 cs) = .ok false ∧
        ((a.run 0 cs).length = 0 ∨ a.isAccepting? (a.run 0 cs).state = .ok false)) := by
  obtain ⟨hpos, -, hrange⟩ := check_eq_ok_iff.1 h
  have hlt : (a.run 0 cs).state < a.states.size := state_run_lt hrange hpos
  obtain ⟨b, hb⟩ := isAccepting?_of_lt h hlt
  rw [closes_run hrange hpos, hb]
  cases b with
  | false => exact .inr ⟨rfl, .inr rfl⟩
  | true =>
      rcases Nat.eq_zero_or_pos (a.run 0 cs).length with hzero | hread
      · right
        rw [hzero]
        exact ⟨rfl, .inl rfl⟩
      · left
        refine ⟨?_, hread, rfl⟩
        rw [decide_eq_true hread]
        rfl

end Automaton

namespace Tables

variable {t : Tables}

theorem check_eq_ok_iff :
    t.check = .ok () ↔ t.automaton.check = .ok () ∧ t.ruleOf.size = t.automaton.states.size := by
  rw [check]
  cases t.automaton.check with
  | error e => simp [bind, Except.bind]
  | ok u =>
      by_cases hsize : t.ruleOf.size = t.automaton.states.size <;> simp [bind, Except.bind, hsize]

end Tables

end Munch
