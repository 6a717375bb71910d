import Mathlib.Data.List.Basic
import Munch.Dfa
import Munch.Proofs.Row
import Munch.Proofs.Run

namespace Munch.Automaton

variable (a : Automaton)

def follow (q : Nat) : List Char → Option Nat
  | [] => some q
  | c :: cs => (a.next q c).bind (follow · cs)

/-- Like `follow`, but fails on looking at a state that does not exist. -/
def follow? (q : Nat) : List Char → Except Dangling (Option Nat)
  | [] => .ok (some q)
  | c :: cs =>
    match a.next? q c with
    | .error d => .error d
    | .ok none => .ok none
    | .ok (some q) => follow? q cs

def InRange : Prop := ∀ q c r, a.next q c = some r → r < a.states.size

variable {a}

theorem follow_append (q : Nat) (u v : List Char) :
    a.follow q (u ++ v) = (a.follow q u).bind (a.follow · v) := by
  induction u generalizing q with
  | nil => rfl
  | cons c u ih =>
      rw [List.cons_append, follow, follow]
      cases a.next q c with
      | none => rfl
      | some r => exact ih r

theorem follow_singleton (q : Nat) (c : Char) : a.follow q [c] = a.next q c := by
  rw [follow]
  cases a.next q c <;> rfl

theorem follow_concat (q : Nat) (u : List Char) (c : Char) :
    a.follow q (u ++ [c]) = (a.follow q u).bind (a.next · c) := by
  rw [follow_append]
  congr 1
  funext r
  exact follow_singleton r c

theorem follow_lt (h : a.InRange) {q r : Nat} {w : List Char} (hq : q < a.states.size)
    (hr : a.follow q w = some r) : r < a.states.size := by
  induction w generalizing q with
  | nil =>
      cases hr
      exact hq
  | cons c w ih =>
      obtain ⟨p, hp, hr⟩ := Option.bind_eq_some_iff.1 hr
      exact ih (h q c p hp) hr

theorem next?_eq {q : Nat} (hq : q < a.states.size) (c : Char) :
    a.next? q c = .ok (a.next q c) := by
  rw [next?, next, Array.getElem?_eq_getElem hq]
  rfl

theorem follow?_eq (h : a.InRange) {q : Nat} (hq : q < a.states.size) (w : List Char) :
    a.follow? q w = .ok (a.follow q w) := by
  induction w generalizing q with
  | nil => rfl
  | cons c w ih =>
      rw [follow?, next?_eq hq, follow]
      cases hc : a.next q c with
      | none => rfl
      | some r => exact ih (h q c r hc)

/-- A run reads the longest prefix that can be followed. -/
theorem run_spec (q : Nat) (cs : List Char) :
    a.follow q (cs.take (a.run q cs).length) = some (a.run q cs).state ∧
      (a.run q cs).rest = cs.drop (a.run q cs).length ∧
      ∀ c rest, (a.run q cs).rest = c :: rest → a.next (a.run q cs).state c = none := by
  fun_induction run a q cs with
  | case1 q => exact ⟨rfl, rfl, fun c rest h => by cases h⟩
  | case2 q c cs hc =>
      refine ⟨rfl, rfl, ?_⟩
      rintro d rest ⟨⟩
      exact hc
  | case3 q c cs r hr s ih =>
      obtain ⟨hfollow, hrest, hstop⟩ := ih
      refine ⟨?_, hrest, hstop⟩
      rw [List.take_succ_cons, follow, hr]
      exact hfollow

theorem le_length_run {q r n : Nat} {cs : List Char} (hn : n ≤ cs.length)
    (h : a.follow q (cs.take n) = some r) : n ≤ (a.run q cs).length := by
  induction cs generalizing q n with
  | nil => exact hn
  | cons c cs ih =>
      cases n with
      | zero => exact Nat.zero_le _
      | succ n =>
          rw [List.take_succ_cons, follow] at h
          obtain ⟨p, hp, h⟩ := Option.bind_eq_some_iff.1 h
          rw [run, hp]
          exact Nat.succ_le_succ (ih (Nat.le_of_succ_le_succ hn) h)

theorem state_run_lt (h : a.InRange) {q : Nat} {cs : List Char} (hq : q < a.states.size) :
    (a.run q cs).state < a.states.size := follow_lt h hq (a.run_spec q cs).1

theorem closes_run (h : a.InRange) {q : Nat} {cs : List Char} (hq : q < a.states.size) :
    a.closes (a.run q cs) =
      (a.isAccepting? (a.run q cs).state).map (· && 0 < (a.run q cs).length) := by
  rw [closes, flagAt, if_neg]
  simp [state_run_lt h hq]

theorem next?_of_next {q r : Nat} {c : Char} (h : a.next q c = some r) :
    a.next? q c = .ok (some r) := by
  obtain ⟨row, hrow, hget⟩ := Option.bind_eq_some_iff.1 h
  rw [next?, hrow]
  exact congrArg Except.ok hget

theorem acceptsFrom_of_follow {q r : Nat} {cs : List Char} (h : a.follow q cs = some r) :
    a.acceptsFrom q cs = a.isAccepting? r := by
  induction cs generalizing q with
  | nil =>
      cases h
      rfl
  | cons c cs ih =>
      obtain ⟨p, hp, hr⟩ := Option.bind_eq_some_iff.1 h
      rw [acceptsFrom, next?_of_next hp]
      exact ih hr

theorem acceptsFrom_of_stuck (h : a.InRange) {q : Nat} (hq : q < a.states.size) {cs : List Char}
    (hcs : a.follow q cs = none) : a.acceptsFrom q cs = .ok false := by
  induction cs generalizing q with
  | nil => cases hcs
  | cons c cs ih =>
      rw [acceptsFrom, next?_eq hq]
      rw [follow] at hcs
      cases hc : a.next q c with
      | none => rfl
      | some r =>
          rw [hc] at hcs
          exact ih (h q c r hc) hcs

theorem acceptsWord_of_follow {cs : List Char} {q : Nat} (h : a.follow 0 cs = some q) :
    a.acceptsWord cs = a.isAccepting? q := acceptsFrom_of_follow h

theorem acceptsWord_of_stuck (h : a.InRange) (hpos : 0 < a.states.size) {cs : List Char}
    (hcs : a.follow 0 cs = none) : a.acceptsWord cs = .ok false := acceptsFrom_of_stuck h hpos hcs

end Munch.Automaton

namespace Munch.Dfa

variable (d : Dfa)

theorem next_automaton (q : Nat) (c : Char) :
    d.automaton.next q c = d.states[q]?.bind (·.next.get? c) := by
  rw [Automaton.next, automaton, Array.getElem?_map]
  cases d.states[q]? <;> rfl

theorem size_automaton : d.automaton.states.size = d.states.size := Array.size_map

variable {d} in
theorem inRange_automaton_iff :
    d.automaton.InRange ↔ ∀ s ∈ d.states, ∀ e ∈ s.next.entries, e.2 < d.states.size := by
  rw [Automaton.InRange, size_automaton]
  constructor
  · rintro h s hs ⟨c, r⟩ he
    obtain ⟨q, hq⟩ := Array.mem_iff_getElem?.1 hs
    apply h q c
    rw [next_automaton, hq]
    exact Row.mem_entries_iff.1 he
  · intro h q c r hr
    rw [next_automaton] at hr
    obtain ⟨s, hs, hget⟩ := Option.bind_eq_some_iff.1 hr
    exact h s (Array.mem_of_getElem? hs) (c, r) (Row.mem_entries_iff.2 hget)

end Munch.Dfa
