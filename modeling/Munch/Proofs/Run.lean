import Munch.Scan

namespace Munch

namespace Automaton

structure Stop where
  state : Nat
  length : Nat
  rest : List Char

variable (a : Automaton)

def next (q : Nat) (c : Char) : Option Nat := a.states[q]?.bind (·.get? c)

def run (q : Nat) : List Char → Stop
  | [] => ⟨q, 0, []⟩
  | c :: cs =>
    match a.next q c with
    | none => ⟨q, 0, c :: cs⟩
    | some q =>
      let s := run q cs
      ⟨s.state, s.length + 1, s.rest⟩

def flagAt (s : Stop) : Except Dangling Bool :=
  if !s.rest.isEmpty && a.states.size ≤ s.state then .error ⟨s.state⟩ else a.isAccepting? s.state

def closes (s : Stop) : Except Dangling Bool := (a.flagAt s).map (· && 0 < s.length)

theorem length_run (q : Nat) (cs : List Char) :
    (a.run q cs).length + (a.run q cs).rest.length = cs.length := by
  fun_induction run a q cs with
  | case1 => rfl
  | case2 => simp
  | case3 q c cs q' hq s ih =>
      have h : s.length + s.rest.length = cs.length := ih
      simp only [List.length_cons]
      omega

theorem run_cons_cases (q : Nat) (c : Char) (cs : List Char) :
    (a.next? q c = .error ⟨q⟩ ∧ a.run q (c :: cs) = ⟨q, 0, c :: cs⟩ ∧
        a.flagAt ⟨q, 0, c :: cs⟩ = .error ⟨q⟩) ∨
      (a.next? q c = .ok none ∧ a.run q (c :: cs) = ⟨q, 0, c :: cs⟩ ∧
        a.flagAt ⟨q, 0, c :: cs⟩ = a.isAccepting? q) ∨
      ∃ r, a.next? q c = .ok (some r) ∧
        a.run q (c :: cs) = ⟨(a.run r cs).state, (a.run r cs).length + 1, (a.run r cs).rest⟩ := by
  rw [next?, run, next, flagAt]
  cases hq : a.states[q]? with
  | none =>
      have hsize : a.states.size ≤ q := Array.getElem?_eq_none_iff.1 hq
      refine .inl ⟨rfl, rfl, ?_⟩
      simp [hsize]
  | some row =>
      obtain ⟨hlt, -⟩ := Array.getElem?_eq_some_iff.1 hq
      rw [Option.bind_some]
      cases hc : row.get? c with
      | none =>
          refine .inr (.inl ⟨congrArg _ hc, rfl, ?_⟩)
          simp [Nat.not_le.2 hlt]
      | some r => exact .inr (.inr ⟨r, congrArg _ hc, rfl⟩)

variable {a} {input cs : List Char} {pos q i : Nat}

theorem longestFrom_eq_run (hi : i + cs.length = input.length) :
    a.longestFrom input pos q i cs = (a.flagAt (a.run q cs)).map fun flag =>
      if flag && pos < i + (a.run q cs).length then some (i + (a.run q cs).length) else none := by
  induction cs generalizing q i with
  | nil =>
      rw [List.length_nil, Nat.add_zero] at hi
      rw [hi]
      rfl
  | cons c cs ih =>
      rw [longestFrom]
      rcases a.run_cons_cases q c cs with ⟨hnext, hrun, hflag⟩ | ⟨hnext, hrun, hflag⟩ |
        ⟨r, hnext, hrun⟩
      · rw [hnext, hrun, hflag]
        rfl
      · rw [hnext, hrun, hflag]
        rfl
      · rw [List.length_cons] at hi
        have hstop : i + ((a.run r cs).length + 1) = i + 1 + (a.run r cs).length := by omega
        rw [hnext, hrun]
        dsimp only
        rw [ih (by omega), hstop]
        rfl

/-- The longest match reads as far as a run. At its end the test of the whole input against the
offset is the test that something has been read. -/
theorem longestMatch_eq_run (input : List Char) (pos : Nat) : a.longestMatch input pos =
    (a.closes (a.run 0 (input.drop pos))).map fun closed =>
      if closed then some (pos + (a.run 0 (input.drop pos)).length) else none := by
  rw [longestMatch, closes]
  rcases Nat.le_total pos input.length with hle | hle
  · have hi : pos + (input.drop pos).length = input.length := by
      rw [List.length_drop]
      omega
    rw [longestFrom_eq_run hi]
    cases a.flagAt (a.run 0 (input.drop pos)) with
    | error d => rfl
    | ok flag => simp [Except.map]
  · rw [List.drop_eq_nil_of_le hle, longestFrom, run, flagAt]
    cases a.isAccepting? 0 with
    | error d => rfl
    | ok flag => simp [Except.map, Nat.not_lt.2 hle]

end Automaton

namespace Cursor

variable {a : Automaton} {start q position : Nat} {cs : List Char}

/-- At the end of the input the scanner does not look at the length of the token: it is not empty, as
the loop began before the end. -/
theorem readToken_eq_run (hle : start ≤ position) (hend : cs = [] → start < position) :
    readToken a start q position cs =
      let s := a.run q cs
      let stop := position + s.length
      (a.flagAt s).map fun flag =>
        (if flag && start < stop then .ok ⟨start, stop, s.state⟩
          else .error ⟨start, stop, .ofRest s.rest⟩, stop, s.rest) := by
  induction cs generalizing q position with
  | nil =>
      have hflag : a.flagAt (a.run q []) = a.isAccepting? q := rfl
      rw [readToken]
      dsimp only
      rw [hflag, Automaton.run]
      simp [hend rfl, Cause.ofRest]
  | cons c cs ih =>
      rw [readToken]
      rcases a.run_cons_cases q c cs with ⟨hnext, hrun, hflag⟩ | ⟨hnext, hrun, hflag⟩ |
        ⟨r, hnext, hrun⟩
      · rw [hnext, hrun]
        dsimp only
        rw [hflag]
        rfl
      · rw [hnext, hrun]
        dsimp only
        rw [hflag]
        rfl
      · have hstop : position + ((a.run r cs).length + 1) = position + 1 + (a.run r cs).length := by
          omega
        rw [hnext, hrun]
        dsimp only
        rw [ih (Nat.le_succ_of_le hle) fun _ => Nat.lt_succ_of_le hle, hstop]
        rfl

theorem next_eq_run (cur : Cursor) : cur.next a =
    if cur.failed || cur.rest.isEmpty then .ok (none, cur)
    else
      let s := a.run 0 cur.rest
      let stop := cur.position + s.length
      (a.closes s).map fun closed =>
        if closed then (some (.ok ⟨cur.position, stop, s.state⟩), ⟨stop, s.rest, false⟩)
        else (some (.error ⟨cur.position, stop, .ofRest s.rest⟩), ⟨stop, s.rest, true⟩) := by
  rw [next]
  by_cases hend : (cur.failed || cur.rest.isEmpty) = true
  · rw [if_pos hend, if_pos hend]
  · have hne : cur.rest = [] → cur.position < cur.position := by
      intro hnil
      rw [hnil, List.isEmpty_nil, Bool.or_true] at hend
      exact absurd rfl hend
    rw [if_neg hend, if_neg hend, readToken_eq_run (Nat.le_refl _) hne]
    dsimp only
    rw [Automaton.closes]
    cases a.flagAt (a.run 0 cur.rest) with
    | error d => rfl
    | ok flag =>
        by_cases hclosed : (flag && decide (0 < (a.run 0 cur.rest).length)) = true
        · simp [Except.map, Except.isOk, Except.toBool, hclosed]
        · simp [Except.map, Except.isOk, Except.toBool, hclosed]

end Cursor

end Munch
