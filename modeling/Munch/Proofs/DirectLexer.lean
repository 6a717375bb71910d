import Mathlib.Data.List.TakeWhile
import Munch.Lexeme

namespace Munch.Direct

def isIdentStart (c : Char) : Bool := c.isAlpha || c == '_'

def isIdentRest (c : Char) : Bool := isIdentStart c || c.isDigit

def isAscii (c : Char) : Bool := c.toNat < 128

def isLineSymbol (c : Char) : Bool := isAscii c && c != '\n'

/-- What stands at the front of an input: a token, or the symbols that are read before a failure. -/
inductive Front where
  | token (kind : TokenKind) (length : Nat)
  | failure (length : Nat) (cause : Cause)

namespace Front

def length : Front → Nat
  | token _ n | failure n _ => n

def after (n : Nat) : Front → Front
  | token k m => token k (m + n)
  | failure m cause => failure (m + n) cause

@[simp] theorem length_after (f : Front) (n : Nat) : (f.after n).length = f.length + n := by
  cases f <;> rfl

@[simp] theorem after_zero (f : Front) : f.after 0 = f := by
  cases f <;> rfl

@[simp] theorem after_after (f : Front) (n m : Nat) : (f.after n).after m = f.after (n + m) := by
  cases f <;> simp [after, Nat.add_assoc]

theorem after_eq_token {f : Front} {k : TokenKind} {n m : Nat} (h : f.after n = token k m) :
    ∃ l, f = token k l ∧ m = l + n := by
  cases f with
  | token k' l =>
      cases h
      exact ⟨l, rfl, rfl⟩
  | failure l cause => cases h

theorem after_eq_failure {f : Front} {cause : Cause} {n m : Nat} (h : f.after n = failure m cause) :
    ∃ l, f = failure l cause ∧ m = l + n := by
  cases f with
  | token k l => cases h
  | failure l cause' =>
      cases h
      exact ⟨l, rfl, rfl⟩

end Front

/-- A block comment from behind its opening on. It ends with the first closing mark, and all that
stands before that is ASCII. -/
def closing : List Char → Front
  | [] => .failure 0 .endOfInput
  | c :: cs =>
    if c = '*' ∧ cs.head? = some '/' then .token .blockComment 2
    else if isAscii c then (closing cs).after 1
    else .failure 0 (.symbol c)

def pair? : Char → Char → Option TokenKind
  | '<', '=' => some .le
  | '>', '=' => some .ge
  | '=', '=' => some .eqEq
  | '&', '&' => some .andAnd
  | '|', '|' => some .orOr
  | '<', '>' => some .angleGeneric
  | _, _ => none

def single? : Char → Option TokenKind
  | '(' => some .lParen
  | ')' => some .rParen
  | '+' => some .plus
  | '-' => some .minus
  | '*' => some .star
  | '/' => some .slash
  | '=' => some .assign
  | '<' => some .lt
  | '>' => some .gt
  | '!' => some .not
  | '[' => some .lBracket
  | ']' => some .rBracket
  | '{' => some .lBrace
  | '}' => some .rBrace
  | '&' => some .ampersand
  | '|' => some .pipe
  | _ => none

/-- An operator of two symbols goes before one of a single symbol. -/
def operator (c : Char) (next : Option Char) : Front :=
  match next.bind (pair? c), single? c with
  | some k, _ => .token k 2
  | none, some k => .token k 1
  | none, none => .failure 0 (.symbol c)

def runOf? (c : Char) : Option (TokenKind × (Char → Bool)) :=
  if isIdentStart c then some (.ident, isIdentRest)
  else if c.isDigit then some (.int, Char.isDigit)
  else if c.isWhitespace then some (.white, Char.isWhitespace)
  else none

def front : List Char → Front
  | [] => .failure 0 .endOfInput
  | c :: cs =>
    match runOf? c with
    | some (k, p) => .token k ((cs.takeWhile p).length + 1)
    | none =>
      if c = '/' ∧ cs.head? = some '/' then
        .token .lineComment ((cs.tail.takeWhile isLineSymbol).length + 2)
      else if c = '/' ∧ cs.head? = some '*' then (closing cs.tail).after 2
      else operator c cs.head?

theorem single?_ne_none_of_pair? {c d : Char} {k : TokenKind} (h : pair? c d = some k) :
    single? c ≠ none := by
  unfold pair? at h
  split at h <;> simp_all [single?]

theorem takeWhile_take_append {p : Char → Bool} {cs v : List Char}
    (h : (cs.takeWhile p).length < cs.length) :
    (cs.take ((cs.takeWhile p).length + 1) ++ v).takeWhile p = cs.takeWhile p := by
  induction cs with
  | nil => cases h
  | cons c cs ih =>
      cases hc : p c with
      | false => simp [hc]
      | true =>
          simp only [List.takeWhile_cons, hc, if_true, List.length_cons, List.take_succ_cons,
            List.cons_append] at h ⊢
          rw [ih (Nat.lt_of_succ_lt_succ h)]

theorem head?_take_append {cs v : List Char} {n : Nat} (hn : n ≠ 0) (hcs : cs ≠ []) :
    (cs.take n ++ v).head? = cs.head? := by
  rw [List.head?_append, List.head?_take, if_neg hn]
  obtain ⟨c, cs, rfl⟩ := List.exists_cons_of_ne_nil hcs
  rfl

theorem head?_of_take {cs : List Char} {n : Nat} {c : Char} (h : (cs.take n).head? = some c) :
    cs.head? = some c := by
  rw [List.head?_take] at h
  split at h
  next => cases h
  next => exact h

theorem closing_end (c : Char) (cs : List Char) (h : c = '*' ∧ cs.head? = some '/') :
    closing (c :: cs) = .token .blockComment 2 := by
  rw [closing, if_pos h]

theorem closing_cons {c : Char} {cs : List Char} (hascii : isAscii c)
    (h : ¬ (c = '*' ∧ cs.head? = some '/')) : closing (c :: cs) = (closing cs).after 1 := by
  rw [closing, if_neg h, if_pos hascii]

theorem closing_stuck {c : Char} (hascii : ¬ isAscii c) (cs : List Char) :
    closing (c :: cs) = .failure 0 (.symbol c) := by
  have hc : ¬ (c = '*' ∧ cs.head? = some '/') := by
    rintro ⟨rfl, -⟩
    exact hascii rfl
  rw [closing, if_neg hc, if_neg hascii]

theorem closing_take_append {cs v : List Char} (h : (closing cs).length < cs.length) :
    closing (cs.take ((closing cs).length + 1) ++ v) = closing cs := by
  induction cs with
  | nil => cases h
  | cons c cs ih =>
      rw [List.take_succ_cons, List.cons_append]
      by_cases hascii : isAscii c
      · by_cases hc : c = '*' ∧ cs.head? = some '/'
        · have hne : cs ≠ [] := by
            rintro rfl
            cases hc.2
          rw [closing_end c cs hc, Front.length]
          apply closing_end
          rwa [head?_take_append (Nat.succ_ne_zero 1) hne]
        · rw [closing_cons hascii hc] at h ⊢
          rw [Front.length_after] at h ⊢
          have hlt : (closing cs).length < cs.length := Nat.lt_of_succ_lt_succ h
          have hne : cs ≠ [] := List.ne_nil_of_length_pos (Nat.zero_lt_of_lt hlt)
          rw [closing_cons hascii, ih hlt]
          rwa [head?_take_append (Nat.succ_ne_zero _) hne]
      · rw [closing_stuck hascii, closing_stuck hascii]

theorem closing_eq_failure {cs : List Char} {n : Nat} {cause : Cause}
    (h : closing cs = .failure n cause) :
    n ≤ cs.length ∧ cause = .ofRest (cs.drop n) ∧
      ∀ v, v.head? ≠ some '/' → closing (cs.take n ++ v) = (closing v).after n := by
  induction cs generalizing n with
  | nil =>
      cases h
      exact ⟨le_rfl, rfl, fun v _ => (Front.after_zero _).symm⟩
  | cons c cs ih =>
      rw [closing] at h
      split at h
      next => cases h
      next hc =>
        split at h
        next hascii =>
          obtain ⟨m, hcs, rfl⟩ := Front.after_eq_failure h
          obtain ⟨hle, hcause, hskip⟩ := ih hcs
          refine ⟨Nat.succ_le_succ hle, hcause, fun v hv => ?_⟩
          have hhead : ¬ (c = '*' ∧ (cs.take m ++ v).head? = some '/') := by
            rintro ⟨rfl, hslash⟩
            rw [List.head?_append, Option.or_eq_some_iff] at hslash
            rcases hslash with hslash | ⟨-, hslash⟩
            · exact hc ⟨rfl, head?_of_take hslash⟩
            · exact hv hslash
          rw [List.take_succ_cons, List.cons_append, closing_cons hascii hhead, hskip v hv,
            Front.after_after]
        next =>
          cases h
          exact ⟨Nat.zero_le _, rfl, fun v _ => (Front.after_zero _).symm⟩

theorem operator_eq_of_length_eq_zero {c : Char} {next : Option Char}
    (h : (operator c next).length = 0) :
    c ≠ '/' ∧ ∀ next', operator c next' = .failure 0 (.symbol c) := by
  have hsingle : single? c = none := by
    rw [operator] at h
    split at h
    next => cases h
    next => cases h
    next hnone => exact hnone
  refine ⟨?_, fun next' => ?_⟩
  · rintro rfl
    cases hsingle
  · have hpair : next'.bind (pair? c) = none := by
      rw [Option.bind_eq_none_iff]
      intro d _
      by_contra hne
      obtain ⟨k, hk⟩ := Option.ne_none_iff_exists'.1 hne
      exact single?_ne_none_of_pair? hk hsingle
    rw [operator, hpair, hsingle]

theorem front_line (cs : List Char) :
    front ('/' :: '/' :: cs) = .token .lineComment ((cs.takeWhile isLineSymbol).length + 2) := rfl

theorem front_block (cs : List Char) : front ('/' :: '*' :: cs) = (closing cs).after 2 := rfl

theorem front_run {c : Char} {k : TokenKind} {p : Char → Bool} (h : runOf? c = some (k, p))
    (cs : List Char) : front (c :: cs) = .token k ((cs.takeWhile p).length + 1) := by
  rw [front, h]

theorem front_operator {c : Char} {cs : List Char} (hrun : runOf? c = none)
    (hcomment : c = '/' → cs.head? ≠ some '/' ∧ cs.head? ≠ some '*') :
    front (c :: cs) = operator c cs.head? := by
  rw [front, hrun]
  dsimp only
  rw [if_neg fun h => (hcomment h.1).1 h.2, if_neg fun h => (hcomment h.1).2 h.2]

inductive Beginning : List Char → Prop
  | run {c : Char} {k : TokenKind} {p : Char → Bool} (h : runOf? c = some (k, p))
      (cs : List Char) : Beginning (c :: cs)
  | line (cs : List Char) : Beginning ('/' :: '/' :: cs)
  | block (cs : List Char) : Beginning ('/' :: '*' :: cs)
  | operator {c : Char} {cs : List Char} (hrun : runOf? c = none)
      (hcomment : c = '/' → cs.head? ≠ some '/' ∧ cs.head? ≠ some '*') : Beginning (c :: cs)

theorem beginning (c : Char) (cs : List Char) : Beginning (c :: cs) := by
  cases hrun : runOf? c with
  | some kp => exact .run hrun cs
  | none =>
      by_cases hcomment : c = '/' → cs.head? ≠ some '/' ∧ cs.head? ≠ some '*'
      · exact .operator hrun hcomment
      · simp only [Classical.not_imp, not_and_or, not_not, List.head?_eq_some_iff] at hcomment
        obtain ⟨rfl, ⟨ds, rfl⟩ | ⟨ds, rfl⟩⟩ := hcomment
        · exact .line ds
        · exact .block ds

/-- One symbol behind the front shows that it ends there. -/
theorem front_take_append {cs v : List Char} (h : (front cs).length < cs.length) :
    front (cs.take ((front cs).length + 1) ++ v) = front cs := by
  cases cs with
  | nil => cases h
  | cons c cs =>
      rw [List.take_succ_cons, List.cons_append]
      cases beginning c cs with
      | run hrun =>
          rw [front_run hrun cs] at h ⊢
          rw [front_run hrun, Front.length, takeWhile_take_append (Nat.lt_of_succ_lt_succ h)]
      | line cs =>
          rw [front_line, Front.length, List.length_cons, List.length_cons] at h
          rw [front_line cs, Front.length, List.take_succ_cons, List.cons_append, front_line,
            takeWhile_take_append (by omega)]
      | block cs =>
          rw [front_block, Front.length_after, List.length_cons, List.length_cons] at h
          rw [front_block cs, Front.length_after, List.take_succ_cons, List.cons_append,
            front_block, closing_take_append (by omega)]
      | operator hrun hcomment =>
          rw [front_operator hrun hcomment] at h ⊢
          by_cases hzero : (operator c cs.head?).length = 0
          · -- No operator begins with this symbol, whatever comes next.
            obtain ⟨hslash, hop⟩ := operator_eq_of_length_eq_zero hzero
            rw [front_operator hrun fun hc => absurd hc hslash, hop, hop]
          · have hne : cs ≠ [] := by
              rintro rfl
              rw [List.length_singleton] at h
              omega
            have hhead := head?_take_append (v := v) hzero hne
            rw [front_operator hrun (by rwa [hhead]), hhead]

/-- A failure behind the first symbol is that of a block comment, which could still be closed. -/
theorem front_eq_failure {cs : List Char} {n : Nat} {cause : Cause}
    (h : front cs = .failure n cause) :
    n ≤ cs.length ∧ cause = .ofRest (cs.drop n) ∧
      (n = 0 ∨ (∀ k, front (cs.take n) ≠ .token k n) ∧
        ∃ v, front (cs.take n ++ v) = .token .blockComment (n + v.length)) := by
  cases cs with
  | nil =>
      cases h
      exact ⟨le_rfl, rfl, .inl rfl⟩
  | cons c cs =>
      cases beginning c cs with
      | run hrun =>
          rw [front_run hrun] at h
          cases h
      | line cs => cases h
      | block cs =>
          rw [front_block] at h
          obtain ⟨m, hcs, rfl⟩ := Front.after_eq_failure h
          obtain ⟨hle, hcause, hskip⟩ := closing_eq_failure hcs
          have hopen := hskip [] (by simp)
          rw [List.append_nil] at hopen
          refine ⟨Nat.add_le_add_right hle 2, hcause, .inr ⟨fun k => ?_, ['*', '/'], ?_⟩⟩
          · rw [List.take_succ_cons, List.take_succ_cons, front_block, hopen]
            exact Front.noConfusion
          · rw [List.take_succ_cons, List.take_succ_cons, List.cons_append, List.cons_append,
              front_block, hskip _ (by simp), Front.after_after]
            exact congrArg (Front.token .blockComment) (Nat.add_comm 2 (m + 2))
      | operator hrun hcomment =>
          rw [front_operator hrun hcomment, operator] at h
          split at h
          next => cases h
          next => cases h
          next =>
            cases h
            exact ⟨Nat.zero_le _, rfl, .inl rfl⟩

theorem pos_of_front_eq_token {cs : List Char} {k : TokenKind} {n : Nat}
    (h : front cs = .token k n) : 0 < n := by
  cases cs with
  | nil => cases h
  | cons c cs =>
      cases beginning c cs with
      | run hrun =>
          rw [front_run hrun] at h
          cases h
          exact Nat.succ_pos _
      | line cs =>
          cases h
          exact Nat.succ_pos _
      | block cs =>
          obtain ⟨m, -, rfl⟩ := Front.after_eq_token h
          exact Nat.succ_pos _
      | operator hrun hcomment =>
          rw [front_operator hrun hcomment, operator] at h
          split at h
          next =>
            cases h
            exact Nat.two_pos
          next =>
            cases h
            exact Nat.one_pos
          next => cases h

theorem length_drop_lt_of_front {c : Char} {cs : List Char} {k : TokenKind} {n : Nat}
    (h : front (c :: cs) = .token k n) : ((c :: cs).drop n).length < (c :: cs).length := by
  have hpos := pos_of_front_eq_token h
  rw [List.length_drop, List.length_cons]
  omega

def lexFrom (s : Nat) : List Char → Except ScanFailure (List Lexeme)
  | [] => .ok []
  | c :: cs =>
    match _ : front (c :: cs) with
    | .failure n cause => .error ⟨s, s + n, cause⟩
    | .token k n => do
      let rest ← lexFrom (s + n) ((c :: cs).drop n)
      .ok (if k.isTrivia then rest else ⟨k, s, n⟩ :: rest)
termination_by cs => cs.length
decreasing_by exact length_drop_lt_of_front ‹_›

def lex (input : List Char) : Except ScanFailure (List Lexeme) := lexFrom 0 input

end Munch.Direct
