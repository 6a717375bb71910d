import Munch.Automaton

namespace Munch

structure Token where
  start : Nat
  stop : Nat
  state : Nat

inductive Cause where
  | symbol (c : Char)
  | endOfInput

namespace Cause

def ofRest : List Char → Cause
  | [] => endOfInput
  | c :: _ => symbol c

def message : Cause → String
  | symbol c => s!"unexpected {Text.quoteSymbol c}"
  | endOfInput => "incomplete token at end of input"

end Cause

structure ScanFailure where
  start : Nat
  position : Nat
  cause : Cause

namespace ScanFailure

def message (e : ScanFailure) : String :=
  s!"unrecognized input at position {e.position} (token started at {e.start}): {e.cause.message}"

def isIncomplete (e : ScanFailure) : Bool :=
  match e.cause with
  | .symbol _ => false
  | .endOfInput => true

end ScanFailure

structure Cursor where
  position : Nat
  rest : List Char
  failed : Bool

inductive Ending where
  | complete
  | failed (e : ScanFailure)
  | dangling (d : Dangling)

structure Scan where
  tokens : List Token
  ending : Ending
  cursor : Cursor

namespace Cursor

variable (a : Automaton)

/-- A position behind the input is taken to its end. -/
def ofInput (input : List Char) (pos : Nat) : Cursor :=
  ⟨min pos input.length, input.drop pos, false⟩

/-- Reads on from a state in a token that began at `start`, up to a symbol without a move or to the
end. There an accepting state is enough, as at least one symbol has been read. -/
def readToken (start q position : Nat) :
    List Char → Except Dangling (Except ScanFailure Token × Nat × List Char)
  | [] => (a.isAccepting? q).map fun flag =>
      (if flag then .ok ⟨start, position, q⟩ else .error ⟨start, position, .endOfInput⟩,
        position, [])
  | c :: cs =>
    match a.next? q c with
    | .error d => .error d
    | .ok (some q) => readToken start q (position + 1) cs
    | .ok none => (a.isAccepting? q).map fun flag =>
        (if flag && start < position then .ok ⟨start, position, q⟩
          else .error ⟨start, position, .symbol c⟩, position, c :: cs)

def next (cur : Cursor) : Except Dangling (Option (Except ScanFailure Token) × Cursor) :=
  if cur.failed || cur.rest.isEmpty then .ok (none, cur)
  else (readToken a cur.position 0 cur.position cur.rest).map fun (item, position, rest) =>
    (some item, ⟨position, rest, !item.isOk⟩)

theorem length_readToken {start q position stop : Nat} {cs rest : List Char}
    {item : Except ScanFailure Token}
    (h : readToken a start q position cs = .ok (item, stop, rest)) : rest.length ≤ cs.length := by
  induction cs generalizing q position with
  | nil =>
    obtain ⟨flag, -, hflag⟩ := map_eq_ok_iff.1 h
    cases hflag
    exact Nat.le_refl _
  | cons c cs ih =>
    rw [readToken] at h
    split at h
    · cases h
    · exact Nat.le_succ_of_le (ih h)
    · obtain ⟨flag, -, hflag⟩ := map_eq_ok_iff.1 h
      cases hflag
      exact Nat.le_refl _

theorem length_readToken_lt {start q stop : Nat} {c : Char} {cs rest : List Char} {t : Token}
    (h : readToken a start q start (c :: cs) = .ok (.ok t, stop, rest)) :
    rest.length < (c :: cs).length := by
  rw [readToken] at h
  split at h
  · cases h
  · exact Nat.lt_succ_of_le (length_readToken a h)
  · obtain ⟨flag, -, hflag⟩ := map_eq_ok_iff.1 h
    simp at hflag

theorem length_rest_next {cur cur' : Cursor} {t : Token}
    (h : cur.next a = .ok (some (.ok t), cur')) : cur'.rest.length < cur.rest.length := by
  unfold next at h
  split at h
  · cases h
  · obtain ⟨⟨item, stop, rest⟩, hread, hitem⟩ := map_eq_ok_iff.1 h
    cases hitem
    cases hrest : cur.rest with
    | nil => simp_all
    | cons c cs =>
      rw [hrest] at hread
      exact length_readToken_lt a hread

def drain (cur : Cursor) : Scan :=
  match _ : cur.next a with
  | .error d => ⟨[], .dangling d, cur⟩
  | .ok (none, cur) => ⟨[], .complete, cur⟩
  | .ok (some (.error e), cur) => ⟨[], .failed e, cur⟩
  | .ok (some (.ok t), cur) =>
    let s := drain cur
    { s with tokens := t :: s.tokens }
termination_by cur.rest.length
decreasing_by exact length_rest_next a ‹_›

end Cursor

def Automaton.scan (a : Automaton) (input : List Char) : Scan := (Cursor.ofInput input 0).drain a

end Munch
