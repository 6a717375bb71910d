import Munch.Scan
import Munch.Tables
import Munch.TokenKind

namespace Munch

structure Lexeme where
  kind : TokenKind
  start : Nat
  length : Nat

inductive LexError where
  | scan (e : ScanFailure)
  | unknownKind (e : ScanFailure)
  | dangling (d : Dangling)

def LexError.message : LexError → String
  | scan e | unknownKind e => e.message
  | dangling d => s!"no state {d.state}"

def context (input : List Char) (pos : Nat) : Nat × List Char :=
  let lo := pos - 16
  (lo, ((input.drop lo).take (pos + 16 - lo)).map fun c =>
    if Text.control.contains c && !Text.blank.contains c then '·' else c)

def LexError.warnings (input : List Char) : LexError → List String
  | scan e =>
    let (lo, around) := context input e.position
    [s!"lex failed: {e.message}; context from {lo}:\n{String.ofList around}"]
  | _ => []

namespace Tables

variable (t : Tables)

/-- The kinds of the tokens. A token without one is reported as unexpected at its first symbol. -/
def lexemes (input : List Char) : List Token → Except LexError (List Lexeme)
  | [] => .ok []
  | tok :: toks =>
    match (t.ruleAt tok.state).bind TokenKind.ofRule? with
    | none => .error (.unknownKind ⟨tok.start, tok.start, .ofRest (input.drop tok.start)⟩)
    | some kind => do
      let rest ← lexemes input toks
      .ok (if kind.isTrivia then rest else ⟨kind, tok.start, tok.stop - tok.start⟩ :: rest)

def lex (input : List Char) : Except LexError (List Lexeme) := do
  let s := t.automaton.scan input
  let ls ← t.lexemes input s.tokens
  match s.ending with
  | .complete => .ok ls
  | .failed e => .error (.scan e)
  | .dangling d => .error (.dangling d)

end Tables

end Munch
