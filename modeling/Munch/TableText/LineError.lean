import Munch.Defect

namespace Munch

inductive LineError where
  | expected (what rest : List Char)
  | endOfLine
  | noIndex (rest : List Char)
  | indexTooLarge (digits : List Char)
  | truncatedEscape
  | badHex (digits : List Char)
  | notScalar (digits : List Char)
  | notQuoted (found : Char)
  | unknownEscape (c : Char)
  | emptySymbol
  | longSymbol
  | duplicate (c : Char)
  | trailing (rest : List Char)
  | noFlag
  | outOfOrder (got due : Nat)
  | noBinding
  | noCall
  | badBinding (name typeRef : List Char)

open Text in
def LineError.message : LineError → String
  | expected what rest => s!"expected {quoteText what} at {quoteText rest}"
  | endOfLine => "unexpected end of line"
  | noIndex rest => s!"expected a state index at {quoteText rest}"
  | indexTooLarge digits =>
    s!"bad state index {quoteText digits}: number too large to fit in target type"
  | truncatedEscape => "truncated escape"
  | badHex digits => s!"bad hex escape {quoteText digits}"
  | notScalar digits => s!"escape {quoteText digits} is not a scalar value"
  | notQuoted found => s!"expected a quoted symbol, found {quoteSymbol found}"
  | unknownEscape c => s!"unknown escape \\{c}"
  | emptySymbol => "empty symbol literal"
  | longSymbol => "symbol literal must hold exactly one symbol"
  | duplicate c => s!"duplicate symbol {quoteSymbol c}"
  | trailing rest => s!"trailing text {quoteText rest}"
  | noFlag => "expected True or False"
  | outOfOrder got due => s!"state comment {got} out of order, expected {due}"
  | noBinding => "expected `<name> = <type>(states, accepts)`"
  | noCall => "binding must end with `(states, accepts)`"
  | badBinding name typeRef => s!"bad binding {quoteText name} = {quoteText typeRef}"

/-- Why a table text is not read. Lines are counted from 1. -/
inductive TextError where
  | inLine (line : Nat) (e : LineError)
  | truncated (lines : Nat)
  | malformed (e : Defect)

def TextError.message : TextError → String
  | inLine line e => s!"line {line}: {e.message}"
  | truncated lines => s!"table text ends after line {lines}"
  | malformed e => e.message

end Munch
