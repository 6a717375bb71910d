import Munch.Text.CodePoints
import Munch.Text.Digits

namespace Munch.TableJson

/-- The symbols that bytes spell. A byte that spells none is `none`, and may stand only inside a string
that is skipped. -/
abbrev Units := List (Option Char)

def skipBlanks (us : Units) : Units :=
  us.dropWhile (· ∈ [some ' ', some '\t', some '\n', some '\r'])

def expect (c : Char) (us : Units) : Option Units :=
  match skipBlanks us with
  | some d :: us => if d = c then some us else none
  | _ => none

inductive Piece where
  | symbol (c : Char)
  | code (n : Nat)
  | stray

def simpleEscape? (c : Char) : Option Char :=
  [('"', '"'), ('\\', '\\'), ('/', '/'), ('b', '\x08'), ('f', '\x0c'), ('n', '\n'), ('r', '\r'),
    ('t', '\t')].lookup c

def readPieces : Units → Option (List Piece × Units)
  | [] => none
  | some '"' :: us => some ([], us)
  | some '\\' :: some 'u' :: some a :: some b :: some c :: some d :: us => do
    let n ← Text.hexValue? [a, b, c, d]
    let (ps, us) ← readPieces us
    return (.code n :: ps, us)
  | some '\\' :: some e :: us => do
    let c ← simpleEscape? e
    let (ps, us) ← readPieces us
    return (.symbol c :: ps, us)
  | none :: us => do
    let (ps, us) ← readPieces us
    return (.stray :: ps, us)
  | some c :: us =>
    if c = '\\' || c.toNat < 0x20 then none
    else do
      let (ps, us) ← readPieces us
      return (.symbol c :: ps, us)

/-- The text of a string. Codes beyond 16 bits come in pairs of a high and a low half. -/
def joinPieces : List Piece → Option (List Char)
  | [] => some []
  | .symbol c :: ps => (c :: ·) <$> joinPieces ps
  | .stray :: _ => none
  | .code hi :: .code lo :: ps =>
    if 0xd800 ≤ hi && hi < 0xdc00 then
      if 0xdc00 ≤ lo && lo < 0xe000 then do
        let c ← Text.scalar? (0x10000 + (hi - 0xd800) * 0x400 + (lo - 0xdc00))
        (c :: ·) <$> joinPieces ps
      else none
    else do
      let c ← Text.scalar? hi
      (c :: ·) <$> joinPieces (.code lo :: ps)
  | .code n :: ps => do
    let c ← Text.scalar? n
    (c :: ·) <$> joinPieces ps

def readString (us : Units) : Option (List Char × Units) := do
  let us ← expect '"' us
  let (ps, us) ← readPieces us
  return (← joinPieces ps, us)

def isDigit (u : Option Char) : Bool := u.any Char.isDigit

/-- A whole number without sign or superfluous zeros, below `bound`. -/
def readNat (bound : Nat) (us : Units) : Option (Nat × Units) :=
  let us := skipBlanks us
  let digits := (us.takeWhile isDigit).filterMap id
  let n := Text.decimalValue digits
  if digits.isEmpty || (digits.head? = some '0' && digits ≠ ['0']) || bound ≤ n then none
  else some (n, us.dropWhile isDigit)

def readWord (w us : Units) : Option Units :=
  if w.isPrefixOf us then some (us.drop w.length) else none

def wordTrue : Units := "true".toList.map some

def wordFalse : Units := "false".toList.map some

def wordNull : Units := "null".toList.map some

def readBool (us : Units) : Option (Bool × Units) :=
  let us := skipBlanks us
  (readWord wordTrue us).map (true, ·) <|> (readWord wordFalse us).map (false, ·)

variable {α : Type} (item : Units → Option (α × Units))

def readItems (close : Char) : Nat → Units → Option (List α × Units)
  | 0, _ => none
  | n + 1, us => do
    let (a, us) ← item us
    match skipBlanks us with
    | some c :: us =>
      if c = close then return ([a], us)
      else if c = ',' then
        let (as, us) ← readItems close n us
        return (a :: as, us)
      else none
    | _ => none

def readGroup (opening close : Char) (us : Units) : Option (List α × Units) := do
  let us ← expect opening us
  match expect close us with
  | some us => return ([], us)
  | none => readItems item close us.length us

def readArray : Units → Option (List α × Units) := readGroup item '[' ']'

def readDigits (us : Units) : Option Units :=
  if us.head?.any isDigit then some (us.dropWhile isDigit) else none

def skipFraction (us : Units) : Option Units :=
  match us with
  | some '.' :: us => readDigits us
  | us => some us

def skipExponent (us : Units) : Option Units :=
  let skipSign : Units → Units
    | some '+' :: us | some '-' :: us => us
    | us => us
  match us with
  | some 'e' :: us | some 'E' :: us => readDigits (skipSign us)
  | us => some us

def skipNumber (us : Units) : Option Units := do
  let us := if us.head? = some (some '-') then us.tail else us
  let us ←
    match us with
    | some '0' :: us => if us.head?.any isDigit then none else some us
    | us => readDigits us
  skipExponent (← skipFraction us)

def skipAtom (us : Units) : Option Units :=
  readWord wordNull us <|> readWord wordTrue us <|> readWord wordFalse us <|> skipNumber us

mutual

def skipValue : Nat → Units → Option Units
  | 0, _ => none
  | n + 1, us =>
    match skipBlanks us with
    | some '"' :: us => (·.2) <$> readPieces us
    | some '[' :: us => (expect ']' us) <|> skipElements n us
    | some '{' :: us => (expect '}' us) <|> skipMembers n us
    | us => skipAtom us

def skipElements : Nat → Units → Option Units
  | 0, _ => none
  | n + 1, us => do
    let us ← skipValue n us
    match skipBlanks us with
    | some ']' :: us => some us
    | some ',' :: us => skipElements n us
    | _ => none

def skipMembers : Nat → Units → Option Units
  | 0, _ => none
  | n + 1, us => do
    let us ← expect '"' us
    let (_, us) ← readPieces us
    let us ← expect ':' us
    let us ← skipValue n us
    match skipBlanks us with
    | some '}' :: us => some us
    | some ',' :: us => skipMembers n us
    | _ => none

end

/-- Any value. No step of the way leaves the number of symbols as it is for more than one step. -/
def skip (us : Units) : Option Units := skipValue (2 * us.length + 2) us

end Munch.TableJson
