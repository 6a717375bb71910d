import Munch.TableJson
import Munch.TableJson.Value
import Munch.Text.Utf8

namespace Munch

inductive JsonError where
  | unreadable
  | invalid (e : Defect)

def JsonError.message : JsonError → String
  | unreadable => "Failed to parse tables JSON"
  | invalid e => e.message

namespace TableJson

def readEntry (us : Units) : Option ((Char × Nat) × Units) := do
  let (key, us) ← readString us
  let us ← expect ':' us
  let (n, us) ← readNat Text.words64 us
  match key with
  | [c] => return ((c, n), us)
  | _ => none

/-- A repeated symbol keeps the last state. -/
def readRow (us : Units) : Option (Row Nat × Units) := do
  let (es, us) ← readGroup readEntry '{' '}' us
  return (.ofList es, us)

def readToken (us : Units) : Option (UInt32 × Units) := do
  let (n, us) ← readNat Text.words32 us
  return (.ofNat n, us)

def readName (us : Units) : Option (String × Units) := do
  let (cs, us) ← readString us
  return (String.ofList cs, us)

structure Parts where
  states : Option (List (Row Nat)) := none
  accepts : Option (List Bool) := none
  ruleOf : Option (List UInt32) := none
  names : Option (List String) := none

def Parts.tables? (p : Parts) : Option Tables := do
  return ⟨⟨(← p.states).toArray, (← p.accepts).toArray⟩, (← p.ruleOf).toArray, ← p.names⟩

/-- The value of one member. None of the parts may come twice, and other members are skipped. -/
def readPart (p : Parts) (key : List Char) (us : Units) : Option (Parts × Units) :=
  if key = "states".toList then
    if p.states.isSome then none
    else (readArray readRow us).map fun (xs, us) => ({ p with states := xs }, us)
  else if key = "accepts".toList then
    if p.accepts.isSome then none
    else (readArray readBool us).map fun (xs, us) => ({ p with accepts := xs }, us)
  else if key = "token_of".toList then
    if p.ruleOf.isSome then none
    else (readArray readToken us).map fun (xs, us) => ({ p with ruleOf := xs }, us)
  else if key = "names".toList then
    if p.names.isSome then none
    else (readArray readName us).map fun (xs, us) => ({ p with names := xs }, us)
  else (skip us).map (p, ·)

def readParts : Nat → Parts → Units → Option (Parts × Units)
  | 0, _, _ => none
  | n + 1, p, us => do
    let (key, us) ← readString us
    let us ← expect ':' us
    let (p, us) ← readPart p key us
    match skipBlanks us with
    | some '}' :: us => return (p, us)
    | some ',' :: us => readParts n p us
    | _ => none

def readObject (us : Units) : Option (Tables × Units) := do
  let us ← expect '{' us
  let (p, us) ← readParts us.length {} us
  return (← p.tables?, us)

def readTuple (us : Units) : Option (Tables × Units) := do
  let us ← expect '[' us
  let (states, us) ← readArray readRow us
  let us ← expect ',' us
  let (accepts, us) ← readArray readBool us
  let us ← expect ',' us
  let (ruleOf, us) ← readArray readToken us
  let us ← expect ',' us
  let (names, us) ← readArray readName us
  let us ← expect ']' us
  return (⟨⟨states.toArray, accepts.toArray⟩, ruleOf.toArray, names⟩, us)

def readUnits (us : Units) : Option Tables := do
  let (t, us) ← readObject us <|> readTuple us
  if (skipBlanks us).isEmpty then return t else none

def read (bytes : ByteArray) : Except JsonError Tables :=
  match readUnits (Text.decode bytes) with
  | none => .error .unreadable
  | some t => (t.check.mapError .invalid).map fun _ => t

end TableJson

end Munch
