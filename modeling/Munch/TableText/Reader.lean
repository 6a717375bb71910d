import Munch.TableText
import Munch.TableText.Entry
import Munch.Text.Lines

namespace Munch.TableText

def readEntries (r : Row Nat) (cs : List Char) : Except LineError (Row Nat × List Char) :=
  match _ : readEntry cs with
  | .error e => .error e
  | .ok ((c, n), cs) =>
    if (r.get? c).isSome then .error (.duplicate c)
    else
      match eat? ['}'] cs with
      | some rest => .ok (r.insert c n, rest)
      | none =>
        match _ : expect ", ".toList cs with
        | .error e => .error e
        | .ok rest => readEntries (r.insert c n) rest
termination_by cs.length
decreasing_by
  have := length_readEntry ‹_›
  have := length_expect ‹_›
  omega

def readRow (cs : List Char) : Except LineError (Row Nat × List Char) := do
  let cs ← expect ['{'] cs
  match eat? ['}'] cs with
  | some rest => .ok (.empty, rest)
  | none => readEntries .empty cs

def readFlag (cs : List Char) : Except LineError (Bool × List Char) :=
  match eat? "True".toList cs with
  | some rest => .ok (true, rest)
  | none =>
    match eat? "False".toList cs with
    | some rest => .ok (false, rest)
    | none => .error .noFlag

theorem length_readFlag {cs rest : List Char} {b : Bool} (h : readFlag cs = .ok (b, rest)) :
    rest.length ≤ cs.length := by
  unfold readFlag at h
  split at h
  · have := length_eat? ‹_›
    grind
  · split at h
    · have := length_eat? ‹_›
      grind
    · simp at h

def readFlags (cs : List Char) : Except LineError (List Bool × List Char) :=
  match _ : readFlag cs with
  | .error e => .error e
  | .ok (b, cs) =>
    match eat? [']'] cs with
    | some rest => .ok ([b], rest)
    | none =>
      match _ : expect ", ".toList cs with
      | .error e => .error e
      | .ok rest => (readFlags rest).map fun (bs, rest) => (b :: bs, rest)
termination_by cs.length
decreasing_by
  have := length_readFlag ‹_›
  have h := length_expect ‹_›
  have : ", ".toList.length = 2 := rfl
  omega

def readAcceptsLine (cs : List Char) : Except LineError (List Bool) := do
  let cs ← expect "accepts = [".toList cs
  let (flags, rest) ←
    match eat? [']'] cs with
    | some rest => .ok ([], rest)
    | none => readFlags cs
  readEnd rest
  .ok flags

def readStatesLine (cs : List Char) : Except LineError Unit := do
  readEnd (← expect "states = [".toList cs)

def readNumberLine (q : Nat) (cs : List Char) : Except LineError Unit := do
  let (n, rest) ← readNumber (← expect "# ".toList cs)
  readEnd rest
  if n = q then .ok () else .error (.outOfOrder n q)

def readRowLine (cs : List Char) : Except LineError (Row Nat) := do
  let (r, cs) ← readRow cs
  readEnd (← expect [','] cs)
  .ok r

def splitOnce (sep : List Char) : List Char → Option (List Char × List Char)
  | [] => none
  | c :: cs =>
    match eat? sep (c :: cs) with
    | some rest => some ([], rest)
    | none => (splitOnce sep cs).map fun (before, rest) => (c :: before, rest)

def dropEnd? (what cs : List Char) : Option (List Char) :=
  if what.isSuffixOf cs then some (cs.take (cs.length - what.length)) else none

def readBindingLine (cs : List Char) : Except LineError (List Char × List Char) :=
  match splitOnce " = ".toList cs with
  | none => .error .noBinding
  | some (name, value) =>
    match dropEnd? "(states, accepts)".toList value with
    | none => .error .noCall
    | some typeRef =>
      if Text.isIdentifier name && Text.isDottedIdentifier typeRef then .ok (name, typeRef)
      else .error (.badBinding name typeRef)

def inLine {α : Type} (line : Nat) (x : Except LineError α) : Except TextError α :=
  x.mapError (.inLine line)

/-- The rows that follow after `n` lines and the given rows, up to the closing bracket, with the
number of lines read by then and the lines that are left. -/
def readStates (n : Nat) (states : Array (Row Nat)) :
    List (List Char) → Except TextError (Array (Row Nat) × Nat × List (List Char))
  | [] => .error (.truncated n)
  | line :: ls =>
    match eat? [']'] (Text.trimStart line) with
    | some rest => do
      inLine (n + 1) (readEnd rest)
      .ok (states, n + 1, ls)
    | none => do
      inLine (n + 1) (readNumberLine states.size (Text.trimStart line))
      match ls with
      | [] => .error (.truncated (n + 1))
      | line :: ls =>
        let r ← inLine (n + 2) (readRowLine (Text.trimStart line))
        readStates (n + 2) (states.push r) ls

def readLines : List (List Char) → Except TextError TableText
  | [] => .error (.truncated 0)
  | line :: ls => do
    let accepts ← inLine 1 (readAcceptsLine line)
    match ls with
    | [] => .error (.truncated 1)
    | line :: ls =>
      inLine 2 (readStatesLine line)
      let (states, n, ls) ← readStates 2 #[] ls
      match ls with
      | [] => .error (.truncated n)
      | line :: _ =>
        let (name, typeRef) ← inLine (n + 1) (readBindingLine line)
        let a : Automaton := ⟨states, accepts.toArray⟩
        a.check.mapError .malformed
        .ok ⟨name, typeRef, a⟩

def read (text : List Char) : Except TextError TableText :=
  readLines ((Text.lines text).map Text.trimEnd)

end Munch.TableText
