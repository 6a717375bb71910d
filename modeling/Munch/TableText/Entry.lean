import Munch.TableText.LineError

namespace Munch.TableText

def eat? (what cs : List Char) : Option (List Char) :=
  if what.isPrefixOf cs then some (cs.drop what.length) else none

def expect (what cs : List Char) : Except LineError (List Char) :=
  match eat? what cs with
  | some rest => .ok rest
  | none => .error (.expected what cs)

def readEnd : List Char → Except LineError Unit
  | [] => .ok ()
  | rest => .error (.trailing rest)

def readChar : List Char → Except LineError (Char × List Char)
  | [] => .error .endOfLine
  | c :: cs => .ok (c, cs)

/-- State numbers are 64-bit words. -/
def readNumber (cs : List Char) : Except LineError (Nat × List Char) :=
  let digits := cs.takeWhile Char.isDigit
  let n := Text.decimalValue digits
  if digits.isEmpty then .error (.noIndex cs)
  else if n < Text.words64 then .ok (n, cs.dropWhile Char.isDigit)
  else .error (.indexTooLarge digits)

/-- The symbols that make up the first `n` bytes in UTF-8, if one of them ends there. -/
def splitBytes : Nat → List Char → Option (List Char × List Char)
  | 0, cs => some ([], cs)
  | _ + 1, [] => none
  | n + 1, c :: cs =>
    if c.utf8Size ≤ n + 1 then
      (splitBytes (n + 1 - c.utf8Size) cs).map fun (taken, rest) => (c :: taken, rest)
    else none

def readHex (width : Nat) (cs : List Char) : Except LineError (Char × List Char) :=
  match splitBytes width cs with
  | none => .error .truncatedEscape
  | some (digits, rest) =>
    match Text.hexValue? digits with
    | none => .error (.badHex digits)
    | some n =>
      match Text.scalar? n with
      | none => .error (.notScalar digits)
      | some c => .ok (c, rest)

def readEscape : List Char → Except LineError (Char × List Char)
  | [] => .error .endOfLine
  | 't' :: cs => .ok ('\t', cs)
  | 'n' :: cs => .ok ('\n', cs)
  | 'r' :: cs => .ok ('\r', cs)
  | '\\' :: cs => .ok ('\\', cs)
  | '\'' :: cs => .ok ('\'', cs)
  | '"' :: cs => .ok ('"', cs)
  | 'x' :: cs => readHex 2 cs
  | 'u' :: cs => readHex 4 cs
  | 'U' :: cs => readHex 8 cs
  | c :: _ => .error (.unknownEscape c)

def readBody (mark : Char) (cs : List Char) : Except LineError (Char × List Char) := do
  let (c, cs) ← readChar cs
  if c = '\\' then readEscape cs
  else if c = mark then .error .emptySymbol
  else .ok (c, cs)

def readSymbol (cs : List Char) : Except LineError (Char × List Char) := do
  let (mark, cs) ← readChar cs
  if mark = '\'' || mark = '"' then
    let (c, cs) ← readBody mark cs
    let (close, cs) ← readChar cs
    if close = mark then .ok (c, cs) else .error .longSymbol
  else .error (.notQuoted mark)

def readEntry (cs : List Char) : Except LineError ((Char × Nat) × List Char) := do
  let (c, cs) ← readSymbol cs
  let cs ← expect ": ".toList cs
  let (n, cs) ← readNumber cs
  .ok ((c, n), cs)

theorem bind_eq_ok {ε α β : Type} {x : Except ε α} {f : α → Except ε β} {b : β} :
    (x >>= f) = .ok b ↔ ∃ a, x = .ok a ∧ f a = .ok b := by
  cases x <;> simp [bind, Except.bind]

theorem length_eat? {what cs rest : List Char} (h : eat? what cs = some rest) :
    what.length + rest.length = cs.length := by
  unfold eat? at h
  split at h
  · rename_i hp
    obtain ⟨tail, rfl⟩ := List.isPrefixOf_iff_prefix.1 hp
    simp_all
  · simp at h

theorem length_expect {what cs rest : List Char} (h : expect what cs = .ok rest) :
    what.length + rest.length = cs.length := by
  unfold expect at h
  split at h
  · exact length_eat? (by simp_all)
  · simp at h

theorem length_splitBytes {n : Nat} {cs taken rest : List Char}
    (h : splitBytes n cs = some (taken, rest)) : rest.length ≤ cs.length := by
  fun_induction splitBytes n cs generalizing taken rest with
  | case1 => simp_all
  | case2 => simp at h
  | case3 n c cs hle ih =>
    obtain ⟨⟨taken', rest'⟩, hs, he⟩ := Option.map_eq_some_iff.1 h
    have := ih hs
    grind
  | case4 => simp at h

theorem length_readHex {width : Nat} {cs rest : List Char} {c : Char}
    (h : readHex width cs = .ok (c, rest)) : rest.length ≤ cs.length := by
  unfold readHex at h
  split at h
  · simp at h
  · rename_i hs
    have := length_splitBytes hs
    grind

theorem length_readEscape {cs rest : List Char} {c : Char} (h : readEscape cs = .ok (c, rest)) :
    rest.length < cs.length := by
  unfold readEscape at h
  split at h
  all_goals try have hx := length_readHex h
  all_goals grind

theorem length_readChar {cs rest : List Char} {c : Char} (h : readChar cs = .ok (c, rest)) :
    rest.length < cs.length := by
  cases cs <;> grind [readChar]

theorem length_readNumber {cs rest : List Char} {n : Nat} (h : readNumber cs = .ok (n, rest)) :
    rest.length ≤ cs.length := by
  have := (List.dropWhile_sublist Char.isDigit (l := cs)).length_le
  grind [readNumber]

theorem length_readBody {mark : Char} {cs rest : List Char} {c : Char}
    (h : readBody mark cs = .ok (c, rest)) : rest.length < cs.length := by
  obtain ⟨⟨d, ds⟩, hd, h⟩ := bind_eq_ok.1 h
  have := length_readChar hd
  simp only at h
  split at h
  · have := length_readEscape h
    omega
  · split at h
    · simp at h
    · simp at h
      grind

theorem length_readSymbol {cs rest : List Char} {c : Char} (h : readSymbol cs = .ok (c, rest)) :
    rest.length < cs.length := by
  obtain ⟨⟨mark, cs₁⟩, h₁, h⟩ := bind_eq_ok.1 h
  simp only at h
  split at h
  · obtain ⟨⟨d, cs₂⟩, h₂, h⟩ := bind_eq_ok.1 h
    obtain ⟨⟨close, cs₃⟩, h₃, h⟩ := bind_eq_ok.1 h
    have := length_readChar h₁
    have := length_readBody h₂
    have := length_readChar h₃
    simp only at h
    split at h
    · simp at h
      grind
    · simp at h
  · simp at h

theorem length_readEntry {cs rest : List Char} {e : Char × Nat}
    (h : readEntry cs = .ok (e, rest)) : rest.length < cs.length := by
  obtain ⟨⟨c, cs₁⟩, h₁, h⟩ := bind_eq_ok.1 h
  obtain ⟨cs₂, h₂, h⟩ := bind_eq_ok.1 h
  obtain ⟨⟨n, cs₃⟩, h₃, h⟩ := bind_eq_ok.1 h
  have := length_readSymbol h₁
  have := length_expect h₂
  have := length_readNumber h₃
  simp at h
  grind

end Munch.TableText
