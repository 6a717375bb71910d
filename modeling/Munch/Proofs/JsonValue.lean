import Munch.Proofs.Digits
import Munch.TableJson.Reader

namespace Munch

namespace Text

theorem decodeFrom_append (bytes : ByteArray) (cs : List Char) :
    decodeFrom (bytes ++ cs.utf8Encode) bytes.size = cs.map some := by
  induction cs generalizing bytes with
  | nil =>
      rw [decodeFrom, if_neg]
      · rfl
      · simp
  | cons c cs ih =>
      have hsize : bytes.size + c.utf8Size = (bytes ++ [c].utf8Encode).size := by
        rw [ByteArray.size_append, List.utf8Encode_singleton, List.size_toByteArray,
          String.length_utf8EncodeChar]
      have hlt : bytes.size < (bytes ++ (c :: cs).utf8Encode).size := by
        have hpos := c.utf8Size_pos
        rw [List.utf8Encode_cons, ← ByteArray.append_assoc, ByteArray.size_append]
        omega
      have hchar : (bytes ++ (c :: cs).utf8Encode).utf8DecodeChar? bytes.size = some c := by
        rw [ByteArray.utf8DecodeChar?_eq_utf8DecodeChar?_extract,
          ByteArray.extract_append_eq_right rfl ByteArray.size_append,
          List.utf8DecodeChar?_utf8Encode_cons]
      rw [decodeFrom, if_pos hlt, hchar, List.map_cons]
      dsimp only
      rw [hsize, List.utf8Encode_cons, ← ByteArray.append_assoc, ih]

theorem decode_toUTF8 (cs : List Char) : decode (String.ofList cs).toUTF8 = cs.map some := by
  have h := decodeFrom_append ByteArray.empty cs
  rw [ByteArray.empty_append] at h
  rw [String.toUTF8_eq_toByteArray, String.toByteArray_ofList]
  exact h

end Text

namespace TableJson

open Text

variable {α : Type}

/-- What a reader takes in of a text that no digit follows. -/
def Reads (item : Units → Option (α × Units)) (text : List Char) (a : α) : Prop :=
  ∀ rest : Units, (∀ u ∈ rest.head?, isDigit u = false) →
    item (text.map some ++ rest) = some (a, rest)

def blanks : List Char := [' ', '\t', '\n', '\r']

theorem isDigit_of_mem_blanks {c : Char} (h : c ∈ blanks) : c.isDigit = false := by
  simp only [blanks, List.mem_cons, List.not_mem_nil, or_false] at h
  rcases h with rfl | rfl | rfl | rfl <;> rfl

theorem skipBlanks_cons {c : Char} (hc : c ∉ blanks) (us : Units) :
    skipBlanks (some c :: us) = some c :: us := by
  rw [skipBlanks, List.dropWhile_cons_of_neg]
  simpa [blanks] using hc

theorem expect_cons {c d : Char} (hd : d ∉ blanks) (us : Units) :
    expect c (some d :: us) = if d = c then some us else none := by
  rw [expect, skipBlanks_cons hd]

section Strings

/-- The text is one piece of a string, which stands for `c`, whatever follows it. -/
def IsPiece (text : List Char) (c : Char) : Prop :=
  ∃ p, (∀ us, readPieces (text.map some ++ us) =
      (readPieces us).map fun (ps, rest) => (p :: ps, rest)) ∧
    ∀ ps, joinPieces (p :: ps) = (c :: ·) <$> joinPieces ps

theorem isPiece_short {e c : Char} (he : e ≠ 'u') (hc : simpleEscape? e = some c) :
    IsPiece ['\\', e] c := by
  refine ⟨.symbol c, fun us => ?_, fun ps => rfl⟩
  rw [List.map_cons, List.map_singleton, List.cons_append, List.singleton_append, readPieces, hc]
  · cases readPieces us <;> rfl
  · simp [he]

theorem isPiece_plain {c : Char} (hquote : c ≠ '"') (hslash : c ≠ '\\')
    (hlow : ¬ c.toNat < 0x20) : IsPiece [c] c := by
  refine ⟨.symbol c, fun us => ?_, fun ps => rfl⟩
  rw [List.map_singleton, List.singleton_append, readPieces, if_neg]
  · cases readPieces us <;> rfl
  · simp [hslash, hlow]
  · simp [hquote]
  · simp [hslash]
  · simp [hslash]

theorem joinPieces_code {c : Char} (hc : c.toNat < 0xd800) (ps : List Piece) :
    joinPieces (.code c.toNat :: ps) = (c :: ·) <$> joinPieces ps := by
  have hscalar : scalar? c.toNat = some c := scalar?_eq_some.2 rfl
  match ps with
  | [] | .symbol d :: ps | .stray :: ps => simp [joinPieces, hscalar]
  | .code lo :: ps =>
    rw [joinPieces, if_neg (by simp; omega), hscalar]
    rfl

theorem isPiece_code {c : Char} (hc : c.toNat < 0x20) :
    IsPiece ('\\' :: 'u' :: hex 4 c.toNat) c := by
  refine ⟨.code c.toNat, fun us => ?_, joinPieces_code (by omega)⟩
  have hvalue : hexValue? (hex 4 c.toNat) = some c.toNat := hexValue?_hex
  match hex 4 c.toNat, length_hex (by decide) (by omega), hvalue with
  | [a, b, d, e], _, hvalue =>
    simp only [List.map_cons, List.map_nil, List.cons_append, List.nil_append]
    rw [readPieces, hvalue]
    cases readPieces us <;> rfl

theorem isPiece_escape (c : Char) : IsPiece (escape c) c := by
  rw [escape]
  by_cases hquote : c = '"'
  · rw [hquote]
    exact isPiece_short (by decide) rfl
  by_cases hslash : c = '\\'
  · rw [hslash]
    exact isPiece_short (by decide) rfl
  rw [if_neg (by simp [hquote, hslash])]
  by_cases hb : c = '\x08'
  · rw [if_pos hb, hb]
    exact isPiece_short (by decide) rfl
  rw [if_neg hb]
  by_cases hf : c = '\x0c'
  · rw [if_pos hf, hf]
    exact isPiece_short (by decide) rfl
  rw [if_neg hf]
  by_cases hn : c = '\n'
  · rw [if_pos hn, hn]
    exact isPiece_short (by decide) rfl
  rw [if_neg hn]
  by_cases hr : c = '\r'
  · rw [if_pos hr, hr]
    exact isPiece_short (by decide) rfl
  rw [if_neg hr]
  by_cases ht : c = '\t'
  · rw [if_pos ht, ht]
    exact isPiece_short (by decide) rfl
  rw [if_neg ht]
  by_cases hlow : c.toNat < 0x20
  · rw [if_pos hlow]
    exact isPiece_code hlow
  · rw [if_neg hlow]
    exact isPiece_plain hquote hslash hlow

theorem exists_pieces (cs : List Char) (rest : Units) :
    ∃ ps, readPieces ((cs.flatMap escape).map some ++ some '"' :: rest) = some (ps, rest) ∧
      joinPieces ps = some cs := by
  induction cs with
  | nil => exact ⟨[], rfl, rfl⟩
  | cons c cs ih =>
      obtain ⟨ps, hread, hjoin⟩ := ih
      obtain ⟨p, hp, hc⟩ := isPiece_escape c
      refine ⟨p :: ps, ?_, ?_⟩
      · rw [List.flatMap_cons, List.map_append, List.append_assoc, hp, hread]
        rfl
      · rw [hc, hjoin]
        rfl

theorem reads_quoted (cs : List Char) : Reads readString (quoted cs) cs := by
  intro rest _
  obtain ⟨ps, hread, hjoin⟩ := exists_pieces cs rest
  have hexpect : expect '"' ((quoted cs).map some ++ rest) =
      some ((cs.flatMap escape).map some ++ some '"' :: rest) := by
    simp [quoted, expect_cons, blanks]
  simp [readString, hexpect, hread, hjoin]

end Strings

section Numbers

variable {n : Nat}

theorem isEmpty_numeral (n : Nat) : (numeral n).isEmpty = false :=
  List.isEmpty_eq_false_iff.2 Nat.toDigits_ne_nil

theorem numeral_eq_of_head? (h : (numeral n).head? = some '0') : numeral n = ['0'] := by
  induction n using Nat.base_induction 10 (by decide) with
  | single m hm =>
      rw [numeral, Nat.toDigits_of_lt_base hm, List.head?_singleton, Option.some.injEq] at h
      rw [numeral, Nat.toDigits_of_lt_base hm, h]
  | digit m k hk hm ih =>
      have hdigits : numeral (10 * m + k) = numeral m ++ [k.digitChar] := by
        rw [numeral, ← Nat.toDigits_append_toDigits (by decide) hm hk, Nat.toDigits_of_lt_base hk]
        rfl
      have hhead : (numeral m ++ [k.digitChar]).head? = (numeral m).head? := by
        cases hnil : numeral m with
        | nil => exact absurd hnil Nat.toDigits_ne_nil
        | cons c cs => rfl
      have hzero := decimalValue_numeral m
      rw [ih (by rw [← hhead, ← hdigits, h])] at hzero
      exact absurd hzero.symm (Nat.pos_iff_ne_zero.1 hm)

theorem skipBlanks_numeral (rest : Units) :
    skipBlanks ((numeral n).map some ++ rest) = (numeral n).map some ++ rest := by
  cases hdigits : numeral n with
  | nil => exact absurd hdigits Nat.toDigits_ne_nil
  | cons c cs =>
      have hc : c.isDigit = true := by
        apply isDigit_of_mem_numeral (n := n)
        rw [hdigits]
        exact List.mem_cons_self
      apply skipBlanks_cons
      intro hmem
      rw [isDigit_of_mem_blanks hmem] at hc
      cases hc

theorem reads_numeral {bound : Nat} (hn : n < bound) : Reads (readNat bound) (numeral n) n := by
  intro rest hrest
  have hall : ∀ u ∈ (numeral n).map some, isDigit u = true := by
    intro u hu
    obtain ⟨c, hc, rfl⟩ := List.mem_map.1 hu
    exact isDigit_of_mem_numeral hc
  have hstop : rest.takeWhile isDigit = [] ∧ rest.dropWhile isDigit = rest := by
    cases rest with
    | nil => exact ⟨rfl, rfl⟩
    | cons u us => simp [hrest u rfl]
  have htake : ((numeral n).map some ++ rest).takeWhile isDigit = (numeral n).map some := by
    rw [List.takeWhile_append_of_pos hall, hstop.1, List.append_nil]
  have hdrop : ((numeral n).map some ++ rest).dropWhile isDigit = rest := by
    rw [List.dropWhile_append_of_pos hall, hstop.2]
  have hdigits : ((numeral n).map some).filterMap id = numeral n := by
    rw [List.filterMap_map]
    exact List.filterMap_some
  rw [readNat, skipBlanks_numeral, htake, hdrop, hdigits]
  rw [decimalValue_numeral, if_neg]
  simp only [isEmpty_numeral, Bool.false_or, Bool.or_eq_true, Bool.and_eq_true, decide_eq_true_eq,
    not_or, not_and]
  exact ⟨fun hzero hne => hne (numeral_eq_of_head? hzero), Nat.not_le.2 hn⟩

end Numbers

theorem reads_flag (b : Bool) : Reads readBool (flag b) b := by
  intro rest _
  cases b <;> rfl

section Groups

variable {item : Units → Option (α × Units)} {β : Type} {text : β → List Char} {value : β → α}
  {close : Char}

def closers : List Char := [']', '}']

/-- The text begins with a symbol that is no white space and closes nothing. -/
def Opens (text : List Char) : Prop := ∃ c ∈ text.head?, c ∉ blanks ++ closers

theorem expect_of_opens {cs : List Char} (h : Opens cs) (hclose : close ∈ closers) (us : Units) :
    expect close (cs.map some ++ us) = none := by
  obtain ⟨c, hc, hnot⟩ := h
  rw [List.mem_append, not_or] at hnot
  have hne : c ≠ close := fun heq => hnot.2 (heq ▸ hclose)
  cases cs with
  | nil => cases hc
  | cons d cs =>
      cases hc
      rw [List.map_cons, List.cons_append, expect_cons hnot.1, if_neg hne]

theorem closer_cases (hclose : close ∈ closers) :
    close ∉ blanks ∧ close ≠ ',' ∧ close.isDigit = false := by
  simp only [closers, List.mem_cons, List.not_mem_nil, or_false] at hclose
  rcases hclose with rfl | rfl
  · exact ⟨by decide, by decide, rfl⟩
  · exact ⟨by decide, by decide, rfl⟩

theorem readItems_last (hclose : close ∈ closers) {us rest : Units} {a : α}
    (h : item us = some (a, some close :: rest)) (n : Nat) :
    readItems item close (n + 1) us = some ([a], rest) := by
  simp [readItems, h, skipBlanks_cons (closer_cases hclose).1]

theorem readItems_more (hclose : close ∈ closers) {us rest : Units} {a : α}
    (h : item us = some (a, some ',' :: rest)) (n : Nat) :
    readItems item close (n + 1) us =
      (readItems item close n rest).map fun (as, rest) => (a :: as, rest) := by
  have hcomma : ',' ∉ blanks := by decide
  have hne : ',' ≠ close := (closer_cases hclose).2.1.symm
  simp only [readItems, h, skipBlanks_cons hcomma, Option.bind_eq_bind, Option.bind_some,
    if_neg hne, if_true]
  cases readItems item close n rest <;> rfl

theorem exists_intercalate_cons (cs : List Char) (items : List (List Char)) :
    ∃ tail, [','].intercalate (cs :: items) = cs ++ tail := by
  cases items with
  | nil => exact ⟨[], by simp⟩
  | cons next items => exact ⟨_, by rw [List.intercalate_cons_cons, List.append_assoc]⟩

theorem le_length_intercalate (cs : List Char) (items : List (List Char)) :
    items.length ≤ ([','].intercalate (cs :: items)).length := by
  induction items generalizing cs with
  | nil => exact Nat.zero_le _
  | cons next items ih =>
      have hnext := ih next
      simp only [List.intercalate_cons_cons, List.length_append, List.length_cons, List.length_nil]
      omega

/-- Items with commas between them are read one by one, if there is fuel for each. -/
theorem readItems_intercalate (hclose : close ∈ closers) {x : β} {xs : List β}
    (h : ∀ y ∈ x :: xs, Reads item (text y) (value y)) {n : Nat} (hn : xs.length ≤ n)
    (rest : Units) :
    readItems item close (n + 1)
        (([','].intercalate ((x :: xs).map text)).map some ++ some close :: rest) =
      some ((x :: xs).map value, rest) := by
  induction xs generalizing x n with
  | nil =>
      have hread := h x List.mem_cons_self (some close :: rest)
        (by simp [isDigit, (closer_cases hclose).2.2])
      rw [List.map_singleton, List.intercalate_singleton]
      exact readItems_last hclose hread n
  | cons y ys ih =>
      obtain ⟨n, rfl⟩ := Nat.exists_eq_add_one_of_ne_zero (Nat.ne_zero_of_lt hn)
      have hrest := ih (fun z hz => h z (List.mem_cons_of_mem _ hz)) (Nat.le_of_succ_le_succ hn)
      have hread := h x List.mem_cons_self
        (some ',' :: (([','].intercalate ((y :: ys).map text)).map some ++ some close :: rest))
        (by simp [isDigit])
      have hsplit : ([','].intercalate ((x :: y :: ys).map text)).map some ++ some close :: rest =
          (text x).map some ++
            some ',' :: (([','].intercalate ((y :: ys).map text)).map some ++ some close :: rest) := by
        simp [List.intercalate_cons_cons]
      rw [hsplit, readItems_more hclose hread, hrest]
      rfl

theorem reads_group {opening : Char} (hopening : opening ∉ blanks) (hclose : close ∈ closers)
    {xs : List β} (h : ∀ x ∈ xs, Reads item (text x) (value x)) (hopens : ∀ x ∈ xs, Opens (text x)) :
    Reads (readGroup item opening close)
      (opening :: [','].intercalate (xs.map text) ++ [close]) (xs.map value) := by
  intro rest _
  have hexpect : expect opening
      ((opening :: [','].intercalate (xs.map text) ++ [close]).map some ++ rest) =
        some (([','].intercalate (xs.map text)).map some ++ some close :: rest) := by
    simp [expect_cons hopening]
  rw [readGroup, hexpect]
  cases xs with
  | nil =>
      simp [expect_cons (closer_cases hclose).1]
  | cons x xs =>
      obtain ⟨tail, htail⟩ := exists_intercalate_cons (text x) (xs.map text)
      have hnone : expect close
          (([','].intercalate ((x :: xs).map text)).map some ++ some close :: rest) = none := by
        rw [List.map_cons, htail, List.map_append, List.append_assoc]
        exact expect_of_opens (hopens x List.mem_cons_self) hclose _
      have hfuel := le_length_intercalate (text x) (xs.map text)
      rw [List.length_map] at hfuel
      simp only [Option.bind_eq_bind, Option.bind_some]
      rw [hnone]
      dsimp only
      rw [List.length_append, List.length_cons, ← Nat.add_assoc]
      apply readItems_intercalate hclose h
      rw [List.length_map]
      exact Nat.le_add_right_of_le hfuel

end Groups

end TableJson

end Munch
