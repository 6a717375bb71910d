import Munch.Proofs.Checked
import Munch.Proofs.JsonValue
import Munch.Proofs.Row

namespace Munch.TableJson

open Text

section Values

variable {α : Type} {item : Units → Option (α × Units)}

theorem readString_member (key value : List Char) (rest : Units) :
    readString ((member key value).map some ++ rest) =
      some (key, some ':' :: (value.map some ++ rest)) := by
  have hread := reads_quoted key (some ':' :: (value.map some ++ rest)) (by simp [isDigit])
  rw [← hread, member]
  simp

theorem expect_colon (us : Units) : expect ':' (some ':' :: us) = some us := rfl

theorem reads_entry {e : Char × Nat} (he : e.2 < words64) :
    Reads readEntry (member [e.1] (numeral e.2)) e := by
  intro rest hrest
  have hnumber := reads_numeral he rest hrest
  simp only [readEntry, readString_member, expect_colon, hnumber, Option.bind_eq_bind,
    Option.bind_some]
  rfl

theorem opens_quoted (cs : List Char) : Opens (quoted cs) := ⟨'"', rfl, by decide⟩

theorem opens_member (key value : List Char) : Opens (member key value) := ⟨'"', rfl, by decide⟩

theorem opens_numeral (n : Nat) : Opens (numeral n) := by
  obtain ⟨c, hc⟩ : ∃ c, c ∈ (numeral n).head? := by
    cases hdigits : numeral n with
    | nil => exact absurd hdigits Nat.toDigits_ne_nil
    | cons c cs => exact ⟨c, rfl⟩
  have hdigit := isDigit_of_mem_numeral (List.mem_of_mem_head? hc)
  refine ⟨c, hc, fun hmem => ?_⟩
  rcases List.mem_append.1 hmem with hblank | hclose
  · rw [isDigit_of_mem_blanks hblank] at hdigit
    cases hdigit
  · rw [(closer_cases hclose).2.2] at hdigit
    cases hdigit

theorem opens_flag (b : Bool) : Opens (flag b) := by
  cases b with
  | true => exact ⟨'t', rfl, by decide⟩
  | false => exact ⟨'f', rfl, by decide⟩

theorem opens_row (r : Row Nat) : Opens (row r) := ⟨'{', rfl, by decide⟩

theorem reads_row {r : Row Nat} (hr : ∀ e ∈ r.entries, e.2 < words64) :
    Reads readRow (row r) r := by
  have hopening : '{' ∉ blanks := by decide
  have hclose : '}' ∈ closers := by decide
  have hentries : Reads (readGroup readEntry '{' '}') (row r) (r.entries.map id) :=
    reads_group hopening hclose (fun e he => reads_entry (hr e he)) fun e _ => opens_member _ _
  intro rest hrest
  simp [readRow, hentries rest hrest, Row.ofList_entries]

theorem reads_token (w : UInt32) : Reads readToken (numeral w.toNat) w := by
  have hw : w.toNat < words32 := w.toNat_lt
  intro rest hrest
  simp [readToken, reads_numeral hw rest hrest]

theorem reads_name (n : String) : Reads readName (quoted n.toList) n := by
  intro rest hrest
  simp [readName, reads_quoted n.toList rest hrest]

theorem reads_array {text : α → List Char} {xs : List α} (h : ∀ x ∈ xs, Reads item (text x) x)
    (hopens : ∀ x ∈ xs, Opens (text x)) : Reads (readArray item) (array (xs.map text)) xs := by
  have hopening : '[' ∉ blanks := by decide
  have hclose : ']' ∈ closers := by decide
  have hgroup := reads_group hopening hclose h hopens
  rwa [List.map_id'] at hgroup

end Values

section Members

variable {p q : Parts} {key value : List Char}

theorem readParts_more (h : Reads (readPart p key) value q) (n : Nat) (rest : Units) :
    readParts (n + 1) p ((member key value).map some ++ some ',' :: rest) = readParts n q rest := by
  have hpart := h (some ',' :: rest) (by simp [isDigit])
  have hblank : ',' ∉ blanks := by decide
  simp [readParts, readString_member, expect_colon, hpart, skipBlanks_cons hblank]

theorem readParts_last (h : Reads (readPart p key) value q) (n : Nat) (rest : Units) :
    readParts (n + 1) p ((member key value).map some ++ some '}' :: rest) = some (q, rest) := by
  have hpart := h (some '}' :: rest) (by simp [isDigit])
  have hblank : '}' ∉ blanks := by decide
  simp [readParts, readString_member, expect_colon, hpart, skipBlanks_cons hblank]

theorem reads_states {xs : List (Row Nat)} (hnew : p.states = none)
    (h : Reads (readArray readRow) value xs) :
    Reads (readPart p "states".toList) value { p with states := some xs } := by
  intro rest hrest
  simp [readPart, hnew, h rest hrest]

theorem reads_accepts {xs : List Bool} (hnew : p.accepts = none)
    (h : Reads (readArray readBool) value xs) :
    Reads (readPart p "accepts".toList) value { p with accepts := some xs } := by
  intro rest hrest
  simp [readPart, hnew, h rest hrest]

theorem reads_ruleOf {xs : List UInt32} (hnew : p.ruleOf = none)
    (h : Reads (readArray readToken) value xs) :
    Reads (readPart p "token_of".toList) value { p with ruleOf := some xs } := by
  intro rest hrest
  simp [readPart, hnew, h rest hrest]

theorem reads_names {xs : List String} (hnew : p.names = none)
    (h : Reads (readArray readName) value xs) :
    Reads (readPart p "names".toList) value { p with names := some xs } := by
  intro rest hrest
  simp [readPart, hnew, h rest hrest]

end Members

def WordTargets (t : Tables) : Prop :=
  ∀ r ∈ t.automaton.states, ∀ e ∈ r.entries, e.2 < words64

theorem readParts_render {t : Tables} (h : WordTargets t) (n : Nat) (rest : Units) :
    readParts (n + 4) {} ((render t).tail.map some ++ rest) =
      some (⟨t.automaton.states.toList, t.automaton.accepts.toList, t.ruleOf.toList, t.names⟩,
        rest) := by
  have hrows : Reads (readArray readRow) (array (t.automaton.states.toList.map row))
      t.automaton.states.toList := by
    apply reads_array
    · intro r hr
      exact reads_row (h r (Array.mem_toList_iff.1 hr))
    · exact fun r _ => opens_row r
  have hflags : Reads (readArray readBool) (array (t.automaton.accepts.toList.map flag))
      t.automaton.accepts.toList := reads_array (fun b _ => reads_flag b) fun b _ => opens_flag b
  have htokens : Reads (readArray readToken)
      (array (t.ruleOf.toList.map fun w => numeral w.toNat)) t.ruleOf.toList :=
    reads_array (fun w _ => reads_token w) fun w _ => opens_numeral w.toNat
  have hnames : Reads (readArray readName) (array (t.names.map fun n => quoted n.toList)) t.names :=
    reads_array (fun n _ => reads_name n) fun n _ => opens_quoted n.toList
  simp only [render, object, List.cons_append, List.tail_cons, List.intercalate_cons_cons,
    List.intercalate_singleton, List.map_append, List.append_assoc, List.map_cons, List.map_nil,
    List.nil_append]
  rw [readParts_more (reads_states rfl hrows), readParts_more (reads_accepts rfl hflags),
    readParts_more (reads_ruleOf rfl htokens), readParts_last (reads_names rfl hnames)]

theorem readObject_render {t : Tables} (h : WordTargets t) :
    readObject ((render t).map some) = some (t, []) := by
  have hopening : '{' ∉ blanks := by decide
  have hexpect : expect '{' ((render t).map some) = some ((render t).tail.map some) := by
    rw [render, object, List.cons_append, List.map_cons, expect_cons hopening, if_pos rfl]
    rfl
  -- The three commas and the brace are fuel enough for the four members.
  obtain ⟨n, hn⟩ : ∃ n, ((render t).tail.map some).length = n + 4 := by
    apply Nat.exists_eq_add_of_le'
    rw [List.length_map, render, object, List.cons_append, List.tail_cons, List.length_append]
    refine Nat.succ_le_succ (Nat.le_trans ?_ (le_length_intercalate _ _))
    exact Nat.le_refl 3
  have hparts := readParts_render h n []
  rw [List.append_nil] at hparts
  rw [readObject, hexpect]
  simp only [Option.bind_eq_bind, Option.bind_some, hn, hparts]
  simp [Parts.tables?]

theorem readUnits_render {t : Tables} (h : WordTargets t) :
    readUnits ((render t).map some) = some t := by
  rw [readUnits, readObject_render h]
  rfl

theorem wordTargets_of_check {t : Tables} (h : t.automaton.check = .ok ())
    (hsize : t.automaton.states.size ≤ words64) : WordTargets t := by
  intro r hr e he
  obtain ⟨q, hq⟩ := Array.mem_iff_getElem?.1 hr
  exact Nat.lt_of_lt_of_le (Automaton.target_lt h hq e he) hsize

theorem read_render_of_check {t : Tables} (h : t.check = .ok ())
    (hsize : t.automaton.states.size ≤ words64) :
    read (String.ofList (render t)).toUTF8 = .ok t := by
  have hwords := wordTargets_of_check (Tables.check_eq_ok_iff.1 h).1 hsize
  rw [read, decode_toUTF8, readUnits_render hwords]
  simp only [h, Except.mapError, Except.map]

/-- Tables that are written as JSON are read back if they are sound, and else refused for what is
wrong with them. -/
theorem json_round_trip (t : Tables) (h : WordTargets t) :
    (t.check = .ok () → read (String.ofList (render t)).toUTF8 = .ok t) ∧
      ∀ e, t.check = .error e →
        read (String.ofList (render t)).toUTF8 = .error (.invalid e) ∧
          (JsonError.invalid e).message = e.message := by
  rw [read, decode_toUTF8, readUnits_render h]
  constructor
  · intro hok
    simp only [hok, Except.mapError, Except.map]
  · intro e he
    simp only [he, Except.mapError, Except.map, JsonError.message, and_self]

def escapedTables (target : Nat) : Tables :=
  ⟨⟨#[⟨[('\x00', 0), ('"', target), ('\\', 0), ('😀', 0)], by simp⟩], #[true]⟩, #[0],
    ["tab\t\"é\""]⟩

theorem json_round_trip_escapedTables :
    read (String.ofList (render (escapedTables 0))).toUTF8 = .ok (escapedTables 0) ∧
      read (String.ofList (render (escapedTables 18446744073709551615))).toUTF8 =
        .error (.invalid (.strayTarget 0 '"' 18446744073709551615 1)) := by
  have hword : ∀ target < words64, WordTargets (escapedTables target) := by
    intro target htarget r hr e he
    obtain rfl := Array.mem_singleton.1 hr
    simp only [List.mem_cons, List.not_mem_nil, or_false] at he
    rcases he with rfl | rfl | rfl | rfl
    · decide
    · exact htarget
    · decide
    · decide
  exact ⟨(json_round_trip (escapedTables 0) (hword _ (by decide))).1 rfl,
    ((json_round_trip (escapedTables 18446744073709551615) (hword _ (by decide))).2 _ rfl).1⟩

end Munch.TableJson
