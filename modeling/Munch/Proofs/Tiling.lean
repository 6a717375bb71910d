import Munch.Proofs.Checked
import Munch.Proofs.Scanning

namespace Munch

structure Automaton.Halts (a : Automaton) (input : List Char) (start stop q : Nat) : Prop where
  start_le : start ≤ stop
  stop_le : stop ≤ input.length
  follow : a.follow? 0 (input.extract start stop) = .ok (some q)
  stuck : ∀ c, input[stop]? = some c → a.next? q c = .ok none

structure Token.Closed (tok : Token) (a : Automaton) (input : List Char) : Prop where
  halts : a.Halts input tok.start tok.stop tok.state
  nonempty : tok.start < tok.stop
  accepting : a.isAccepting? tok.state = .ok true

/-- The run has read nothing, or it does not end in an accepting state. The symbol it cannot read is
to blame, or the end of the input. -/
structure ScanFailure.Open (e : ScanFailure) (a : Automaton) (input : List Char) : Prop where
  halts : ∃ q, a.Halts input e.start e.position q ∧
    (e.position = e.start ∨ a.isAccepting? q = .ok false)
  cause : e.cause = input[e.position]?.elim .endOfInput .symbol

/-- The items from an offset on: tokens side by side that go to the end of the input, or to a failure
that is the last item. The cursor is then at the offset named last. -/
inductive Tiles (a : Automaton) (input : List Char) :
    Nat → List (Except ScanFailure Token) → Nat → Prop
  | complete : Tiles a input input.length [] input.length
  | failed {e : ScanFailure} (he : e.Open a input) : Tiles a input e.start [.error e] e.position
  | token {tok : Token} {items : List (Except ScanFailure Token)} {final : Nat}
      (htok : tok.Closed a input) (h : Tiles a input tok.stop items final) :
      Tiles a input tok.start (.ok tok :: items) final

def Scan.result (s : Scan) : Except Dangling (Except ScanFailure (List Token)) :=
  match s.ending with
  | .complete => .ok (.ok s.tokens)
  | .failed e => .ok (.error e)
  | .dangling d => .error d

namespace Cursor

variable (a : Automaton)

def after : Nat → Cursor → Except Dangling Cursor
  | 0, cur => .ok cur
  | n + 1, cur =>
    match cur.next a with
    | .error d => .error d
    | .ok (_, cur) => after n cur

def startOf : Except ScanFailure Token → Nat
  | .ok tok => tok.start
  | .error e => e.start

/-- The calls give these items, one after the other, and then nothing for ever. Before each item the
cursor is where it begins, and behind the last one it stays at `final`. -/
def Yields (cur : Cursor) (items : List (Except ScanFailure Token)) (final : Nat) : Prop :=
  ∀ n, ∃ cur' cur'', cur.after a n = .ok cur' ∧ cur'.next a = .ok (items[n]?, cur'') ∧
    cur'.position = items[n]?.elim final startOf

variable {a} {cur cur' : Cursor} {item : Except ScanFailure Token}
variable {items : List (Except ScanFailure Token)} {final : Nat}

theorem after_succ {found : Option (Except ScanFailure Token)} (h : cur.next a = .ok (found, cur'))
    (n : Nat) : cur.after a (n + 1) = cur'.after a n := by
  rw [after, h]

theorem yields_nil (h : cur.next a = .ok (none, cur)) : cur.Yields a [] cur.position := by
  intro n
  have hafter : cur.after a n = .ok cur := by
    induction n with
    | zero => rfl
    | succ n ih => rw [after_succ h, ih]
  exact ⟨cur, cur, hafter, h, rfl⟩

theorem Yields.cons (h : cur'.Yields a items final) (hnext : cur.next a = .ok (some item, cur'))
    (hstart : cur.position = startOf item) : cur.Yields a (item :: items) final := by
  intro n
  cases n with
  | zero => exact ⟨cur, cur', rfl, hnext, hstart⟩
  | succ n =>
      rw [after_succ hnext, List.getElem?_cons_succ]
      exact h n

theorem result_of_token {tok : Token} (h : cur.next a = .ok (some (.ok tok), cur')) :
    (cur.drain a).result = (cur'.drain a).result.map (·.map (tok :: ·)) := by
  obtain ⟨htokens, hending⟩ := drain_of_token h
  rw [Scan.result, Scan.result, htokens, hending]
  cases (cur'.drain a).ending <;> rfl

end Cursor

theorem Automaton.halts_run {a : Automaton} (h : a.check = .ok ()) (input : List Char) {p : Nat}
    (hp : p ≤ input.length) :
    a.Halts input p (p + (a.run 0 (input.drop p)).length) (a.run 0 (input.drop p)).state := by
  obtain ⟨hpos, -, hrange⟩ := check_eq_ok_iff.1 h
  obtain ⟨hfollow, hrest, hstuck⟩ := a.run_spec 0 (input.drop p)
  have hlen := a.length_run 0 (input.drop p)
  rw [List.length_drop] at hlen
  refine ⟨Nat.le_add_right _ _, by omega, ?_, fun c hc => ?_⟩
  · rw [List.extract_eq_take_drop, Nat.add_sub_cancel_left, follow?_eq hrange hpos, hfollow]
  · rw [next?_eq (state_run_lt hrange hpos)]
    rw [List.drop_drop] at hrest
    obtain ⟨hlt, rfl⟩ := List.getElem?_eq_some_iff.1 hc
    rw [List.drop_eq_getElem_cons hlt] at hrest
    rw [hstuck _ _ hrest]

namespace Cursor

variable {a : Automaton} (h : a.check = .ok ()) (input : List Char) {p : Nat}

theorem ofInput_of_le (hp : p ≤ input.length) : ofInput input p = ⟨p, input.drop p, false⟩ := by
  rw [ofInput, Nat.min_eq_left hp]

include h

theorem next_ofInput_cases (hp : p ≤ input.length) :
    (p = input.length ∧ (ofInput input p).next a = .ok (none, ofInput input p)) ∨
      (∃ tok : Token, tok.Closed a input ∧ tok.start = p ∧
        (ofInput input p).next a = .ok (some (.ok tok), ofInput input tok.stop)) ∨
      ∃ e : ScanFailure, e.Open a input ∧ e.start = p ∧ (ofInput input p).next a =
        .ok (some (.error e), ⟨e.position, input.drop e.position, true⟩) := by
  rcases Nat.eq_or_lt_of_le hp with rfl | hlt
  · left
    rw [ofInput_of_le input le_rfl, List.drop_length]
    exact ⟨rfl, rfl⟩
  · right
    have hhalts := Automaton.halts_run h input hp
    have hne : input.drop p ≠ [] := List.ne_nil_of_length_pos (by rw [List.length_drop]; omega)
    rw [ofInput_of_le input hp]
    rcases Automaton.closes_cases h (input.drop p) with
      ⟨hcloses, hread, haccept⟩ | ⟨hcloses, hopen⟩
    · left
      have hnext := next_of_closes (s := p) hne hcloses
      rw [List.drop_drop] at hnext
      refine ⟨⟨p, _, _⟩, ⟨hhalts, Nat.lt_add_of_pos_right hread, haccept⟩, rfl, ?_⟩
      rw [ofInput_of_le input hhalts.stop_le]
      exact hnext
    · right
      have hnext := next_of_closes (s := p) hne hcloses
      rw [List.drop_drop] at hnext
      refine ⟨_, ⟨⟨_, hhalts, ?_⟩, Cause.ofRest_drop input _⟩, rfl, hnext⟩
      rcases hopen with hzero | hreject
      · left
        rw [hzero]
        rfl
      · exact .inr hreject

theorem exists_tiles (hp : p ≤ input.length) :
    ∃ items final, Tiles a input p items final ∧ (ofInput input p).Yields a items final ∧
      ((ofInput input p).drain a).result = .ok (items.mapM id) := by
  -- On what is left of the input, of which each token takes something.
  induction hn : input.length - p using Nat.strong_induction_on generalizing p with
  | h n ih =>
      rcases next_ofInput_cases h input hp with
        ⟨rfl, hnext⟩ | ⟨tok, htok, rfl, hnext⟩ | ⟨e, he, rfl, hnext⟩
      · have hyields := yields_nil hnext
        rw [ofInput_of_le input hp] at hyields ⊢
        refine ⟨[], input.length, .complete, hyields, ?_⟩
        rw [List.drop_length]
        obtain ⟨htokens, hending⟩ := drain_nil a input.length
        rw [Scan.result, htokens, hending]
        rfl
      · have hlt := htok.nonempty
        have hle := htok.halts.stop_le
        obtain ⟨items, final, htiles, hyields, hresult⟩ := ih _ (by omega) hle rfl
        refine ⟨_, final, .token htok htiles, hyields.cons hnext ?_, ?_⟩
        · rw [ofInput_of_le input hp]
          rfl
        · rw [result_of_token hnext, hresult, List.mapM_cons]
          rfl
      · have hyields : Yields a ⟨e.position, input.drop e.position, true⟩ [] e.position :=
          yields_nil rfl
        refine ⟨_, _, .failed he, hyields.cons hnext ?_, ?_⟩
        · rw [ofInput_of_le input hp]
          rfl
        · obtain ⟨-, hending⟩ := drain_of_failure hnext
          rw [Scan.result, hending]
          rfl

end Cursor

/-- The calls for items give tokens that lie side by side, up to the end of the input or to a
failure, and then nothing. A scan of the whole input collects them. -/
theorem Automaton.items_tile {a : Automaton} (h : a.check = .ok ()) (input : List Char) {p : Nat}
    (hp : p ≤ input.length) :
    ∃ items final, Tiles a input p items final ∧ (Cursor.ofInput input p).Yields a items final ∧
      (p = 0 → (a.scan input).result = .ok (items.mapM id)) := by
  obtain ⟨items, final, htiles, hyields, hresult⟩ := Cursor.exists_tiles h input hp
  refine ⟨items, final, htiles, hyields, ?_⟩
  rintro rfl
  exact hresult

def Automaton.letters : Automaton :=
  ⟨#[Row.empty.insert 'a' 1, Row.empty.insert 'a' 1], #[true, true]⟩

theorem Automaton.items_tile_letters :
    letters.check = .ok () ∧ ∃ items final, Tiles letters ['a', 'a', 'b'] 0 items final ∧
      items[0]? = some (.ok ⟨0, 2, 1⟩) ∧ items[1]? = some (.error ⟨2, 2, .symbol 'b'⟩) ∧
      (letters.scan ['a', 'a', 'b']).result = .ok (items.mapM id) := by
  have hcheck : letters.check = .ok () := rfl
  obtain ⟨items, final, htiles, hyields, hscan⟩ :=
    items_tile hcheck ['a', 'a', 'b'] (p := 0) (by decide)
  refine ⟨hcheck, items, final, htiles, ?_, ?_, hscan rfl⟩
  · obtain ⟨cur, cur', ⟨⟩, hnext, -⟩ := hyields 0
    exact (congrArg Prod.fst (Except.ok.inj hnext)).symm
  · obtain ⟨cur, cur', ⟨⟩, hnext, -⟩ := hyields 1
    exact (congrArg Prod.fst (Except.ok.inj hnext)).symm

end Munch
