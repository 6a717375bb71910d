import Munch.Lexeme
import Munch.Proofs.Checked
import Munch.Proofs.JsonRoundTrip
import Munch.Proofs.Minimal
import Munch.Proofs.Scanning
import Munch.Proofs.TableLines

namespace Munch

structure Scan.Within (s : Scan) (a : Automaton) (n : Nat) : Prop where
  tokens : ∀ tok ∈ s.tokens, tok.start < tok.stop ∧ tok.stop ≤ n ∧ tok.state < a.states.size
  ending : s.ending = .complete ∨ ∃ e, s.ending = .failed e ∧ e.start < n ∧ e.position ≤ n

/-- A search from `pos` on in an input of `n` symbols has an answer, which lies in the input. -/
def Finds (pos n : Nat) (answer : Except Dangling (Option Nat)) : Prop :=
  ∃ found, answer = .ok found ∧ ∀ stop ∈ found, pos < stop ∧ stop ≤ n

/-- No operation looks for a state that does not exist, nor behind the end of an input. -/
structure Automaton.Safe (a : Automaton) : Prop where
  follow : ∀ w, ∃ r, a.follow? 0 w = .ok r ∧ ∀ q ∈ r, q < a.states.size ∧ q < a.accepts.size
  next : ∀ cur : Cursor, ∃ item, cur.next a = .ok item
  drain : ∀ input pos, ((Cursor.ofInput input pos).drain a).Within a input.length
  longestMatch : ∀ input pos, Finds pos input.length (a.longestMatch input pos)
  shortestMatch : ∀ input pos, Finds pos input.length (a.shortestMatch input pos)
  acceptsWord : ∀ input, ∃ b, a.acceptsWord input = .ok b

namespace Automaton

variable {a : Automaton} (h : a.check = .ok ())

include h

theorem follow?_of_check (w : List Char) :
    ∃ r, a.follow? 0 w = .ok r ∧ ∀ q ∈ r, q < a.states.size ∧ q < a.accepts.size := by
  obtain ⟨hpos, hflags, hrange⟩ := check_eq_ok_iff.1 h
  refine ⟨a.follow 0 w, follow?_eq hrange hpos w, fun q hq => ?_⟩
  rw [hflags, and_self]
  exact follow_lt hrange hpos hq

theorem closes_of_check (cs : List Char) : ∃ b, a.closes (a.run 0 cs) = .ok b ∧
    (b = true → 0 < (a.run 0 cs).length) := by
  rcases closes_cases h cs with ⟨hclosed, hread, -⟩ | ⟨hopen, -⟩
  · exact ⟨true, hclosed, fun _ => hread⟩
  · exact ⟨false, hopen, fun hfalse => by cases hfalse⟩

theorem finds_longestMatch (input : List Char) (pos : Nat) :
    Finds pos input.length (a.longestMatch input pos) := by
  obtain ⟨b, hb, hlen⟩ := closes_of_check h (input.drop pos)
  have hrun := a.length_run 0 (input.drop pos)
  rw [List.length_drop] at hrun
  rw [longestMatch_eq_run, hb]
  refine ⟨_, rfl, fun stop hstop => ?_⟩
  cases b with
  | false => cases hstop
  | true =>
      cases hstop
      have hpos := hlen rfl
      omega

theorem finds_shortestFrom {q i : Nat} (hq : q < a.states.size) (cs : List Char) :
    Finds i (i + cs.length) (a.shortestFrom q i cs) := by
  obtain ⟨-, -, hrange⟩ := check_eq_ok_iff.1 h
  induction cs generalizing q i with
  | nil => exact ⟨none, rfl, fun n hn => absurd hn (Option.not_mem_none n)⟩
  | cons c cs ih =>
      rw [shortestFrom, next?_eq hq, List.length_cons]
      cases hr : a.next q c with
      | none => exact ⟨none, rfl, fun n hn => absurd hn (Option.not_mem_none n)⟩
      | some r =>
          have hlt := hrange q c r hr
          obtain ⟨b, hb⟩ := isAccepting?_of_lt h hlt
          dsimp only
          rw [hb]
          cases b with
          | true =>
              refine ⟨some (i + 1), rfl, fun n hn => ?_⟩
              cases hn
              omega
          | false =>
              obtain ⟨found, hfound, hbound⟩ := ih (i := i + 1) hlt
              refine ⟨found, hfound, fun stop hstop => ?_⟩
              have hstop := hbound stop hstop
              omega

theorem finds_shortestMatch (input : List Char) (pos : Nat) :
    Finds pos input.length (a.shortestMatch input pos) := by
  obtain ⟨hpos, -, -⟩ := check_eq_ok_iff.1 h
  obtain ⟨found, hfound, hbound⟩ := finds_shortestFrom h hpos (i := pos) (input.drop pos)
  refine ⟨found, hfound, fun stop hstop => ?_⟩
  have hstop := hbound stop hstop
  rw [List.length_drop] at hstop
  omega

theorem acceptsWord_of_check (input : List Char) : ∃ b, a.acceptsWord input = .ok b := by
  obtain ⟨hpos, -, hrange⟩ := check_eq_ok_iff.1 h
  cases hq : a.follow 0 input with
  | none => exact ⟨false, acceptsWord_of_stuck hrange hpos hq⟩
  | some q =>
      rw [acceptsWord_of_follow hq]
      exact isAccepting?_of_lt h (follow_lt hrange hpos hq)

end Automaton

namespace Cursor

variable {a : Automaton} (h : a.check = .ok ())

include h

theorem next_cases (cur : Cursor) :
    cur.next a = .ok (none, cur) ∨
      (∃ tok cur', cur.next a = .ok (some (.ok tok), cur') ∧ tok.start = cur.position ∧
        tok.start < tok.stop ∧ tok.state < a.states.size ∧ cur'.position = tok.stop ∧
        cur'.position + cur'.rest.length = cur.position + cur.rest.length) ∨
      ∃ e cur', cur.next a = .ok (some (.error e), cur') ∧ cur.rest ≠ [] ∧
        e.start = cur.position ∧ e.position ≤ cur.position + cur.rest.length := by
  by_cases hend : (cur.failed || cur.rest.isEmpty) = true
  · left
    rw [next_eq_run, if_pos hend]
  · right
    obtain ⟨hpos, -, hrange⟩ := Automaton.check_eq_ok_iff.1 h
    obtain ⟨b, hb, hlen⟩ := Automaton.closes_of_check h cur.rest
    have hrun := a.length_run 0 cur.rest
    rw [next_eq_run, if_neg hend]
    dsimp only
    rw [hb]
    cases b with
    | true =>
        have hread := hlen rfl
        refine .inl ⟨_, _, rfl, rfl, ?_, Automaton.state_run_lt hrange hpos, rfl, ?_⟩
        · dsimp only
          omega
        · dsimp only
          omega
    | false =>
        refine .inr ⟨_, _, rfl, fun hnil => hend ?_, rfl, ?_⟩
        · rw [hnil, List.isEmpty_nil, Bool.or_true]
        · dsimp only
          omega

theorem within_drain (cur : Cursor) :
    (cur.drain a).Within a (cur.position + cur.rest.length) := by
  fun_induction cur.drain a with
  | case1 cur d hd =>
      rcases next_cases h cur with hnext | ⟨tok, cur', hnext, -⟩ | ⟨e, cur', hnext, -⟩ <;>
        cases hd.symm.trans hnext
  | case2 cur cur' hnone => exact ⟨fun tok htok => absurd htok List.not_mem_nil, .inl rfl⟩
  | case3 cur e cur' hfail =>
      refine ⟨fun tok htok => absurd htok List.not_mem_nil, .inr ⟨e, rfl, ?_⟩⟩
      rcases next_cases h cur with hnext | ⟨tok, cur', hnext, -⟩ |
        ⟨e', cur', hnext, hne, hstart, hle⟩ <;> cases hfail.symm.trans hnext
      have hpos := List.length_pos_iff.2 hne
      omega
  | case4 cur tok cur' htok s ih =>
      rcases next_cases h cur with hnext | ⟨tok', cur', hnext, hstart, hlt, hstate, hpos, hlen⟩ |
        ⟨e, cur', hnext, -⟩ <;> cases htok.symm.trans hnext
      rw [hlen] at ih
      refine ⟨List.forall_mem_cons.2 ⟨⟨hlt, ?_, hstate⟩, ih.tokens⟩, ih.ending⟩
      omega

end Cursor

theorem Automaton.safe_of_check {a : Automaton} (h : a.check = .ok ()) : a.Safe where
  follow := follow?_of_check h
  next cur := by
    rcases Cursor.next_cases h cur with hnext | ⟨tok, cur', hnext, -⟩ | ⟨e, cur', hnext, -⟩ <;>
      exact ⟨_, hnext⟩
  drain input pos := by
    have hwithin := Cursor.within_drain h (Cursor.ofInput input pos)
    have hend : (Cursor.ofInput input pos).position + (Cursor.ofInput input pos).rest.length =
        input.length := by
      change min pos input.length + (input.drop pos).length = input.length
      rw [List.length_drop]
      omega
    rwa [hend] at hwithin
  longestMatch := finds_longestMatch h
  shortestMatch := finds_shortestMatch h
  acceptsWord := acceptsWord_of_check h

/-- The lexer has an answer. The context it shows of a failure goes up to the last symbol that it
may show, and a token of an unknown kind begins with the symbol it is reported with. -/
def Tables.Lexes (t : Tables) (input : List Char) : Prop :=
  (∃ ls, t.lex input = .ok ls) ∨
    (∃ e, t.lex input = .error (.scan e) ∧ e.position ≤ input.length ∧
      (context input e.position).1 + (context input e.position).2.length =
        min (e.position + 16) input.length) ∨
    ∃ e c, t.lex input = .error (.unknownKind e) ∧ input[e.start]? = some c ∧ e.cause = .symbol c

structure Tables.Safe (t : Tables) : Prop where
  automaton : t.automaton.Safe
  lexes : ∀ input, t.Lexes input
  minimize : (Dfa.ofTables t).minimize? = some (Dfa.ofTables t).minimize
  blocks : ∀ rounds, Partition.Dense ((Dfa.ofTables t).refineOnce^[rounds]
    (Dfa.ofTables t).rulePartition) (Dfa.ofTables t).states.size

theorem length_context {input : List Char} {pos : Nat} (h : pos ≤ input.length) :
    (context input pos).1 + (context input pos).2.length = min (pos + 16) input.length := by
  simp only [context, List.length_map, List.length_take, List.length_drop]
  omega

namespace Dfa

theorem dense_iterate_refineOnce (d : Dfa) (rounds : Nat) :
    Partition.Dense (d.refineOnce^[rounds] d.rulePartition) d.states.size := by
  cases rounds with
  | zero => exact fair_rulePartition.dense
  | succ rounds =>
      rw [Function.iterate_succ_apply']
      exact dense_refineOnce

end Dfa

namespace Tables

variable {t : Tables}

theorem states_ofTables (h : t.ruleOf.size = t.automaton.states.size) :
    (Dfa.ofTables t).automaton.states = t.automaton.states := by
  rw [Dfa.automaton, Dfa.ofTables, Array.map_zipWith]
  apply Array.ext
  · simp [h]
  · intro q hq hq'
    simp

theorem lexemes_eq_error {input : List Char} {toks : List Token} {e : LexError}
    (h : t.lexemes input toks = .error e) :
    ∃ tok ∈ toks, e = .unknownKind ⟨tok.start, tok.start, .ofRest (input.drop tok.start)⟩ := by
  induction toks with
  | nil => cases h
  | cons tok toks ih =>
      rw [lexemes] at h
      split at h
      case h_1 =>
        cases h
        exact ⟨tok, List.mem_cons_self, rfl⟩
      case h_2 =>
        cases hrest : t.lexemes input toks with
        | error e' =>
            rw [hrest] at h
            cases h
            obtain ⟨tok', htok', rfl⟩ := ih hrest
            exact ⟨tok', List.mem_cons_of_mem _ htok', rfl⟩
        | ok ls =>
            rw [hrest] at h
            cases h

theorem lexes_of_safe (h : t.automaton.Safe) (input : List Char) : t.Lexes input := by
  obtain ⟨htokens, hending⟩ := h.drain input 0
  rw [Lexes, lex, Automaton.scan]
  cases hls : t.lexemes input ((Cursor.ofInput input 0).drain t.automaton).tokens with
  | error e =>
      obtain ⟨tok, htok, rfl⟩ := lexemes_eq_error hls
      obtain ⟨hlt, hle, -⟩ := htokens tok htok
      have hc := List.getElem?_eq_getElem (hlt.trans_le hle)
      refine .inr (.inr ⟨_, _, rfl, hc, ?_⟩)
      dsimp only
      rw [Cause.ofRest_drop, hc]
      rfl
  | ok ls =>
      rcases hending with hcomplete | ⟨e, hfailed, -, hle⟩
      · rw [hcomplete]
        exact .inl ⟨ls, rfl⟩
      · rw [hfailed]
        exact .inr (.inl ⟨e, rfl, hle, length_context hle⟩)

theorem safe_of_check (h : t.check = .ok ()) : t.Safe := by
  obtain ⟨hcheck, hrules⟩ := check_eq_ok_iff.1 h
  have hsafe := Automaton.safe_of_check hcheck
  have hrange : (Dfa.ofTables t).automaton.InRange := by
    intro q c r hr
    rw [Automaton.next, states_ofTables hrules] at hr
    rw [states_ofTables hrules]
    exact (Automaton.check_eq_ok_iff.1 hcheck).2.2 q c r hr
  exact ⟨hsafe, lexes_of_safe hsafe, Dfa.minimize?_of_inRange hrange,
    Dfa.dense_iterate_refineOnce _⟩

/-- Checked tables can be run on every input, and whatever is read from a text or from JSON has been
checked. -/
theorem checked_safe :
    (∀ a : Automaton, a.check = .ok () → a.Safe) ∧ (∀ t : Tables, t.check = .ok () → t.Safe) ∧
      (∀ text r, TableText.read text = .ok r → r.automaton.check = .ok ()) ∧
      ∀ bytes t, TableJson.read bytes = .ok t → t.check = .ok () := by
  refine ⟨fun a => Automaton.safe_of_check, fun t => safe_of_check, fun text r hread => ?_,
    fun bytes t hread => ?_⟩
  · exact (TableText.readLines_eq_ok_iff.1 hread).1
  · rw [TableJson.read] at hread
    split at hread
    · cases hread
    · rename_i u _
      cases hcheck : u.check with
      | error e =>
          rw [hcheck] at hread
          cases hread
      | ok =>
          rw [hcheck] at hread
          cases hread
          exact hcheck

def foreignTables : Tables :=
  ⟨⟨#[⟨[('x', 1)], List.pairwise_singleton _ _⟩, .empty], #[false, true]⟩, #[noRule, 99], []⟩

theorem checked_safe_foreign :
    foreignTables.check = .ok () ∧ foreignTables.Safe ∧ foreignTables.automaton.Safe ∧
      (∃ text r, TableText.read text = .ok r ∧ r.automaton.check = .ok ()) ∧
      ∃ bytes t, TableJson.read bytes = .ok t ∧ t.check = .ok () := by
  have hcheck : foreignTables.check = .ok () := rfl
  have htext : TableText.read (TableText.render ⟨['x'], ['D'], foreignTables.automaton⟩) =
      .ok ⟨['x'], ['D'], foreignTables.automaton⟩ :=
    TableText.read_render_of_check rfl rfl rfl (by decide)
  have hjson := TableJson.read_render_of_check hcheck (by decide)
  exact ⟨hcheck, checked_safe.2.1 _ hcheck, checked_safe.1 _ rfl,
    ⟨_, _, htext, checked_safe.2.2.1 _ _ htext⟩, _, _, hjson, checked_safe.2.2.2 _ _ hjson⟩

end Tables

end Munch
