import Munch.Proofs.Extension
import Munch.Proofs.Safety

namespace Munch

theorem Cursor.exists_of_mapM {items : List (Except ScanFailure Token)} {tok : Token}
    {toks : List Token} (h : items.mapM id = .ok (tok :: toks)) :
    ∃ rest, items = .ok tok :: rest := by
  cases items with
  | nil => cases h
  | cons item rest =>
      rw [List.mapM_cons] at h
      cases item with
      | error e => cases h
      | ok tok' =>
          cases hrest : rest.mapM id with
          | error e =>
              rw [hrest] at h
              cases h
          | ok toks' =>
              rw [hrest] at h
              cases h
              exact ⟨rest, rfl⟩

theorem Tiles.closed {a : Automaton} {input : List Char} {tok : Token} {p final : Nat}
    {items : List (Except ScanFailure Token)} (h : Tiles a input p (.ok tok :: items) final) :
    tok.Closed a input := by
  cases h with
  | token htok h => exact htok

namespace Automaton

variable {a : Automaton}

variable (a) in
/-- The lengths at which a run from `q` has read something and is in an accepting state. -/
def accepted (q : Nat) (cs : List Char) : Set Nat :=
  {n | 0 < n ∧ n ≤ cs.length ∧ ∃ r, a.follow q (cs.take n) = some r ∧ a.isAccepting? r = .ok true}

theorem succ_mem_accepted_iff {q r n : Nat} {c : Char} {cs : List Char} (hr : a.next q c = some r)
    (hreject : a.isAccepting? r = .ok false) :
    n + 1 ∈ a.accepted q (c :: cs) ↔ n ∈ a.accepted r cs := by
  have hfollow : a.follow q (c :: cs.take n) = a.follow r (cs.take n) := by
    rw [follow, hr, Option.bind_some]
  rw [accepted, accepted, Set.mem_ofPred_eq, Set.mem_ofPred_eq, List.take_succ_cons, hfollow,
    List.length_cons]
  constructor
  · rintro ⟨-, hle, s, hs, haccept⟩
    refine ⟨Nat.pos_of_ne_zero ?_, Nat.le_of_succ_le_succ hle, s, hs, haccept⟩
    rintro rfl
    cases hs
    cases hreject.symm.trans haccept
  · rintro ⟨-, hle, hs⟩
    exact ⟨Nat.succ_pos n, Nat.succ_le_succ hle, hs⟩

variable (a) in
def stops (input : List Char) (pos : Nat) : Set Nat :=
  {stop | pos < stop ∧ stop ≤ input.length ∧ a.acceptsWord (input.extract pos stop) = .ok true}

section Checked

variable (h : a.check = .ok ())

include h

theorem shortestFrom_cases {q : Nat} (hq : q < a.states.size) (i : Nat) (cs : List Char) :
    (a.shortestFrom q i cs = .ok none ∧ a.accepted q cs = ∅) ∨
      ∃ n, a.shortestFrom q i cs = .ok (some (i + n)) ∧ IsLeast (a.accepted q cs) n := by
  obtain ⟨-, -, hrange⟩ := check_eq_ok_iff.1 h
  induction cs generalizing q i with
  | nil =>
      refine .inl ⟨rfl, Set.eq_empty_of_forall_notMem ?_⟩
      rintro n ⟨hpos, hle, -⟩
      exact absurd hpos (Nat.not_lt.2 hle)
  | cons c cs ih =>
      rw [shortestFrom, next?_eq hq]
      cases hr : a.next q c with
      | none =>
          refine .inl ⟨rfl, Set.eq_empty_of_forall_notMem ?_⟩
          rintro (_ | n) ⟨hpos, -, s, hs, -⟩
          · exact absurd hpos (Nat.lt_irrefl _)
          · rw [List.take_succ_cons, follow, hr] at hs
            cases hs
      | some r =>
          have hlt := hrange q c r hr
          obtain ⟨b, hb⟩ := isAccepting?_of_lt h hlt
          dsimp only
          rw [hb]
          cases b with
          | true =>
              refine .inr ⟨1, rfl, ⟨Nat.one_pos, Nat.le_add_left _ _, r, ?_, hb⟩, fun n hn => hn.1⟩
              rw [List.take_succ_cons, follow, hr]
              rfl
          | false =>
              dsimp only
              rcases ih hlt (i + 1) with ⟨hnone, hempty⟩ | ⟨n, hn, hmem, hleast⟩
              · refine .inl ⟨hnone, Set.eq_empty_of_forall_notMem ?_⟩
                rintro (_ | m) hm
                · exact absurd hm.1 (Nat.lt_irrefl _)
                · rw [succ_mem_accepted_iff hr hb, hempty] at hm
                  exact hm
              · rw [Nat.add_assoc, Nat.add_comm 1 n] at hn
                refine .inr ⟨n + 1, hn, (succ_mem_accepted_iff hr hb).2 hmem, ?_⟩
                rintro (_ | m) hm
                · exact absurd hm.1 (Nat.lt_irrefl _)
                · exact Nat.succ_le_succ (hleast ((succ_mem_accepted_iff hr hb).1 hm))

theorem acceptsWord_eq_true_iff {w : List Char} : a.acceptsWord w = .ok true ↔
    ∃ q, a.follow 0 w = some q ∧ a.isAccepting? q = .ok true := by
  obtain ⟨hpos, -, hrange⟩ := check_eq_ok_iff.1 h
  cases hw : a.follow 0 w with
  | none =>
      rw [acceptsWord_of_stuck hrange hpos hw]
      simp
  | some q =>
      rw [acceptsWord_of_follow hw]
      simp

/-- The first call of a scan and the longest match find a token, or neither of them does. -/
theorem longestMatch_cases (input : List Char) (pos : Nat) :
    (∃ tok cur, tok.Closed a input ∧ tok.start = pos ∧
        (Cursor.ofInput input pos).next a = .ok (some (.ok tok), cur) ∧
        a.longestMatch input pos = .ok (some tok.stop)) ∨
      ∃ found cur, (Cursor.ofInput input pos).next a = .ok (found, cur) ∧
        (∀ tok, found ≠ some (.ok tok)) ∧ a.longestMatch input pos = .ok none := by
  have hlen := a.length_run 0 (input.drop pos)
  rw [List.length_drop] at hlen
  rw [longestMatch_eq_run]
  rcases closes_cases h (input.drop pos) with ⟨hcloses, hread, haccept⟩ | ⟨hcloses, -⟩
  · left
    have hle : pos ≤ input.length := by omega
    have hne : input.drop pos ≠ [] := List.ne_nil_of_length_pos (by rw [List.length_drop]; omega)
    rw [Cursor.ofInput_of_le input hle, Cursor.next_of_closes hne hcloses, hcloses]
    exact ⟨⟨pos, _, _⟩, _, ⟨halts_run h input hle, Nat.lt_add_of_pos_right hread, haccept⟩, rfl,
      rfl, rfl⟩
  · right
    rw [hcloses, Cursor.ofInput]
    by_cases hend : input.drop pos = []
    · rw [hend]
      refine ⟨none, _, rfl, ?_, rfl⟩
      rintro tok ⟨⟩
    · rw [Cursor.next_of_closes hend hcloses]
      refine ⟨_, _, rfl, ?_, rfl⟩
      rintro tok ⟨⟩

theorem stops_eq_image (input : List Char) (pos : Nat) :
    a.stops input pos = Set.image (pos + ·) (a.accepted 0 (input.drop pos)) := by
  ext stop
  rw [stops, accepted, Set.mem_image, Set.mem_ofPred_eq, acceptsWord_eq_true_iff h]
  constructor
  · rintro ⟨hlt, hle, haccept⟩
    rw [List.extract_eq_take_drop] at haccept
    refine ⟨stop - pos, ⟨Nat.sub_pos_of_lt hlt, ?_, haccept⟩, Nat.add_sub_cancel' hlt.le⟩
    rw [List.length_drop]
    exact Nat.sub_le_sub_right hle pos
  · rintro ⟨n, ⟨hpos, hle, haccept⟩, rfl⟩
    rw [List.length_drop] at hle
    refine ⟨Nat.lt_add_of_pos_right hpos, by omega, ?_⟩
    rw [List.extract_eq_take_drop, Nat.add_sub_cancel_left]
    exact haccept

theorem shortestMatch_cases (input : List Char) (pos : Nat) :
    (a.shortestMatch input pos = .ok none ∧ a.stops input pos = ∅) ∨
      ∃ stop, a.shortestMatch input pos = .ok (some stop) ∧ IsLeast (a.stops input pos) stop := by
  obtain ⟨hpos, -, -⟩ := check_eq_ok_iff.1 h
  rw [shortestMatch, stops_eq_image h]
  rcases shortestFrom_cases h hpos pos (input.drop pos) with ⟨hnone, hempty⟩ | ⟨n, hn, hleast⟩
  · rw [hnone, hempty, Set.image_empty]
    exact .inl ⟨rfl, rfl⟩
  · rw [hn]
    have hmono : Monotone (pos + · : Nat → Nat) := fun m k hle => Nat.add_le_add_left hle pos
    exact .inr ⟨pos + n, rfl, hmono.map_isLeast hleast⟩

theorem exists_shortestMatch (input : List Char) (pos : Nat) :
    ∃ shortest, a.shortestMatch input pos = .ok shortest ∧
      ∀ stop, shortest = some stop ↔ IsLeast (a.stops input pos) stop := by
  rcases shortestMatch_cases h input pos with ⟨hnone, hempty⟩ | ⟨stop, hstop, hleast⟩
  · refine ⟨none, hnone, fun stop => ⟨?_, fun hleast => ?_⟩⟩
    · rintro ⟨⟩
    · rw [hempty] at hleast
      exact absurd hleast.1 (Set.notMem_empty stop)
  · refine ⟨some stop, hstop, fun stop' => ?_⟩
    rw [Option.some.injEq]
    exact ⟨fun heq => heq ▸ hleast, hleast.unique⟩

theorem exists_shortest_of_mem {input : List Char} {pos stop : Nat}
    (hstop : stop ∈ a.stops input pos) :
    ∃ stop' ≤ stop, a.shortestMatch input pos = .ok (some stop') := by
  rcases shortestMatch_cases h input pos with ⟨-, hempty⟩ | ⟨stop', hstop', hleast⟩
  · rw [hempty] at hstop
    exact absurd hstop (Set.notMem_empty stop)
  · exact ⟨stop', hleast.2 hstop, hstop'⟩

theorem stop_mem_stops {input : List Char} {tok : Token} (htok : tok.Closed a input) :
    tok.stop ∈ a.stops input tok.start := by
  obtain ⟨hpos, -, hrange⟩ := check_eq_ok_iff.1 h
  refine ⟨htok.nonempty, htok.halts.stop_le, (acceptsWord_eq_true_iff h).2 ⟨_, ?_, htok.accepting⟩⟩
  have hfollow := htok.halts.follow
  rw [follow?_eq hrange hpos] at hfollow
  exact Except.ok.inj hfollow

theorem acceptsWord_iff_scan {input : List Char} (hne : input ≠ []) :
    a.acceptsWord input = .ok true ↔
      ∃ q, (a.scan input).result = .ok (.ok [⟨0, input.length, q⟩]) := by
  obtain ⟨hpos, -, hrange⟩ := check_eq_ok_iff.1 h
  obtain ⟨items, final, htiles, hyields, hresult⟩ := Cursor.exists_tiles h input (Nat.zero_le _)
  have hwhole : input.extract 0 input.length = input := by simp
  constructor
  · intro haccept
    obtain ⟨q, hq, hflag⟩ := (acceptsWord_eq_true_iff h).1 haccept
    have htok : Token.Closed ⟨0, input.length, q⟩ a input := by
      refine ⟨⟨Nat.zero_le _, le_rfl, ?_, fun c hc => ?_⟩, List.length_pos_iff.2 hne, hflag⟩
      · rw [hwhole, follow?_eq hrange hpos, hq]
      · rw [List.getElem?_length] at hc
        cases hc
    obtain ⟨rest, rfl, -⟩ := htiles.of_closed htok
    have hrest : (Cursor.ofInput input input.length).Yields a rest final :=
      hyields.restart (i := 0) rfl
    rw [hrest.eq_nil] at hresult
    exact ⟨q, hresult⟩
  · rintro ⟨q, hq⟩
    have hitems := Except.ok.inj (hresult.symm.trans hq)
    obtain ⟨rest, rfl⟩ := Cursor.exists_of_mapM hitems
    have hstop := (stop_mem_stops h htiles.closed).2.2
    rwa [hwhole] at hstop

end Checked

/-- The longest match is the first token of a scan, the shortest one is the least offset at which
the symbols are accepted, and a word is accepted just if it is one token. -/
theorem single_matches_agree {a : Automaton} (h : a.check = .ok ()) (input : List Char)
    (pos : Nat) :
    ∃ found cur longest shortest accepts,
      (Cursor.ofInput input pos).next a = .ok (found, cur) ∧
      a.longestMatch input pos = .ok longest ∧ a.shortestMatch input pos = .ok shortest ∧
      a.acceptsWord input = .ok accepts ∧
      (∀ stop, longest = some stop ↔ ∃ tok, found = some (.ok tok) ∧ tok.stop = stop) ∧
      (longest = none ↔ found = none ∨ ∃ e, found = some (.error e)) ∧
      (∀ stop, shortest = some stop ↔ IsLeast {stop | pos < stop ∧ stop ≤ input.length ∧
        a.acceptsWord (input.extract pos stop) = .ok true} stop) ∧
      (∀ stop, longest = some stop → ∃ stop' ≤ stop, shortest = some stop') ∧
      (input ≠ [] → (accepts = true ↔
        ∃ q, (a.scan input).result = .ok (.ok [⟨0, input.length, q⟩]))) := by
  obtain ⟨accepts, haccepts⟩ := acceptsWord_of_check h input
  have hscan : input ≠ [] → (accepts = true ↔
      ∃ q, (a.scan input).result = .ok (.ok [⟨0, input.length, q⟩])) := by
    intro hne
    rw [← acceptsWord_iff_scan h hne, haccepts, Except.ok.injEq]
  obtain ⟨shortest, hshortest, hleast⟩ := exists_shortestMatch h input pos
  rcases longestMatch_cases h input pos with
    ⟨tok, cur, htok, rfl, hnext, hlongest⟩ | ⟨found, cur, hnext, hnone, hlongest⟩
  · refine ⟨_, cur, _, shortest, accepts, hnext, hlongest, hshortest, haccepts, ?_, ?_, hleast, ?_,
      hscan⟩
    · simp
    · simp
    · rintro stop ⟨⟩
      obtain ⟨stop, hle, hstop⟩ := exists_shortest_of_mem h (stop_mem_stops h htok)
      cases hshortest.symm.trans hstop
      exact ⟨stop, hle, rfl⟩
  · refine ⟨found, cur, none, shortest, accepts, hnext, hlongest, hshortest, haccepts, ?_, ?_,
      hleast, ?_, hscan⟩
    · intro stop
      constructor
      · rintro ⟨⟩
      · rintro ⟨tok, htok, -⟩
        exact absurd htok (hnone tok)
    · rcases found with _ | e | tok
      · simp
      · simp
      · exact absurd rfl (hnone tok)
    · rintro stop ⟨⟩

theorem single_matches_agree_letters :
    letters.check = .ok () ∧ letters.longestMatch ['b', 'a', 'a'] 1 = .ok (some 3) ∧
      letters.shortestMatch ['b', 'a', 'a'] 1 = .ok (some 2) := by
  have hcheck : letters.check = .ok () := rfl
  have hfirst : (Cursor.ofInput ['b', 'a', 'a'] 1).next letters =
      .ok (some (.ok ⟨1, 3, 1⟩), ⟨3, [], false⟩) := rfl
  obtain ⟨found, cur, longest, shortest, accepts, hnext, hlongest, hshortest, -, hlong, -, hshort,
    -⟩ := single_matches_agree hcheck ['b', 'a', 'a'] 1
  cases hfirst.symm.trans hnext
  obtain rfl := (hlong 3).2 ⟨_, rfl, rfl⟩
  obtain rfl := (hshort 2).2 ⟨⟨by decide, by decide, rfl⟩, fun stop hstop => hstop.1⟩
  exact ⟨hcheck, hlongest, hshortest⟩

end Automaton

end Munch
