import Munch.Proofs.Tiling

namespace Munch

def Token.shift (p : Nat) (tok : Token) : Token := ⟨p + tok.start, p + tok.stop, tok.state⟩

def ScanFailure.shift (p : Nat) (e : ScanFailure) : ScanFailure :=
  ⟨p + e.start, p + e.position, e.cause⟩

namespace Cursor

def shiftItem (p : Nat) : Except ScanFailure Token → Except ScanFailure Token
  | .ok tok => .ok (tok.shift p)
  | .error e => .error (e.shift p)

def shift (p : Nat) (cur : Cursor) : Cursor := ⟨p + cur.position, cur.rest, cur.failed⟩

variable {a : Automaton} {cur cur' : Cursor} {found : Option (Except ScanFailure Token)}
variable {items : List (Except ScanFailure Token)} {input : List Char} {final m : Nat}

section Shift

variable (p : Nat)

theorem startOf_shiftItem (item : Except ScanFailure Token) :
    startOf (shiftItem p item) = p + startOf item := by
  cases item <;> rfl

/-- What a call does depends on the symbols that are left and not on their place. -/
theorem next_shift (cur : Cursor) : (cur.shift p).next a =
    (cur.next a).map fun r => (r.1.map (shiftItem p), r.2.shift p) := by
  by_cases hend : (cur.failed || cur.rest.isEmpty) = true
  · rw [next_eq_run, next_eq_run, shift, if_pos hend, if_pos hend]
    rfl
  · rw [next_eq_run, next_eq_run, shift, if_neg hend, if_neg hend]
    dsimp only
    rw [Nat.add_assoc]
    cases a.closes (a.run 0 cur.rest) with
    | error d => rfl
    | ok closed => cases closed <;> rfl

theorem after_shift (cur : Cursor) (n : Nat) :
    (cur.shift p).after a n = (cur.after a n).map (shift p) := by
  induction n generalizing cur with
  | zero => rfl
  | succ n ih =>
      rw [after, after, next_shift]
      cases cur.next a with
      | error d => rfl
      | ok r => exact ih r.2

theorem Yields.shift (h : cur.Yields a items final) :
    (cur.shift p).Yields a (items.map (shiftItem p)) (p + final) := by
  intro n
  obtain ⟨cur', cur'', hafter, hnext, hpos⟩ := h n
  refine ⟨cur'.shift p, cur''.shift p, ?_, ?_, ?_⟩
  · rw [after_shift, hafter]
    rfl
  · rw [next_shift, hnext, List.getElem?_map]
    rfl
  · change p + cur'.position = _
    rw [hpos, List.getElem?_map]
    cases items[n]? with
    | none => rfl
    | some item => exact (startOf_shiftItem p item).symm

theorem ofInput_eq_shift (hp : p ≤ input.length) :
    ofInput input p = (ofInput (input.drop p) 0).shift p := by
  rw [ofInput_of_le input hp, ofInput_of_le (input.drop p) (Nat.zero_le _)]
  rfl

end Shift

theorem exists_next_of_after (h : cur.after a (m + 1) = .ok cur') :
    ∃ found between, cur.next a = .ok (found, between) ∧ between.after a m = .ok cur' := by
  rw [after] at h
  cases hnext : cur.next a with
  | error d =>
      rw [hnext] at h
      cases h
  | ok r =>
      rw [hnext] at h
      exact ⟨r.1, r.2, rfl, h⟩

theorem after_add (h : cur.after a m = .ok cur') (n : Nat) :
    cur.after a (m + n) = cur'.after a n := by
  induction m generalizing cur with
  | zero =>
      cases h
      rw [Nat.zero_add]
  | succ m ih =>
      obtain ⟨found, between, hnext, hafter⟩ := exists_next_of_after h
      rw [Nat.add_right_comm, after_succ hnext]
      exact ih hafter

theorem Yields.of_after (h : cur.Yields a items final) (hafter : cur.after a m = .ok cur') :
    cur'.Yields a (items.drop m) final := by
  intro n
  rw [List.getElem?_drop, ← after_add hafter]
  exact h (m + n)

def At (input : List Char) (cur : Cursor) : Prop :=
  cur.position ≤ input.length ∧ cur.rest = input.drop cur.position

theorem ofInput_min (input : List Char) (p : Nat) :
    ofInput input (min p input.length) = ofInput input p := by
  rcases Nat.le_total p input.length with hle | hle
  · rw [Nat.min_eq_left hle]
  · rw [Nat.min_eq_right hle, ofInput, ofInput, Nat.min_self, Nat.min_eq_right hle,
      List.drop_length, List.drop_eq_nil_of_le hle]

theorem at_ofInput (input : List Char) (p : Nat) : (ofInput input p).At input := by
  rw [← ofInput_min, ofInput_of_le input (Nat.min_le_right _ _)]
  exact ⟨Nat.min_le_right _ _, rfl⟩

/-- A call keeps the cursor in the input. Behind a token it is as if it had been put there. -/
theorem At.next (h : cur.At input) (hnext : cur.next a = .ok (found, cur')) :
    cur'.At input ∧ ∀ tok, found = some (.ok tok) → cur' = ofInput input tok.stop := by
  obtain ⟨hpos, hrest⟩ := h
  have hlen := a.length_run 0 cur.rest
  have hleft := congrArg List.length hrest
  rw [List.length_drop] at hleft
  have hstop : cur.position + (a.run 0 cur.rest).length ≤ input.length := by omega
  have hdrop : (a.run 0 cur.rest).rest =
      input.drop (cur.position + (a.run 0 cur.rest).length) := by
    rw [← List.drop_drop, ← hrest]
    exact (a.run_spec 0 cur.rest).2.1
  rcases next_eq_ok hnext with ⟨rfl, rfl⟩ | ⟨rfl, rfl⟩ | ⟨rfl, rfl⟩
  · exact ⟨⟨hpos, hrest⟩, fun tok htok => by cases htok⟩
  · refine ⟨⟨hstop, hdrop⟩, ?_⟩
    rintro tok ⟨⟩
    rw [ofInput_of_le input hstop, ← hdrop]
  · exact ⟨⟨hstop, hdrop⟩, fun tok htok => by cases htok⟩

theorem At.after (h : cur.At input) (hafter : cur.after a m = .ok cur') : cur'.At input := by
  induction m generalizing cur with
  | zero =>
      cases hafter
      exact h
  | succ m ih =>
      obtain ⟨found, between, hnext, hafter⟩ := exists_next_of_after hafter
      exact ih (h.next hnext).1 hafter

theorem Yields.restart {q i : Nat} {tok : Token} (h : (ofInput input q).Yields a items final)
    (hi : items[i]? = some (.ok tok)) :
    (ofInput input tok.stop).Yields a (items.drop (i + 1)) final := by
  obtain ⟨cur, cur', hafter, hnext, -⟩ := h i
  rw [hi] at hnext
  have hat := (at_ofInput input q).after hafter
  rw [← (hat.next hnext).2 tok rfl]
  apply h.of_after
  rw [after_add hafter, after_succ hnext, Cursor.after]

end Cursor

/-- A scan from an offset on gives what a scan of the rest of the input gives, at other places. From
the end of a token on it gives what comes behind the token. -/
theorem Automaton.scan_restarts {a : Automaton} (h : a.check = .ok ()) (input : List Char) :
    (∀ p ≤ input.length, ∃ items final,
      (Cursor.ofInput (input.drop p) 0).Yields a items final ∧
        (Cursor.ofInput input p).Yields a (items.map (Cursor.shiftItem p)) (p + final)) ∧
      ∀ q, ∃ items final, (Cursor.ofInput input q).Yields a items final ∧
        ∀ i tok, items[i]? = some (.ok tok) →
          (Cursor.ofInput input tok.stop).Yields a (items.drop (i + 1)) final := by
  refine ⟨fun p hp => ?_, fun q => ?_⟩
  · obtain ⟨items, final, -, hyields, -⟩ :=
      Cursor.exists_tiles h (input.drop p) (p := 0) (Nat.zero_le _)
    refine ⟨items, final, hyields, ?_⟩
    rw [Cursor.ofInput_eq_shift p hp]
    exact hyields.shift p
  · obtain ⟨items, final, -, hyields, -⟩ :=
      Cursor.exists_tiles h input (Nat.min_le_right q input.length)
    rw [Cursor.ofInput_min] at hyields
    exact ⟨items, final, hyields, fun i tok hi => hyields.restart hi⟩

theorem Automaton.scan_restarts_letters :
    letters.check = .ok () ∧
      (∃ items final, (Cursor.ofInput ['a', 'b'] 0).Yields letters items final ∧
        (Cursor.ofInput ['a', 'a', 'b'] 1).Yields letters (items.map (Cursor.shiftItem 1))
          (1 + final)) ∧
      ∃ items final, (Cursor.ofInput ['a', 'a', 'b'] 0).Yields letters items final ∧
        items[0]? = some (.ok ⟨0, 2, 1⟩) ∧
        (Cursor.ofInput ['a', 'a', 'b'] 2).Yields letters (items.drop 1) final := by
  have hcheck : letters.check = .ok () := rfl
  obtain ⟨hshift, hrestart⟩ := scan_restarts hcheck ['a', 'a', 'b']
  obtain ⟨items, final, hyields, hrest⟩ := hrestart 0
  have hfirst : items[0]? = some (.ok ⟨0, 2, 1⟩) := by
    obtain ⟨cur, cur', ⟨⟩, hnext, -⟩ := hyields 0
    exact (congrArg Prod.fst (Except.ok.inj hnext)).symm
  exact ⟨hcheck, hshift 1 (by decide), items, final, hyields, hfirst, hrest 0 _ hfirst⟩

end Munch
