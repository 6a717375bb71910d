import Munch.Proofs.Restart

namespace Munch

namespace Automaton

variable {a : Automaton} {input : List Char} {start stop stop' q q' : Nat}

theorem follow?_append {u : List Char} (h : a.follow? q u = .ok (some q')) (v : List Char) :
    a.follow? q (u ++ v) = a.follow? q' v := by
  induction u generalizing q with
  | nil =>
      cases h
      rfl
  | cons c u ih =>
      rw [follow?] at h
      rw [List.cons_append, follow?]
      split at h
      · cases h
      · cases h
      · exact ih h

theorem Halts.append (h : a.Halts input start stop q) (hlt : stop < input.length)
    (more : List Char) : a.Halts (input ++ more) start stop q where
  start_le := h.start_le
  stop_le := by
    rw [List.length_append]
    exact h.stop_le.trans (Nat.le_add_right _ _)
  follow := by
    have hle := h.start_le
    rw [List.extract_eq_take_drop, List.drop_append_of_le_length (by omega),
      List.take_append_of_le_length (by rw [List.length_drop]; omega), ← List.extract_eq_take_drop]
    exact h.follow
  stuck c hc := by
    rw [List.getElem?_append_left hlt] at hc
    exact h.stuck c hc

theorem Halts.not_lt (h : a.Halts input start stop q) (h' : a.Halts input start stop' q') :
    ¬ stop < stop' := by
  intro hlt
  have hin := hlt.trans_le h'.stop_le
  have hlen : stop' - start = (stop - start) + (stop' - (stop + 1) + 1) := by
    have hle := h.start_le
    omega
  have hword : input.extract start stop' =
      input.extract start stop ++ input[stop] :: input.extract (stop + 1) stop' := by
    rw [List.extract_eq_take_drop, hlen, List.take_add, List.drop_drop,
      Nat.add_sub_cancel' h.start_le, List.drop_eq_getElem_cons hin, List.take_succ_cons,
      List.extract_eq_take_drop, List.extract_eq_take_drop]
  have hfollow := h'.follow
  rw [hword, follow?_append h.follow, follow?, h.stuck _ (List.getElem?_eq_getElem hin)] at hfollow
  cases hfollow

theorem Halts.unique (h : a.Halts input start stop q) (h' : a.Halts input start stop' q') :
    stop' = stop ∧ q' = q := by
  obtain rfl := Nat.le_antisymm (Nat.not_lt.1 (h.not_lt h')) (Nat.not_lt.1 (h'.not_lt h))
  cases h.follow.symm.trans h'.follow
  exact ⟨rfl, rfl⟩

end Automaton

variable {a : Automaton} {x y : List Char}
variable {items items' : List (Except ScanFailure Token)} {p final final' : Nat}

theorem Token.Closed.append {tok : Token} (h : tok.Closed a x) (hlt : tok.stop < x.length) :
    tok.Closed a (x ++ y) := ⟨h.halts.append hlt y, h.nonempty, h.accepting⟩

theorem ScanFailure.Open.append {e : ScanFailure} (h : e.Open a x) (hlt : e.position < x.length) :
    e.Open a (x ++ y) := by
  obtain ⟨⟨q, hhalts, hq⟩, hcause⟩ := h
  refine ⟨⟨q, hhalts.append hlt y, hq⟩, ?_⟩
  rw [hcause, List.getElem?_append_left hlt]

theorem Token.Closed.not_open {tok : Token} {e : ScanFailure} (h : tok.Closed a x)
    (he : e.Open a x) : e.start ≠ tok.start := by
  intro hstart
  obtain ⟨⟨q, hhalts, hq⟩, -⟩ := he
  rw [hstart] at hhalts hq
  obtain ⟨hstop, rfl⟩ := h.halts.unique hhalts
  rcases hq with hempty | hreject
  · exact h.nonempty.ne (hempty.symm.trans hstop)
  · cases h.accepting.symm.trans hreject

namespace Tiles

theorem of_closed {tok : Token} (htok : tok.Closed a x) (h : Tiles a x tok.start items final) :
    ∃ rest, items = .ok tok :: rest ∧ Tiles a x tok.stop rest final := by
  have hlt := htok.nonempty.trans_le htok.halts.stop_le
  obtain ⟨start, stop, q⟩ := tok
  cases h with
  | complete => exact absurd hlt (Nat.lt_irrefl _)
  | failed he => exact absurd rfl (htok.not_open he)
  | @token tok' rest _ htok' hrest =>
      obtain ⟨start', stop', q'⟩ := tok'
      obtain ⟨rfl, rfl⟩ := htok.halts.unique htok'.halts
      exact ⟨rest, rfl, hrest⟩

theorem of_open {e : ScanFailure} (he : e.Open a x) (hlt : e.start < x.length)
    (h : Tiles a x e.start items final) : items = [.error e] := by
  obtain ⟨start, position, cause⟩ := e
  cases h with
  | complete => exact absurd hlt (Nat.lt_irrefl _)
  | @failed e' he' =>
      obtain ⟨start', position', cause'⟩ := e'
      obtain ⟨⟨q, hhalts, -⟩, hcause⟩ := he
      obtain ⟨⟨q', hhalts', -⟩, hcause'⟩ := he'
      obtain ⟨rfl, -⟩ := hhalts.unique hhalts'
      cases hcause.trans hcause'.symm
      rfl
  | token htok hrest => exact absurd rfl (htok.not_open he)

end Tiles

/-- The end of an input of `n` symbols has a part in the item: it is a token that goes up to there,
or a failure for want of more. -/
def Undecided (n : Nat) : Except ScanFailure Token → Prop
  | .ok tok => tok.stop = n
  | .error e => e.cause = .endOfInput

/-- The items of an input of `n` symbols beside those of a longer one: they are the same, or they
part at the last of the shorter input. -/
inductive Extends (n : Nat) :
    List (Except ScanFailure Token) → List (Except ScanFailure Token) → Prop
  | refl (items : List (Except ScanFailure Token)) : Extends n items items
  | undecided {item : Except ScanFailure Token} (h : Undecided n item)
      (items : List (Except ScanFailure Token)) : Extends n [item] items
  | token {tok : Token} {items items' : List (Except ScanFailure Token)} (hlt : tok.stop < n)
      (h : Extends n items items') : Extends n (.ok tok :: items) (.ok tok :: items')

theorem Cursor.Yields.eq_nil (h : (ofInput x x.length).Yields a items final) : items = [] := by
  obtain ⟨cur, cur', hafter, hnext, -⟩ := h 0
  cases hafter
  have hend : (ofInput x x.length).next a = .ok (none, ofInput x x.length) := by
    rw [ofInput, List.drop_length]
    rfl
  rw [hend] at hnext
  cases items with
  | nil => rfl
  | cons item items => cases hnext

theorem Tiles.append (h : Tiles a x p items final)
    (hyields : (Cursor.ofInput x p).Yields a items final) (hp : p < x.length)
    (h' : Tiles a (x ++ y) p items' final') : Extends x.length items items' := by
  induction h generalizing items' with
  | complete => exact absurd hp (Nat.lt_irrefl _)
  | @failed e he =>
      obtain ⟨q, hhalts, -⟩ := he.halts
      rcases Nat.lt_or_eq_of_le hhalts.stop_le with hlt | hend
      · rw [h'.of_open (he.append hlt) (by rw [List.length_append]; omega)]
        exact .refl _
      · refine .undecided ?_ items'
        rw [Undecided, he.cause, hend, List.getElem?_length]
        rfl
  | @token tok items final htok h ih =>
      have hrest : (Cursor.ofInput x tok.stop).Yields a items final := hyields.restart (i := 0) rfl
      rcases Nat.lt_or_eq_of_le htok.halts.stop_le with hlt | hend
      · obtain ⟨rest, rfl, hnext⟩ := h'.of_closed (htok.append hlt)
        exact .token hlt (ih hrest hlt hnext)
      · have hlast : Undecided x.length (.ok tok) := hend
        rw [hend] at hrest
        rw [hrest.eq_nil]
        exact .undecided hlast items'

namespace Extends

variable {n : Nat}

theorem token_mem (h : Extends n items items') {i : Nat} {tok : Token}
    (hi : items[i]? = some (.ok tok)) (hlt : tok.stop < n) : items'[i]? = some (.ok tok) := by
  induction h generalizing i with
  | refl items => exact hi
  | undecided h items =>
      cases i with
      | zero =>
          cases hi
          exact absurd h hlt.ne
      | succ i => cases hi
  | token _ h ih =>
      cases i with
      | zero => exact hi
      | succ i => exact ih hi

theorem eq_of_symbol (h : Extends n items items') {e : ScanFailure} {c : Char}
    (he : .error e ∈ items) (hc : e.cause = .symbol c) : items' = items := by
  induction h with
  | refl items => rfl
  | undecided h items =>
      cases List.mem_singleton.1 he
      cases hc.symm.trans h
  | token _ h ih =>
      obtain - | ⟨_, hmem⟩ := he
      rw [ih hmem]

theorem eq_or_exists (h : Extends n items items') :
    items' = items ∨ ∃ settled last, items = settled ++ [last] ∧ settled <+: items' ∧
      Undecided n last := by
  induction h with
  | refl items => exact .inl rfl
  | @undecided item h items => exact .inr ⟨[], item, rfl, List.nil_prefix, h⟩
  | token _ h ih =>
      rcases ih with rfl | ⟨settled, last, rfl, hprefix, hlast⟩
      · exact .inl rfl
      · exact .inr ⟨_ :: settled, last, rfl, List.prefix_cons_inj _ |>.2 hprefix, hlast⟩

end Extends

/-- What comes behind an input changes nothing in its scan but what its end has a part in: the last
item, if it is a token that goes up to the end or a failure for want of more. -/
theorem Automaton.scan_append (h : a.check = .ok ()) (x y : List Char) :
    ∃ (items items' : List (Except ScanFailure Token)) (final final' : Nat),
      (Cursor.ofInput x 0).Yields a items final ∧ (a.scan x).result = .ok (items.mapM id) ∧
      (Cursor.ofInput (x ++ y) 0).Yields a items' final' ∧
      (a.scan (x ++ y)).result = .ok (items'.mapM id) ∧
      (∀ (i : Nat) (tok : Token), items[i]? = some (.ok tok) → tok.stop < x.length →
        items'[i]? = some (.ok tok)) ∧
      (∀ e c, .error e ∈ items → e.cause = .symbol c → items' = items) ∧
      (items' = items ∨ x = [] ∨ ∃ settled last, items = settled ++ [last] ∧
        settled <+: items' ∧ Undecided x.length last) := by
  obtain ⟨items, final, htiles, hyields, hresult⟩ := Cursor.exists_tiles h x (Nat.zero_le _)
  obtain ⟨items', final', htiles', hyields', hresult'⟩ :=
    Cursor.exists_tiles h (x ++ y) (Nat.zero_le _)
  refine ⟨items, items', final, final', hyields, hresult, hyields', hresult', ?_⟩
  by_cases hx : x = []
  · subst hx
    obtain rfl := hyields.eq_nil
    refine ⟨fun i tok hi => ?_, fun e c he => ?_, .inr (.inl rfl)⟩
    · cases hi
    · cases he
  · have hext := htiles.append hyields (List.length_pos_iff.2 hx) htiles'
    exact ⟨fun i tok => hext.token_mem, fun e c => hext.eq_of_symbol,
      hext.eq_or_exists.imp_right .inr⟩

theorem Automaton.scan_append_letters :
    letters.check = .ok () ∧ ∃ items final final',
      (Cursor.ofInput ['a', 'a', 'b'] 0).Yields letters items final ∧
      (Cursor.ofInput ['a', 'a', 'b', 'a'] 0).Yields letters items final' ∧
      items[0]? = some (.ok ⟨0, 2, 1⟩) ∧ items[1]? = some (.error ⟨2, 2, .symbol 'b'⟩) := by
  have hcheck : letters.check = .ok () := rfl
  obtain ⟨items, items', final, final', hyields, -, hyields', -, -, hsame, -⟩ :=
    scan_append hcheck ['a', 'a', 'b'] ['a']
  have hfirst : items[0]? = some (.ok ⟨0, 2, 1⟩) := by
    obtain ⟨cur, cur', ⟨⟩, hnext, -⟩ := hyields 0
    exact (congrArg Prod.fst (Except.ok.inj hnext)).symm
  have hsecond : items[1]? = some (.error ⟨2, 2, .symbol 'b'⟩) := by
    obtain ⟨cur, cur', ⟨⟩, hnext, -⟩ := hyields 1
    exact (congrArg Prod.fst (Except.ok.inj hnext)).symm
  obtain rfl := hsame _ 'b' (List.mem_of_getElem? hsecond) rfl
  exact ⟨hcheck, items', final, final', hyields, hyields', hfirst, hsecond⟩

end Munch
