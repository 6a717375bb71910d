import Mathlib
import Munch.Proofs.Combinators
import Munch.Proofs.DirectLexer

namespace Munch.Direct

open Pattern

theorem symbols_digit : (range '0' '9').Symbols (·.isDigit) := by
  refine (symbols_range '0' '9').congr fun c => ?_
  simp [Char.isDigit, Char.le_def]

theorem symbols_identStart : TokenKind.identStart.Symbols (isIdentStart ·) := by
  have hparts := ((symbols_range 'a' 'z').alternate (symbols_range 'A' 'Z')).alternate
    (symbols_literal '_')
  refine hparts.congr fun c => ?_
  simp [isIdentStart, Char.isAlpha, Char.isLower, Char.isUpper, Char.le_def, or_comm]

theorem symbols_identRest :
    (alternate TokenKind.identStart (range '0' '9')).Symbols (isIdentRest ·) := by
  refine (symbols_identStart.alternate symbols_digit).congr fun c => ?_
  rw [isIdentRest, Bool.or_eq_true]

theorem symbols_white :
    ((oneOf? [' ', '\t', '\r', '\n']).get rfl).Symbols (·.isWhitespace) := by
  refine (symbols_oneOf (Option.some_get _).symm).congr fun c => ?_
  simp [Char.isWhitespace, or_assoc]

theorem symbols_line : ((noneOf? ['\n']).get rfl).Symbols (isLineSymbol ·) := by
  refine (symbols_noneOf (Option.some_get _).symm).congr fun c => ?_
  simp [isLineSymbol, isAscii]

theorem symbols_notStar :
    ((noneOf? ['*']).get rfl).Symbols fun c => isAscii c ∧ c ≠ '*' := by
  refine (symbols_noneOf (Option.some_get _).symm).congr fun c => ?_
  simp [isAscii]

theorem symbols_goesOn :
    ((noneOf? ['*', '/']).get rfl).Symbols fun c => isAscii c ∧ c ≠ '*' ∧ c ≠ '/' := by
  refine (symbols_noneOf (Option.some_get _).symm).congr fun c => ?_
  simp [isAscii]

theorem mem_language_stars {w : List Char} :
    w ∈ (plus (literal '*')).language ↔ ∃ m, w = List.replicate (m + 1) '*' := by
  rw [(symbols_literal '*').mem_plus]
  constructor
  · rintro ⟨hne, hall⟩
    obtain ⟨m, hm⟩ := Nat.exists_eq_succ_of_ne_zero (List.length_pos_iff.2 hne).ne'
    exact ⟨m, List.eq_replicate_iff.2 ⟨hm, hall⟩⟩
  · rintro ⟨m, rfl⟩
    exact ⟨by simp, fun c hc => List.eq_of_mem_replicate hc⟩

/-- A piece of a block comment: stars, if any, and a symbol after which the comment goes on. -/
def IsPiece (w : List Char) : Prop :=
  ∃ m c, w = List.replicate m '*' ++ [c] ∧ isAscii c ∧ c ≠ '*' ∧ (m = 0 ∨ c ≠ '/')

def IsBody (w : List Char) : Prop :=
  ∃ pieces : List (List Char), (∀ u ∈ pieces, IsPiece u) ∧
    ∃ m, w = pieces.flatten ++ (List.replicate (m + 1) '*' ++ ['/'])

theorem mem_language_piece {w : List Char} :
    w ∈ (alternate ((noneOf? ['*']).get rfl)
      (concat (plus (literal '*')) ((noneOf? ['*', '/']).get rfl))).language ↔ IsPiece w := by
  rw [mem_language_alternate, mem_language_concat]
  constructor
  · rintro (hw | ⟨u, hu, v, hv, rfl⟩)
    · obtain ⟨c, rfl, hascii, hstar⟩ := (symbols_notStar w).1 hw
      exact ⟨0, c, rfl, hascii, hstar, .inl rfl⟩
    · obtain ⟨m, rfl⟩ := mem_language_stars.1 hu
      obtain ⟨c, rfl, hascii, hstar, hslash⟩ := (symbols_goesOn v).1 hv
      exact ⟨m + 1, c, rfl, hascii, hstar, .inr hslash⟩
  · rintro ⟨m, c, rfl, hascii, hstar, hslash⟩
    cases m with
    | zero => exact .inl ((symbols_notStar [c]).2 ⟨c, rfl, hascii, hstar⟩)
    | succ m =>
        have hslash := hslash.resolve_left (Nat.succ_ne_zero m)
        exact .inr ⟨_, mem_language_stars.2 ⟨m, rfl⟩, [c],
          (symbols_goesOn [c]).2 ⟨c, rfl, hascii, hstar, hslash⟩, rfl⟩

theorem mem_language_blockComment {w : List Char} :
    w ∈ TokenKind.blockComment.pattern.language ↔ ∃ body, w = '/' :: '*' :: body ∧ IsBody body := by
  rw [TokenKind.pattern, language_sequence]
  simp only [List.map_cons, List.map_nil, List.prod_cons, List.prod_nil, mul_one, Language.mem_mul]
  constructor
  · rintro ⟨_, hopen, _, ⟨_, hpieces, _, ⟨_, hstars, _, rfl, rfl⟩, rfl⟩, rfl⟩
    obtain rfl := mem_language_word.1 hopen
    obtain ⟨m, rfl⟩ := mem_language_stars.1 hstars
    rw [Pattern.star, language_star, Language.mem_kstar] at hpieces
    obtain ⟨pieces, rfl, hall⟩ := hpieces
    exact ⟨_, rfl, pieces, fun u hu => mem_language_piece.1 (hall u hu), m, rfl⟩
  · rintro ⟨_, rfl, pieces, hall, m, rfl⟩
    refine ⟨['/', '*'], mem_language_word.2 rfl, _, ⟨pieces.flatten, ?_, _,
      ⟨_, mem_language_stars.2 ⟨m, rfl⟩, ['/'], rfl, rfl⟩, rfl⟩, rfl⟩
    rw [Pattern.star, language_star, Language.mem_kstar]
    exact ⟨pieces, rfl, fun u hu => mem_language_piece.2 (hall u hu)⟩

theorem head?_stars {m : Nat} {c : Char} (hc : c ≠ '/') (cs : List Char) :
    (List.replicate m '*' ++ c :: cs).head? ≠ some '/' := by
  cases m with
  | zero => simpa using hc
  | succ m => simp [List.replicate_succ]

theorem closing_piece {m : Nat} {c : Char} (hascii : isAscii c) (hstar : c ≠ '*')
    (hslash : m = 0 ∨ c ≠ '/') (cs : List Char) :
    closing (List.replicate m '*' ++ c :: cs) = (closing cs).after (m + 1) := by
  induction m with
  | zero =>
      exact closing_cons hascii fun h => hstar h.1
  | succ m ih =>
      have hc := hslash.resolve_left (Nat.succ_ne_zero m)
      rw [List.replicate_succ, List.cons_append, closing_cons rfl fun h => head?_stars hc cs h.2,
        ih (.inr hc), Front.after_after]

theorem closing_stars (m : Nat) :
    closing (List.replicate (m + 1) '*' ++ ['/']) = .token .blockComment (m + 2) := by
  induction m with
  | zero => rfl
  | succ m ih =>
      have hhead : (List.replicate (m + 1) '*' ++ ['/']).head? ≠ some '/' := by
        simp [List.replicate_succ]
      rw [List.replicate_succ, List.cons_append, closing_cons rfl fun h => hhead h.2, ih]
      rfl

theorem closing_body {body : List Char} (h : IsBody body) :
    closing body = .token .blockComment body.length := by
  obtain ⟨pieces, hall, m, rfl⟩ := h
  induction pieces with
  | nil =>
      rw [List.flatten_nil, List.nil_append, closing_stars]
      simp
  | cons u pieces ih =>
      obtain ⟨⟨n, c, rfl, hascii, hstar, hslash⟩, hrest⟩ := List.forall_mem_cons.1 hall
      rw [List.flatten_cons, List.append_assoc, List.append_assoc, List.singleton_append,
        closing_piece hascii hstar hslash, ih hrest, Front.after]
      simp only [List.length_append, List.length_cons, List.length_replicate]
      congr 1
      omega

theorem IsBody.cons {c : Char} {body : List Char} (h : IsBody body) (hascii : isAscii c)
    (hc : ¬ (c = '*' ∧ body.head? = some '/')) : IsBody (c :: body) := by
  obtain ⟨pieces, hall, m, rfl⟩ := h
  by_cases hstar : c = '*'
  · subst c
    cases pieces with
    | nil => exact ⟨[], hall, m + 1, rfl⟩
    | cons u pieces =>
        -- The star is one more of the first piece, which does not end with a slash now.
        obtain ⟨⟨n, d, rfl, hd, hne, hslash⟩, hrest⟩ := List.forall_mem_cons.1 hall
        refine ⟨(List.replicate (n + 1) '*' ++ [d]) :: pieces,
          List.forall_mem_cons.2 ⟨⟨n + 1, d, rfl, hd, hne, .inr ?_⟩, hrest⟩, m, rfl⟩
        rintro rfl
        obtain rfl := hslash.resolve_right (· rfl)
        exact hc ⟨rfl, rfl⟩
  · exact ⟨[c] :: pieces, List.forall_mem_cons.2 ⟨⟨0, c, rfl, hascii, hstar, .inl rfl⟩, hall⟩, m, rfl⟩

theorem closing_eq_token {cs : List Char} {k : TokenKind} {n : Nat} (h : closing cs = .token k n) :
    k = .blockComment ∧ n ≤ cs.length ∧ IsBody (cs.take n) := by
  induction cs generalizing n with
  | nil => cases h
  | cons c cs ih =>
      rw [closing] at h
      split at h
      next hc =>
        cases h
        obtain ⟨rfl, hhead⟩ := hc
        obtain ⟨cs, rfl⟩ := List.head?_eq_some_iff.1 hhead
        exact ⟨rfl, Nat.le_add_left _ _, [], by simp, 0, rfl⟩
      next hc =>
        split at h
        next hascii =>
          obtain ⟨m, hcs, rfl⟩ := Front.after_eq_token h
          obtain ⟨rfl, hle, hbody⟩ := ih hcs
          refine ⟨rfl, Nat.succ_le_succ hle, hbody.cons hascii ?_⟩
          rintro ⟨rfl, hslash⟩
          exact hc ⟨rfl, head?_of_take hslash⟩
        next => cases h

theorem runOf?_of_isIdentStart {c : Char} (h : isIdentStart c) :
    runOf? c = some (.ident, isIdentRest) := if_pos h

theorem runOf?_of_isDigit {c : Char} (h : c.isDigit) : runOf? c = some (.int, Char.isDigit) := by
  have hstart : ¬ isIdentStart c := by
    rw [isIdentStart, Bool.or_eq_true, beq_iff_eq]
    rintro (halpha | rfl)
    · grind [Char.isAlpha, Char.isUpper, Char.isLower, Char.isDigit]
    · cases h
  rw [runOf?, if_neg hstart, if_pos h]

theorem runOf?_of_isWhitespace {c : Char} (h : c.isWhitespace) :
    runOf? c = some (.white, Char.isWhitespace) := by
  simp only [Char.isWhitespace, Bool.or_eq_true, decide_eq_true_eq] at h
  rcases h with ((rfl | rfl) | rfl) | rfl <;> rfl

theorem mem_language_of_runOf? {c : Char} {cs : List Char} {k : TokenKind} {p : Char → Bool}
    (h : runOf? c = some (k, p)) (hall : ∀ d ∈ cs, p d) : c :: cs ∈ k.pattern.language := by
  rw [runOf?] at h
  split at h
  next hc =>
    cases h
    exact mem_language_concat.2 ⟨[c], (symbols_identStart [c]).2 ⟨c, rfl, hc⟩, cs,
      symbols_identRest.mem_star.2 hall, rfl⟩
  next =>
    split at h
    next hc =>
      cases h
      exact symbols_digit.mem_plus.2 ⟨List.cons_ne_nil c cs, List.forall_mem_cons.2 ⟨hc, hall⟩⟩
    next =>
      split at h
      next hc =>
        cases h
        exact symbols_white.mem_plus.2 ⟨List.cons_ne_nil c cs, List.forall_mem_cons.2 ⟨hc, hall⟩⟩
      next => cases h

theorem front_whole_run {c : Char} {cs : List Char} {k : TokenKind} {p : Char → Bool}
    (h : runOf? c = some (k, p)) (hall : ∀ d ∈ cs, p d) :
    front (c :: cs) = .token k (c :: cs).length := by
  rw [front_run h, List.takeWhile_eq_self_iff.2 hall, List.length_cons]

/-- A word of a kind is a token of this kind as a whole. -/
theorem front_of_mem_language {k : TokenKind} {w : List Char} (h : w ∈ k.pattern.language) :
    front w = .token k w.length := by
  cases k with
  | ident =>
      obtain ⟨u, hu, v, hv, rfl⟩ := mem_language_concat.1 h
      obtain ⟨c, rfl, hc⟩ := (symbols_identStart u).1 hu
      exact front_whole_run (runOf?_of_isIdentStart hc) (symbols_identRest.mem_star.1 hv)
  | int =>
      obtain ⟨hne, hall⟩ := symbols_digit.mem_plus.1 h
      obtain ⟨c, cs, rfl⟩ := List.exists_cons_of_ne_nil hne
      rw [List.forall_mem_cons] at hall
      exact front_whole_run (runOf?_of_isDigit hall.1) hall.2
  | white =>
      obtain ⟨hne, hall⟩ := symbols_white.mem_plus.1 h
      obtain ⟨c, cs, rfl⟩ := List.exists_cons_of_ne_nil hne
      rw [List.forall_mem_cons] at hall
      exact front_whole_run (runOf?_of_isWhitespace hall.1) hall.2
  | lineComment =>
      obtain ⟨u, hu, v, hv, rfl⟩ := mem_language_concat.1 h
      obtain rfl := mem_language_word.1 hu
      have hall := symbols_line.mem_star.1 hv
      exact (front_line v).trans (by rw [List.takeWhile_eq_self_iff.2 hall]; rfl)
  | blockComment =>
      obtain ⟨body, rfl, hbody⟩ := mem_language_blockComment.1 h
      rw [front_block, closing_body hbody]
      rfl
  | le | ge | eqEq | andAnd | orOr | angleGeneric =>
      obtain rfl := mem_language_word.1 h
      rfl
  | lParen | rParen | plus | minus | star | slash | assign | lt | gt | not | lBracket | rBracket
  | lBrace | rBrace | ampersand | pipe =>
      obtain rfl := mem_language_literal.1 h
      rfl

theorem mem_language_of_pair? {c d : Char} {k : TokenKind} (h : pair? c d = some k) :
    [c, d] ∈ k.pattern.language := by
  unfold pair? at h
  split at h <;> cases h <;> exact mem_language_word.2 rfl

theorem mem_language_of_single? {c : Char} {k : TokenKind} (h : single? c = some k) :
    [c] ∈ k.pattern.language := by
  unfold single? at h
  split at h <;> cases h <;> exact mem_language_literal.2 rfl

theorem mem_language_of_front {k : TokenKind} {cs : List Char} {n : Nat}
    (h : front cs = .token k n) : n ≤ cs.length ∧ cs.take n ∈ k.pattern.language := by
  cases cs with
  | nil => cases h
  | cons c cs =>
      cases beginning c cs with
      | @run _ k p hrun =>
          rw [front_run hrun] at h
          cases h
          have hpre := List.takeWhile_prefix p (l := cs)
          refine ⟨Nat.succ_le_succ hpre.length_le, ?_⟩
          rw [List.take_succ_cons, ← List.prefix_iff_eq_take.1 hpre]
          exact mem_language_of_runOf? hrun fun d hd => List.mem_takeWhile_imp hd
      | line cs =>
          rw [front_line] at h
          cases h
          have hpre := List.takeWhile_prefix isLineSymbol (l := cs)
          refine ⟨Nat.add_le_add_right hpre.length_le 2, ?_⟩
          rw [List.take_succ_cons, List.take_succ_cons, ← List.prefix_iff_eq_take.1 hpre]
          exact mem_language_concat.2 ⟨['/', '/'], mem_language_word.2 rfl, _,
            symbols_line.mem_star.2 fun d hd => List.mem_takeWhile_imp hd, rfl⟩
      | block cs =>
          rw [front_block] at h
          obtain ⟨m, hcs, rfl⟩ := Front.after_eq_token h
          obtain ⟨rfl, hle, hbody⟩ := closing_eq_token hcs
          exact ⟨Nat.add_le_add_right hle 2, mem_language_blockComment.2 ⟨_, rfl, hbody⟩⟩
      | operator hrun hcomment =>
          rw [front_operator hrun hcomment, operator] at h
          split at h
          next k' single hpair =>
            cases h
            obtain ⟨d, hd, hpair⟩ := Option.bind_eq_some_iff.1 hpair
            obtain ⟨cs, rfl⟩ := List.head?_eq_some_iff.1 hd
            exact ⟨Nat.le_add_left _ _, mem_language_of_pair? hpair⟩
          next k' hpair hsingle =>
            cases h
            exact ⟨Nat.le_add_left _ _, mem_language_of_single? hsingle⟩
          next => cases h

end Munch.Direct
