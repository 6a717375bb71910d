import Munch.Proofs.Lexing
import Munch.Proofs.Trim

namespace Munch

namespace Direct

theorem closing_append_of_token {cs : List Char} {k : TokenKind} {n : Nat}
    (h : closing cs = .token k n) (v : List Char) : closing (cs ++ v) = .token k n := by
  induction cs generalizing n with
  | nil => cases h
  | cons c cs ih =>
      rw [closing] at h
      split at h
      next hc =>
        obtain ⟨cs, rfl⟩ := List.head?_eq_some_iff.1 hc.2
        rw [← h]
        exact closing_end c _ ⟨hc.1, rfl⟩
      next hc =>
        split at h
        next hascii =>
          obtain ⟨m, hcs, rfl⟩ := Front.after_eq_token h
          have hne : cs ≠ [] := by
            rintro rfl
            cases hcs
          have hhead : (cs ++ v).head? = cs.head? := List.head?_append_of_ne_nil cs hne
          rw [List.cons_append, closing_cons hascii (by rwa [hhead]), ih hcs]
          rfl
        next => cases h

/-- A comment that is open goes on with what follows, unless a star and a slash meet. -/
theorem closing_append_of_open {cs : List Char} {cause : Cause}
    (h : closing cs = .failure cs.length cause) (v : List Char) :
    closing (cs ++ v) =
      if cs.getLast? = some '*' ∧ v.head? = some '/' then .token .blockComment (cs.length + 1)
      else (closing v).after cs.length := by
  induction cs with
  | nil => simp
  | cons c cs ih =>
      rw [closing] at h
      split at h
      next => cases h
      next hc =>
        split at h
        next hascii =>
          obtain ⟨m, hcs, hm⟩ := Front.after_eq_failure h
          obtain rfl : cs.length = m := Nat.succ.inj hm
          cases cs with
          | nil =>
              by_cases hclose : c = '*' ∧ v.head? = some '/'
              · rw [List.singleton_append, closing_end c v hclose, if_pos]
                · rfl
                · simpa using hclose
              · rw [List.singleton_append, closing_cons hascii hclose, if_neg]
                · rfl
                · simpa using hclose
          | cons d cs =>
              have hstep : closing (c :: (d :: cs ++ v)) = (closing (d :: cs ++ v)).after 1 :=
                closing_cons hascii hc
              rw [List.cons_append, hstep, ih hcs, List.getLast?_cons_cons]
              split
              · rfl
              · rw [Front.after_after]
                rfl
        next => cases h

def Whole (k : TokenKind) (w : List Char) : Prop := front w = .token k w.length

/-- The words that can still become tokens. -/
inductive Going : List Char → Prop
  | start : Going []
  | token {k : TokenKind} {w : List Char} (h : Whole k w) : Going w
  | comment {cs : List Char} {cause : Cause} (h : closing cs = .failure cs.length cause) :
      Going ('/' :: '*' :: cs)

theorem going_of_length_front {w : List Char} (h : (front w).length = w.length) : Going w := by
  cases hfront : front w with
  | token k n =>
      rw [hfront] at h
      cases h
      exact .token hfront
  | failure n cause =>
      rw [hfront] at h
      cases h
      cases w with
      | nil => exact .start
      | cons c cs =>
          cases beginning c cs with
          | run hrun =>
              rw [front_run hrun] at hfront
              cases hfront
          | line cs => cases hfront
          | block cs =>
              rw [front_block] at hfront
              obtain ⟨m, hcs, hm⟩ := Front.after_eq_failure hfront
              cases hm
              exact .comment hcs
          | operator hrun hcomment =>
              rw [front_operator hrun hcomment, operator] at hfront
              split at hfront <;> cases hfront

section Continue

variable {k k' : TokenKind} {cs v : List Char}

theorem length_takeWhile_eq_iff {p : Char → Bool} :
    (cs.takeWhile p).length = cs.length ↔ ∀ c ∈ cs, p c = true := by
  rw [← List.takeWhile_eq_self_iff]
  constructor
  · exact (List.takeWhile_prefix p).eq_of_length
  · exact congrArg List.length

theorem whole_run_append {c : Char} {p : Char → Bool} (h : runOf? c = some (k, p))
    (hall : ∀ d ∈ cs, p d = true) :
    Whole k' (c :: cs ++ v) ↔ k = k' ∧ ∀ d ∈ v, p d = true := by
  rw [Whole, List.cons_append, front_run h, Front.token.injEq, List.length_cons,
    Nat.add_right_cancel_iff, length_takeWhile_eq_iff, List.forall_mem_append, and_iff_right hall]

theorem whole_line_append (hall : ∀ d ∈ cs, isLineSymbol d = true) :
    Whole k' ('/' :: '/' :: cs ++ v) ↔
      .lineComment = k' ∧ ∀ d ∈ v, isLineSymbol d = true := by
  rw [Whole, List.cons_append, List.cons_append, front_line, Front.token.injEq, List.length_cons,
    List.length_cons, Nat.add_right_cancel_iff, length_takeWhile_eq_iff, List.forall_mem_append,
    and_iff_right hall]

theorem whole_block_append (h : closing cs = .token .blockComment cs.length) :
    Whole k' ('/' :: '*' :: cs ++ v) ↔ .blockComment = k' ∧ v = [] := by
  rw [Whole, List.cons_append, List.cons_append, front_block, closing_append_of_token h,
    Front.after, Front.token.injEq]
  simp

theorem whole_open_append {cause : Cause} (h : closing cs = .failure cs.length cause) :
    Whole k' ('/' :: '*' :: cs ++ v) ↔
      if cs.getLast? = some '*' ∧ v.head? = some '/' then .blockComment = k' ∧ v.length = 1
      else closing v = .token k' v.length := by
  have hlen : ('/' :: '*' :: (cs ++ v)).length = v.length + cs.length + 2 := by
    rw [List.length_cons, List.length_cons, List.length_append, Nat.add_comm cs.length]
  rw [Whole, List.cons_append, List.cons_append, hlen, front_block, closing_append_of_open h]
  split
  · rw [Front.after, Front.token.injEq]
    refine and_congr_right fun _ => ?_
    omega
  · rw [Front.after_after]
    constructor
    · intro hfront
      obtain ⟨m, hm, hv⟩ := Front.after_eq_token hfront
      obtain rfl : m = v.length := by omega
      exact hm
    · intro hclose
      rw [hclose, Front.after, Nat.add_assoc]

end Continue

theorem exists_run_of_mem_language {k : TokenKind} (hk : k = .ident ∨ k = .int ∨ k = .white) :
    ∃ p, ∀ w ∈ k.pattern.language, ∃ c cs, w = c :: cs ∧ runOf? c = some (k, p) ∧
      ∀ d ∈ cs, p d = true := by
  rcases hk with rfl | rfl | rfl
  · refine ⟨isIdentRest, fun w hw => ?_⟩
    obtain ⟨u, hu, v, hv, rfl⟩ := Pattern.mem_language_concat.1 hw
    obtain ⟨c, rfl, hc⟩ := (symbols_identStart u).1 hu
    exact ⟨c, v, rfl, runOf?_of_isIdentStart hc, symbols_identRest.mem_star.1 hv⟩
  · refine ⟨Char.isDigit, fun w hw => ?_⟩
    obtain ⟨hne, hall⟩ := symbols_digit.mem_plus.1 hw
    obtain ⟨c, cs, rfl⟩ := List.exists_cons_of_ne_nil hne
    rw [List.forall_mem_cons] at hall
    exact ⟨c, cs, rfl, runOf?_of_isDigit hall.1, hall.2⟩
  · refine ⟨Char.isWhitespace, fun w hw => ?_⟩
    obtain ⟨hne, hall⟩ := symbols_white.mem_plus.1 hw
    obtain ⟨c, cs, rfl⟩ := List.exists_cons_of_ne_nil hne
    rw [List.forall_mem_cons] at hall
    exact ⟨c, cs, rfl, runOf?_of_isWhitespace hall.1, hall.2⟩

def Alike (w w' : List Char) : Prop := ∀ v k, Whole k (w ++ v) ↔ Whole k (w' ++ v)

theorem alike_of_run {k : TokenKind} (hk : k = .ident ∨ k = .int ∨ k = .white) {w w' : List Char}
    (hw : w ∈ k.pattern.language) (hw' : w' ∈ k.pattern.language) : Alike w w' := by
  obtain ⟨p, hrun⟩ := exists_run_of_mem_language hk
  obtain ⟨c, cs, rfl, hc, hcs⟩ := hrun w hw
  obtain ⟨c', cs', rfl, hc', hcs'⟩ := hrun w' hw'
  intro v k'
  rw [whole_run_append hc hcs, whole_run_append hc' hcs']

theorem alike_of_whole {k : TokenKind} {w w' : List Char} (h : Whole k w) (h' : Whole k w') :
    Alike w w' := by
  have hlang {w : List Char} (h : Whole k w) : w ∈ k.pattern.language := by
    have hw := (mem_language_of_front h).2
    rwa [List.take_length] at hw
  have hw := hlang h
  have hw' := hlang h'
  intro v k'
  cases k with
  | ident => exact alike_of_run (.inl rfl) hw hw' v k'
  | int => exact alike_of_run (.inr (.inl rfl)) hw hw' v k'
  | white => exact alike_of_run (.inr (.inr rfl)) hw hw' v k'
  | lineComment =>
      obtain ⟨u, hu, cs, hcs, rfl⟩ := Pattern.mem_language_concat.1 hw
      obtain ⟨u', hu', cs', hcs', rfl⟩ := Pattern.mem_language_concat.1 hw'
      obtain rfl := Pattern.mem_language_word.1 hu
      obtain rfl := Pattern.mem_language_word.1 hu'
      exact (whole_line_append (symbols_line.mem_star.1 hcs)).trans
        (whole_line_append (symbols_line.mem_star.1 hcs')).symm
  | blockComment =>
      obtain ⟨body, rfl, hbody⟩ := mem_language_blockComment.1 hw
      obtain ⟨body', rfl, hbody'⟩ := mem_language_blockComment.1 hw'
      rw [whole_block_append (closing_body hbody), whole_block_append (closing_body hbody')]
  | le | ge | eqEq | andAnd | orOr | angleGeneric =>
      rw [Pattern.mem_language_word.1 hw, Pattern.mem_language_word.1 hw']
  | lParen | rParen | plus | minus | star | slash | assign | lt | gt | not | lBracket | rBracket
  | lBrace | rBrace | ampersand | pipe =>
      rw [Pattern.mem_language_literal.1 hw, Pattern.mem_language_literal.1 hw']

/-- How far a word has come that can still become a token. Of a comment that is open it counts
whether a slash would close it. -/
inductive Stage where
  | start
  | token (k : TokenKind)
  | comment (star : Bool)

def stages : List Stage := .start :: .comment false :: .comment true :: TokenKind.all.map .token

def stage (w : List Char) : Stage :=
  match front w with
  | .token k _ => .token k
  | .failure 0 _ => .start
  | .failure (_ + 1) _ => .comment ((w.drop 2).getLast? = some '*')

theorem stage_of_whole {k : TokenKind} {w : List Char} (h : Whole k w) : stage w = .token k := by
  rw [stage, h]

theorem stage_of_open {cs : List Char} {cause : Cause} (h : closing cs = .failure cs.length cause) :
    stage ('/' :: '*' :: cs) = .comment (cs.getLast? = some '*') := by
  rw [stage, front_block, h]
  rfl

theorem mem_stages (s : Stage) : s ∈ stages := by
  cases s with
  | start => exact List.mem_cons_self
  | token k => simp [stages, k.mem_all]
  | comment star => cases star <;> simp [stages]

theorem alike_of_stage_eq {w w' : List Char} (h : Going w) (h' : Going w')
    (heq : stage w = stage w') : Alike w w' := by
  have hstart : stage [] = .start := rfl
  cases h with
  | start =>
      cases h' with
      | start => exact fun v k => Iff.rfl
      | token h' => cases hstart.symm.trans (heq.trans (stage_of_whole h'))
      | comment h' => cases hstart.symm.trans (heq.trans (stage_of_open h'))
  | token h =>
      rw [stage_of_whole h] at heq
      cases h' with
      | start => cases heq.trans hstart
      | token h' =>
          cases heq.trans (stage_of_whole h')
          exact alike_of_whole h h'
      | comment h' => cases heq.trans (stage_of_open h')
  | comment h =>
      rw [stage_of_open h] at heq
      cases h' with
      | start => cases heq.trans hstart
      | token h' => cases heq.trans (stage_of_whole h')
      | comment h' =>
          have hstar := decide_eq_decide.1 (Stage.comment.inj (heq.trans (stage_of_open h')))
          intro v k
          rw [whole_open_append h, whole_open_append h']
          simp only [hstar]

end Direct

open Direct

theorem Rule.winner?_congr {rules : List Rule} {w w' : List Char}
    (h : ∀ rule ∈ rules, rule.pattern.matchesAll w.toArray = rule.pattern.matchesAll w'.toArray) :
    winner? rules w = winner? rules w' := by
  rw [winner?, winner?]
  induction rules with
  | nil => rfl
  | cons rule rules ih =>
      rw [List.forall_mem_cons] at h
      rw [List.findIdx?_cons, List.findIdx?_cons, h.1, ih h.2]

namespace TokenKind

theorem going_of_viable {w : List Char} (h : Rule.Viable rules w) : Going w := by
  apply going_of_length_front
  obtain ⟨hle, -⟩ := viable_front w
  apply hle.antisymm
  by_contra hlt
  exact not_viable_beyond_front (Nat.not_le.1 hlt) (h.of_prefix (List.take_prefix _ w))

theorem verdict_eq_of_alike {w w' : List Char} (h : Alike w w') (v : List Char) :
    Rule.verdict rules (w ++ v) = Rule.verdict rules (w' ++ v) := by
  rw [Rule.verdict, Rule.verdict]
  congr 1
  apply Rule.winner?_congr
  intro rule hrule
  obtain ⟨k, -, rfl⟩ := List.mem_map.1 hrule
  rw [Bool.eq_iff_iff, matchesAll_iff, matchesAll_iff]
  exact h v k

end TokenKind

/-- The built-in grammar needs at most a state for each kind of token, one for the beginning and two
for open comments. -/
theorem Tables.size_builtin_le {t : Tables} (ht : ofRules? TokenKind.rules = .ok t) :
    t.automaton.states.size ≤ 30 := by
  apply size_le_of_code TokenKind.length_rules_le ht stages stage
  · exact fun w _ => mem_stages (stage w)
  · intro w w' hw hw' heq
    apply TokenKind.verdict_eq_of_alike
    exact alike_of_stage_eq (TokenKind.going_of_viable hw) (TokenKind.going_of_viable hw') heq

end Munch
