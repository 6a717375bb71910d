import Munch.Proofs.LineGrammar

namespace Munch.TableText

open Text

/-- The names can be read back and the automaton is sound. State numbers are 64-bit words. -/
structure Writable (t : TableText) : Prop where
  name : isIdentifier t.name = true
  typeRef : isDottedIdentifier t.typeRef = true
  check : t.automaton.check = .ok ()
  size : t.automaton.states.size ≤ words64

theorem Writable.render?_eq {t : TableText} (h : t.Writable) : t.render? = .ok t.render :=
  render?_eq_ok_iff.2 ⟨⟨h.name, h.typeRef, h.check⟩, rfl⟩

theorem Writable.read_render {t : TableText} (h : t.Writable) : read t.render = .ok t :=
  read_render_of_check h.name h.typeRef h.check h.size

theorem writable_of_read {text : List Char} {t : TableText} (h : read text = .ok t) :
    t.Writable := by
  rw [read, readLines_eq_ok_iff] at h
  obtain ⟨hcheck, table, rest, -, htable⟩ := h
  obtain ⟨⟨-, -, hname, htype⟩, hsize⟩ := tableLines_iff_spelling.1 htable
  exact ⟨hname, htype, hcheck, hsize⟩

theorem exists_read_iff_writable {t : TableText} : (∃ text, read text = .ok t) ↔ t.Writable :=
  ⟨fun ⟨_, h⟩ => writable_of_read h, fun h => ⟨t.render, h.read_render⟩⟩

/-- Writing what was read gives a normal form of the text: it is read as the same table, and once
more written it stays as it is. -/
theorem normal_form_of_read {text : List Char} {t : TableText} (h : read text = .ok t) :
    ∃ normal, t.render? = .ok normal ∧ read normal = .ok t ∧
      ∀ t', read normal = .ok t' → t'.render? = .ok normal := by
  have hwritable := exists_read_iff_writable.1 ⟨text, h⟩
  refine ⟨t.render, hwritable.render?_eq, hwritable.read_render, fun t' ht' => ?_⟩
  rw [hwritable.read_render] at ht'
  cases ht'
  exact hwritable.render?_eq

def looseText : List Char :=
  ("accepts = [True] \nstates = [\n# 00\n\t\x7b\"b\": 00, '\\x4a': 0\x7d,\t\n]\n" ++
    "x = a.B(states, accepts)").toList

def looseTable : TableText :=
  ⟨['x'], ['a', '.', 'B'], ⟨#[⟨[('J', 0), ('b', 0)], by decide⟩], #[true]⟩⟩

theorem normal_form_of_read_looseText :
    read looseText = .ok looseTable ∧ looseTable.render ≠ looseText ∧
      read looseTable.render = .ok looseTable := by
  have hzeros : NumberSpelling 0 ['0', '0'] := ⟨by decide, List.all_eq_true.1 rfl, rfl⟩
  have hplain : EntrySpelling ('b', 0) _ :=
    .intro (.inr rfl) (.plain (by decide) (by decide)) hzeros (by decide)
  have hcode : EscapeSpelling 'J' ['x', '4', 'a'] := .code (by decide) (List.all_eq_true.1 rfl) rfl
  have hzero : NumberSpelling 0 ['0'] := ⟨by decide, List.all_eq_true.1 rfl, rfl⟩
  have hescaped : EntrySpelling ('J', 0) _ :=
    .intro (.inl rfl) (.escaped hcode) hzero (by decide)
  have hrow : RowSpelling ⟨[('J', 0), ('b', 0)], by decide⟩ _ :=
    .intro (.cons hplain (.cons hescaped .nil)) (by decide) fun e => by simp [or_comm]
  have hnil : IsIndent [] := fun c hc => absurd hc List.not_mem_nil
  have htab : IsIndent ['\t'] := by
    intro c hc
    rw [List.mem_singleton.1 hc]
    rfl
  have hread : read looseText = .ok looseTable := by
    refine readLines_eq_ok_iff.2 ⟨rfl, _, [], ?_, tableLines_iff_spelling.2
      ⟨.intro (.cons hnil hzeros htab hrow (.nil 1)) hnil rfl rfl, by decide⟩⟩
    cbv
  obtain ⟨normal, hnormal, hagain, -⟩ := normal_form_of_read hread
  obtain rfl : looseTable.render = normal := (render?_eq_ok_iff.1 hnormal).2
  refine ⟨hread, fun h => ?_, hagain⟩
  have hbegin := congrArg (List.take 17) h
  revert hbegin
  decide

end Munch.TableText
