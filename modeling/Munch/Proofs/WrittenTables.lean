import Munch.Command
import Munch.Proofs.Folders
import Munch.Proofs.JsonRoundTrip
import Munch.Proofs.Stages
import Munch.Proofs.TableLines

namespace Munch

/-- All the steps are taken, with what they print and the folder that they leave. -/
inductive Folder.Performs : Folder → List Step → String → Folder → Prop
  | nil (folder : Folder) : Performs folder [] "" folder
  | print {folder last : Folder} {steps : List Step} {out : String} (text : String)
      (hrest : Performs folder steps out last) :
      Performs folder (.print text :: steps) (text ++ out) last
  | makeDirectories {folder folder' last : Folder} {steps : List Step} {out : String}
      {path : List Char} (hmake : folder.makeDirectories path = (.ok (), folder'))
      (hrest : Performs folder' steps out last) :
      Performs folder (.makeDirectories path :: steps) out last
  | write {folder folder' last : Folder} {steps : List Step} {out : String}
      {path content : List Char} (hwrite : folder.write path content = .ok folder')
      (hrest : Performs folder' steps out last) :
      Performs folder (.write path content :: steps) out last

namespace Folder

variable {folder last : Folder} {steps : List Step} {out : String}

theorem Performs.perform_eq (h : folder.Performs steps out last) :
    folder.perform steps = (⟨0, out, ""⟩, last) := by
  induction h with
  | nil folder => rfl
  | print text hrest ih => simp only [perform, ih]
  | makeDirectories hmake hrest ih => simp only [perform, hmake, ih]
  | write hwrite hrest ih => simp only [perform, hwrite, ih]

theorem performs_of_code (h : (folder.perform steps).1.code = 0) :
    folder.Performs steps (folder.perform steps).1.out (folder.perform steps).2 := by
  induction steps generalizing folder with
  | nil => exact .nil folder
  | cons step steps ih =>
      cases step with
      | print text => exact .print text (ih h)
      | makeDirectories path =>
          rw [perform] at h ⊢
          split at h
          next folder' hmake => exact .makeDirectories hmake (ih h)
          next => cases h
      | write path content =>
          rw [perform] at h ⊢
          split at h
          next folder' hwrite => exact .write hwrite (ih h)
          next => cases h
      | fail f => cases h

theorem Performs.of_nil (h : folder.Performs [] out last) : out = "" ∧ folder = last := by
  cases h
  exact ⟨rfl, rfl⟩

theorem Performs.of_print {text : String} (h : folder.Performs (.print text :: steps) out last) :
    ∃ after, out = text ++ after ∧ folder.Performs steps after last := by
  cases h with
  | print _ hrest => exact ⟨_, rfl, hrest⟩

theorem Performs.of_write {path content : List Char}
    (h : folder.Performs (.write path content :: steps) out last) :
    ∃ folder', folder.write path content = .ok folder' ∧ folder'.Performs steps out last := by
  cases h with
  | write hwrite hrest => exact ⟨_, hwrite, hrest⟩

theorem Performs.exists_of_append {first : List Step}
    (h : folder.Performs (first ++ steps) out last) :
    ∃ before middle after, out = before ++ after ∧ Performs middle steps after last := by
  induction first generalizing folder out with
  | nil => exact ⟨"", folder, out, by simp, h⟩
  | cons step first ih =>
      cases h with
      | print text hrest =>
          obtain ⟨before, middle, after, rfl, h⟩ := ih hrest
          exact ⟨text ++ before, middle, after, by rw [String.append_assoc], h⟩
      | makeDirectories hmake hrest => exact ih hrest
      | write hwrite hrest => exact ih hrest

end Folder

theorem Text.exists_lines_cons (c : Char) (cs : List Char) :
    ∃ line ls, lines (c :: cs) = line :: ls ∧ ∀ d, line.head? = some d → c = d := by
  rw [lines, List.foldr_cons]
  fun_cases consLine c (cs.foldr consLine []) with
  | case1 => exact ⟨_, _, rfl, fun d hd => by cases hd⟩
  | case2 | case3 => exact ⟨_, _, rfl, fun d hd => Option.some.inj hd⟩

/-- The text of a table begins with the first letter of its flags. -/
theorem TableText.eq_of_read_cons {c : Char} {cs : List Char} {t : TableText}
    (h : read (c :: cs) = .ok t) : c = 'a' := by
  obtain ⟨-, table, rest, hlines, hflags, -, -, -⟩ := readLines_eq_ok_iff.1 h
  obtain ⟨line, ls, hline, hhead⟩ := Text.exists_lines_cons c cs
  rw [hline, List.map_cons, List.cons_append, List.cons.injEq] at hlines
  obtain ⟨flags, hexpect, -⟩ := bind_eq_ok.1 hflags
  rw [expect_eq_ok_iff, ← hlines.1] at hexpect
  obtain ⟨more, hmore⟩ := Text.trimEnd_isPrefix line
  apply hhead
  rw [← hmore, hexpect]
  rfl

theorem TableText.read_json_ne (t : Tables) (u : TableText) :
    read (TableJson.render t) ≠ .ok u := by
  intro h
  have hopen := eq_of_read_cons h
  cases hopen

theorem Text.fromUTF8?_toUTF8 (s : String) : String.fromUTF8? s.toUTF8 = some s := by
  have hvalid : s.toUTF8.IsValidUTF8 := s.isValidUTF8
  rw [String.fromUTF8?, dif_pos hvalid]
  rfl

namespace Command

def textPath (args : List String) : String := args.head?.getD "tables/lexer_tables.txt"

def jsonPath (args : List String) : String :=
  String.ofList (Path.withExtension (textPath args).toList "json".toList)

theorem toList_jsonPath (args : List String) :
    (jsonPath args).toList = Path.withExtension (textPath args).toList "json".toList :=
  String.toList_ofList

def boundTable (t : Tables) (name typeRef : Option String) : TableText :=
  ⟨(name.getD "lexer").toList, (typeRef.getD "automata.DFA").toList, t.automaton⟩

def wrote (path : String) : String := s!"[gen_lex_tables] wrote {path}\n"

theorem exists_writes {t : Tables} {elapsed out : String} {name typeRef : Option String}
    {args : List String} {folder last : Folder}
    (h : folder.Performs (writeTables t elapsed name typeRef args) out last) :
    ∃ before content middle middle',
      out = before ++ (wrote (textPath args) ++ wrote (jsonPath args)) ∧
        (boundTable t name typeRef).render? = .ok content ∧
        Folder.write middle (textPath args).toList content = .ok middle' ∧
        middle'.write (jsonPath args).toList (TableJson.render t) = .ok last := by
  obtain ⟨before, middle, after, rfl, h₁⟩ := h.exists_of_append
  split at h₁
  next => cases h₁
  next content hcontent =>
    obtain ⟨middle', htext, h₂⟩ := h₁.of_write
    obtain ⟨middle'', hjson, h₃⟩ := h₂.of_write
    obtain ⟨after₁, rfl, h₄⟩ := h₃.of_print
    obtain ⟨after₂, rfl, h₅⟩ := h₄.of_print
    obtain ⟨rfl, rfl⟩ := h₅.of_nil
    rw [String.append_empty]
    refine ⟨before, content, middle, middle', rfl, hcontent, htext, ?_⟩
    rw [toList_jsonPath]
    exact hjson

theorem readText_of_read {folder : Folder} {path : String} {content : List Char}
    (h : folder.read path.toList = .ok (String.ofList content).toUTF8) :
    readText folder.read path = .ok (String.ofList content) := by
  rw [readText, h]
  simp only [Except.mapError, bind, Except.bind, Text.fromUTF8?_toUTF8]

theorem readTables_of_read {folder : Folder} {path : String} {t : Tables} (ht : t.check = .ok ())
    (hsize : t.automaton.states.size ≤ Text.words64)
    (h : folder.read path.toList = .ok (String.ofList (TableJson.render t)).toUTF8) :
    readTables folder.read (some path) = .ok t := by
  rw [readTables, h]
  simp only [Except.mapError, bind, Except.bind, TableJson.read_render_of_check ht hsize]

def HasText (folder : Folder) (path : String) (u : TableText) : Prop :=
  ∃ text, readText folder.read path = .ok text ∧ TableText.read text.toList = .ok u

theorem hasText_of_read {folder : Folder} {path : String} {u : TableText} {content : List Char}
    (hsize : u.automaton.states.size ≤ Text.words64) (hcontent : u.render? = .ok content)
    (h : folder.read path.toList = .ok (String.ofList content).toUTF8) : HasText folder path u := by
  obtain ⟨⟨hname, htype, hcheck⟩, rfl⟩ := TableText.render?_eq_ok_iff.1 hcontent
  refine ⟨_, readText_of_read h, ?_⟩
  rw [String.toList_ofList]
  exact TableText.read_render_of_check hname htype hcheck hsize

theorem not_hasText_of_read {folder : Folder} {path : String} {t : Tables}
    (h : folder.read path.toList = .ok (String.ofList (TableJson.render t)).toUTF8)
    (u : TableText) : ¬ HasText folder path u := by
  rintro ⟨text, htext, hread⟩
  obtain rfl := Except.ok.inj ((readText_of_read h).symm.trans htext)
  rw [String.toList_ofList] at hread
  exact TableText.read_json_ne t u hread

/-- The first file stays unless the second takes its place. -/
theorem read_text_of_writes {folder middle last : Folder} {args : List String}
    {content json : List Char} (htext : folder.write (textPath args).toList content = .ok middle)
    (hjson : middle.write (jsonPath args).toList json = .ok last)
    (hne : textPath args ≠ jsonPath args) :
    last.read (textPath args).toList = .ok (String.ofList content).toUTF8 := by
  -- Both paths end with a name in one directory, where different names are different places.
  obtain ⟨⟨dir, name, hpath, hname⟩, -⟩ := Folder.write_cases htext
  have hnamed : Path.Named (jsonPath args).toList dir (Path.stem name ++ ".json".toList) := by
    rw [toList_jsonPath]
    apply hpath.withExtension
    · rw [← Folder.isDots_eq_true_iff, hname]
      exact Bool.false_ne_true
    · decide
  have hdots : Folder.isDots (Path.stem name ++ ".json".toList) = false := by
    rw [Bool.eq_false_iff, Ne, Folder.isDots_eq_true_iff]
    intro hmem
    have hlen : ∀ dots ∈ [[], ['.'], ['.', '.']], dots.length ≤ 2 := by decide
    simpa using hlen _ hmem
  exact Folder.read_write_of_ne hjson hnamed hpath hdots hname (mt String.toList_inj.1 hne)
    (Folder.read_write htext)

theorem ofRules?_builtin : Tables.ofRules? TokenKind.rules = .ok (.ofRules TokenKind.rules) := by
  rw [Tables.ofRules?, TokenKind.flaw?_rules]

def runEmpty (args : List String) : Outcome × Folder :=
  (⟨[]⟩ : Folder).perform (writeTables (.ofRules TokenKind.rules) "7" none none args)

theorem code_runEmpty {args : List String} {path up : List Char} {made : Folder}
    (hpath : (textPath args).toList = path) (hup : Path.parent? path = some up)
    (hmade : (⟨[]⟩ : Folder).makeDirectories up = (.ok (), made))
    (hwrite : ∀ content json, ∃ middle last, made.write path content = .ok middle ∧
      middle.write (Path.withExtension path "json".toList) json = .ok last) :
    (runEmpty args).1.code = 0 := by
  have hcheck := (Tables.check_eq_ok_iff.1 (Tables.check_of_ofRules? ofRules?_builtin)).1
  have hcontent : (boundTable (.ofRules TokenKind.rules) none none).render? = .ok _ :=
    TableText.render?_eq_ok_iff.2 ⟨⟨by decide, by decide, hcheck⟩, rfl⟩
  obtain ⟨middle, last, htext, hjson⟩ := hwrite
    (boundTable (.ofRules TokenKind.rules) none none).render
    (TableJson.render (.ofRules TokenKind.rules))
  obtain ⟨out, h⟩ : ∃ out, Folder.Performs ⟨[]⟩
      (writeTables (.ofRules TokenKind.rules) "7" none none args) out last := by
    rw [← hpath, textPath] at hup htext hjson
    rw [boundTable] at hcontent htext
    simp only [writeTables, hup, hcontent]
    exact ⟨_, .makeDirectories hmade (.print _ (.print _ (.write htext (.write hjson
      (.print _ (.print _ (.nil _)))))))⟩
  rw [runEmpty, h.perform_eq]

/-- The tables that a command has written without a failure can be read back, as JSON in any case
and as table text unless the JSON has taken its place. -/
theorem written_tables_readable {t : Tables} (ht : Tables.ofRules? TokenKind.rules = .ok t)
    (folder : Folder) (elapsed : String) (name typeRef : Option String) (args : List String)
    (hcode : (folder.perform (writeTables t elapsed name typeRef args)).1.code = 0) :
    let run := folder.perform (writeTables t elapsed name typeRef args)
    (∃ before, run.1.out = before ++ (wrote (textPath args) ++ wrote (jsonPath args))) ∧
      readTables run.2.read (some (jsonPath args)) = .ok t ∧
      (HasText run.2 (textPath args) (boundTable t name typeRef) ↔
        textPath args ≠ jsonPath args) := by
  have hsize : t.automaton.states.size ≤ Text.words64 :=
    Nat.le_trans (Tables.size_builtin_le ht) (by decide)
  have hperforms := Folder.performs_of_code hcode
  -- The run stays a variable, lest the comparisons below compute it.
  generalize folder.perform (writeTables t elapsed name typeRef args) = run at hperforms ⊢
  obtain ⟨before, content, middle, middle', hout, hcontent, htext, hjson⟩ := exists_writes hperforms
  have hread := Folder.read_write hjson
  refine ⟨⟨before, hout⟩, readTables_of_read (Tables.check_of_ofRules? ht) hsize hread, ?_, ?_⟩
  · intro htable heq
    rw [← heq] at hread
    exact not_hasText_of_read hread _ htable
  · intro hne
    exact hasText_of_read hsize hcontent (read_text_of_writes htext hjson hne)

theorem written_tables_readable_text :
    (runEmpty ["o/t.txt"]).1.code = 0 ∧
      readTables (runEmpty ["o/t.txt"]).2.read (some (jsonPath ["o/t.txt"])) =
        .ok (.ofRules TokenKind.rules) ∧
      HasText (runEmpty ["o/t.txt"]).2 (textPath ["o/t.txt"])
        (boundTable (.ofRules TokenKind.rules) none none) := by
  have hmade : (⟨[]⟩ : Folder).makeDirectories ['o'] =
      (.ok (), ⟨[(⟨true, [['o']]⟩, .directory)]⟩) := by
    rw [Folder.makeDirectories]
    rfl
  have hpath : (textPath ["o/t.txt"]).toList = ['o', '/', 't', '.', 't', 'x', 't'] := by decide
  have hcode : (runEmpty ["o/t.txt"]).1.code = 0 :=
    code_runEmpty hpath (by decide) hmade fun content json => ⟨_, _, rfl, rfl⟩
  rw [runEmpty] at hcode ⊢
  obtain ⟨-, hjson, htext⟩ := written_tables_readable ofRules?_builtin ⟨[]⟩ "7" none none _ hcode
  exact ⟨hcode, hjson, htext.2 (by decide)⟩

theorem text_overwritten :
    (runEmpty ["x.json"]).1.code = 0 ∧
      ¬ HasText (runEmpty ["x.json"]).2 (textPath ["x.json"])
        (boundTable (.ofRules TokenKind.rules) none none) := by
  have hmade : (⟨[]⟩ : Folder).makeDirectories [] = (.ok (), ⟨[]⟩) := by
    rw [Folder.makeDirectories]
    rfl
  have hpath : (textPath ["x.json"]).toList = ['x', '.', 'j', 's', 'o', 'n'] := by decide
  have hcode : (runEmpty ["x.json"]).1.code = 0 :=
    code_runEmpty hpath (by decide) hmade fun content json => ⟨_, _, rfl, rfl⟩
  rw [runEmpty] at hcode ⊢
  obtain ⟨before, content, middle, middle', -, -, -, hjson⟩ :=
    exists_writes (Folder.performs_of_code hcode)
  have hsame : jsonPath ["x.json"] = textPath ["x.json"] := by decide
  have hread := Folder.read_write hjson
  rw [hsame] at hread
  exact ⟨hcode, not_hasText_of_read hread _⟩

end Command

end Munch
