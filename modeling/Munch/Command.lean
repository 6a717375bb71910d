import Munch.Command.Outcome
import Munch.Compile
import Munch.Lexeme
import Munch.TableJson.Reader
import Munch.TableText

namespace Munch

namespace Command

def alignRight (width : Nat) (s : String) : String :=
  String.ofList (List.replicate (width - s.length) ' ') ++ s

def alignLeft (width : Nat) (s : String) : String :=
  s ++ String.ofList (List.replicate (width - s.length) ' ')

def lexemeText (input : Array Char) (l : Lexeme) : String :=
  Text.quoteText (input.extract l.start (l.start + l.length)).toList

def sample : String :=
  "\n        foo = 12 + bar/* cmt */(7) // hello\n        baz=3/*multi\n        line*/+qux\n    "

def demo : Outcome :=
  let t := Tables.ofRules TokenKind.rules
  let input := sample.toList
  let chars := input.toArray
  let head :=
    s!"[lexdfa] MVP grammar: {t.names.length} rules -> {t.automaton.states.size} states\n"
  match t.lex input with
  | .error e => ⟨0, head, s!"lex error: {e.message}\n"⟩
  | .ok ls =>
    let lines := ls.map fun l => s!"{l.kind.name}  {lexemeText chars l}\n"
    ⟨0, head ++ "TOKENS:\n" ++ String.join lines, ""⟩

def readText (read : List Char → Except FileError ByteArray) (path : String) :
    Except Failure String := do
  let bytes ← (read path.toList).mapError (.reading path)
  match String.fromUTF8? bytes with
  | none => .error (.reading path .notText)
  | some s => .ok s

/-- The tables of a file, or those of the built-in grammar if none is given. -/
def readTables (read : List Char → Except FileError ByteArray) :
    Option String → Except Failure Tables
  | none => .ok (.ofRules TokenKind.rules)
  | some path => do
    let bytes ← (read path.toList).mapError (.reading path)
    (TableJson.read bytes).mapError fun e => ⟨s!"{path}: {e.message}", none⟩

def lexLines (read : List Char → Except FileError ByteArray) :
    List String → Except Failure (List String)
  | [] => .error ⟨"pass an input file path", none⟩
  | path :: args => do
    let src ← readText read path
    let t ← readTables read args.head?
    let input := src.toList
    let chars := input.toArray
    let ls ← (t.lex input).mapError fun e => ⟨s!"lexing {path}", e.message⟩
    return ls.map (fun l =>
      alignRight 8 (toString l.start) ++ " " ++ alignLeft 14 l.kind.name ++ " " ++
        lexemeText chars l) ++ [s!"[lex_file] {ls.length} tokens"]

def lexFile (read : List Char → Except FileError ByteArray) (args : List String) : Outcome :=
  match lexLines read args with
  | .error f => .failed f
  | .ok lines => ⟨0, String.join (lines.map (· ++ "\n")), ""⟩

def writeTables (t : Tables) (elapsed : String) (name typeRef : Option String)
    (args : List String) : List Step :=
  let path := args.head?.getD "tables/lexer_tables.txt"
  let jsonPath := Path.withExtension path.toList "json".toList
  let accepting := t.ruleOf.toList.countP (· ≠ noRule)
  let text : TableText :=
    ⟨(name.getD "lexer").toList, (typeRef.getD "automata.DFA").toList, t.automaton⟩
  (Path.parent? path.toList).toList.map .makeDirectories ++
    [.print "[gen_lex_tables] building MVP grammar tables…\n",
      .print (s!"[gen_lex_tables] {t.automaton.states.size} states, " ++
        s!"{t.automaton.edgeCount} edges, {accepting} accepting ({elapsed} ms)\n")] ++
    match text.render? with
    | .error e => [.fail ⟨s!"failed to write {path}", e.message⟩]
    | .ok content =>
      [.write path.toList content, .write jsonPath (TableJson.render t),
        .print s!"[gen_lex_tables] wrote {path}\n",
        .print s!"[gen_lex_tables] wrote {String.ofList jsonPath}\n"]

end Command

end Munch
