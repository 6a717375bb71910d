import Munch.Command.Folder

namespace Munch

structure Failure where
  about : String
  cause : Option String

namespace Failure

def report (f : Failure) : String :=
  s!"Error: {f.about}\n" ++ f.cause.elim "" fun c => s!"\nCaused by:\n    {c}\n"

def reading (path : String) (e : FileError) : Failure := ⟨s!"read {path}", e.message⟩

def creating (path : List Char) (e : FileError) : Failure :=
  ⟨s!"failed to create {String.ofList path}", e.message⟩

def writing (path : List Char) (e : FileError) : Failure :=
  ⟨s!"failed to write {String.ofList path}", e.message⟩

end Failure

structure Outcome where
  code : Nat
  out : String
  err : String

def Outcome.failed (f : Failure) : Outcome := ⟨1, "", f.report⟩

/-- What a command does. The first failure ends it. -/
inductive Step where
  | print (text : String)
  | makeDirectories (path : List Char)
  | write (path content : List Char)
  | fail (f : Failure)

def Folder.perform (folder : Folder) : List Step → Outcome × Folder
  | [] => (⟨0, "", ""⟩, folder)
  | .print text :: steps =>
    let (o, folder) := folder.perform steps
    ({ o with out := text ++ o.out }, folder)
  | .makeDirectories path :: steps =>
    match folder.makeDirectories path with
    | (.ok (), folder) => folder.perform steps
    | (.error e, folder) => (.failed (.creating path e), folder)
  | .write path content :: steps =>
    match folder.write path content with
    | .ok folder => folder.perform steps
    | .error e => (.failed (.writing path e), folder)
  | .fail f :: _ => (.failed f, folder)

end Munch
