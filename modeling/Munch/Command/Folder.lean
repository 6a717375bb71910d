import Munch.Command.Path

namespace Munch

inductive FileError where
  | missing
  | taken
  | isDirectory
  | notDirectory
  | nameTooLong
  | notText
  | other (message : String)

def FileError.message : FileError → String
  | missing => "No such file or directory (os error 2)"
  | taken => "File exists (os error 17)"
  | isDirectory => "Is a directory (os error 21)"
  | notDirectory => "Not a directory (os error 20)"
  | nameTooLong => "File name too long (os error 36)"
  | notText => "stream did not contain valid UTF-8"
  | other message => message

inductive Node where
  | file (content : ByteArray)
  | directory

/-- The names that lead to a place from the working directory or, if it is not within, from the
directories outside, which are not told apart. -/
structure Place where
  within : Bool
  names : List (List Char)
  deriving DecidableEq

structure Folder where
  entries : List (Place × Node)

namespace Place

def ofPath (path : List Char) : Place := ⟨path.head? ≠ some '/', []⟩

def child (here : Place) : List Char → Place
  | [] | ['.'] => here
  | ['.', '.'] => if here.names.isEmpty then ⟨false, []⟩ else ⟨here.within, here.names.dropLast⟩
  | name => ⟨here.within, here.names ++ [name]⟩

end Place

namespace Folder

def ofFiles (files : List (List Char × ByteArray)) : Folder :=
  ⟨files.map fun f => (⟨true, Path.split f.1⟩, .file f.2)⟩

variable (folder : Folder)

def node? (here : Place) : Option Node :=
  let leadsTo (place : Place) := here.within = place.within && here.names.isPrefixOf place.names
  match folder.entries.lookup here with
  | some node => some node
  | none =>
    if here.names.isEmpty || folder.entries.any fun e => leadsTo e.1 then some .directory else none

def checkDirectory (here : Place) : Except FileError Unit :=
  match folder.node? here with
  | none => .error .missing
  | some (.file _) => .error .notDirectory
  | some .directory => .ok ()

def byteCount (cs : List Char) : Nat := cs.foldl (fun n c => n + c.utf8Size) 0

def checkName (name : List Char) : Except FileError Unit :=
  if byteCount name < 256 then .ok () else .error .nameTooLong

def checkPath (path : List Char) : Except FileError Unit :=
  if path.isEmpty then .error .missing
  else if byteCount path < 4096 then .ok ()
  else .error .nameTooLong

/-- Follows the names in turn, each from a directory. What the last one leads to need not exist. -/
def walk : Place → List (List Char) → Except FileError Place
  | here, [] => .ok here
  | here, name :: names => do
    folder.checkDirectory here
    checkName name
    walk (here.child name) names

def locate (path : List Char) : Except FileError Place := do
  checkPath path
  folder.walk (.ofPath path) (Path.split path)

def isDirectory (path : List Char) : Bool :=
  match (folder.locate path).map folder.node? with
  | .ok (some .directory) => true
  | _ => false

def read (path : List Char) : Except FileError ByteArray := do
  match folder.node? (← folder.locate path) with
  | none => .error .missing
  | some .directory => .error .isDirectory
  | some (.file content) => .ok content

/-- The directory that holds the last name of a path, and that name. Slashes may follow it, and the
path of slashes alone has an empty one. -/
def holder (path : List Char) : Except FileError (Place × List Char) := do
  checkPath path
  let names := ((Path.split path).reverse.dropWhile (·.isEmpty)).reverse
  let here ← folder.walk (.ofPath path) names.dropLast
  folder.checkDirectory here
  .ok (here, names.getLast?.getD [])

def isDots : List Char → Bool
  | [] | ['.'] | ['.', '.'] => true
  | _ => false

def put (here : Place) (node : Node) : Folder :=
  ⟨folder.entries.filter (·.1 ≠ here) ++ [(here, node)]⟩

def makeDirectory (path : List Char) : Except FileError Folder := do
  let (here, name) ← folder.holder path
  if isDots name then .error .taken
  checkName name
  match folder.node? (here.child name) with
  | some _ => .error .taken
  | none => .ok (folder.put (here.child name) .directory)

def ensureDirectory (path : List Char) : Except FileError Folder :=
  match folder.makeDirectory path with
  | .ok folder => .ok folder
  | .error e => if folder.isDirectory path then .ok folder else .error e

/-- Makes a directory and those on the way that are missing. What has been made before a failure
stays. -/
def makeDirectories (folder : Folder) (path : List Char) : Except FileError Unit × Folder :=
  if path.isEmpty then (.ok (), folder)
  else
    match folder.ensureDirectory path with
    | .ok folder => (.ok (), folder)
    | .error .missing =>
      match _ : Path.parent? path with
      | none => (.error .missing, folder)
      | some up =>
        match makeDirectories folder up with
        | (.error e, folder) => (.error e, folder)
        | (.ok (), folder) =>
          match folder.ensureDirectory path with
          | .ok folder => (.ok (), folder)
          | .error e => (.error e, folder)
    | .error e => (.error e, folder)
termination_by path.length
decreasing_by exact Path.length_parent? ‹_›

def write (path content : List Char) : Except FileError Folder := do
  let (here, name) ← folder.holder path
  if isDots name || path.getLast? = some '/' then .error .isDirectory
  checkName name
  match folder.node? (here.child name) with
  | some .directory => .error .isDirectory
  | _ => .ok (folder.put (here.child name) (.file (String.ofList content).toUTF8))

def listing : List (List Char × Node) :=
  (folder.entries.filter (·.1.within)).map fun (place, node) =>
    match node with
    | .file _ => (Path.join place.names, node)
    | .directory => (Path.join place.names ++ ['/'], node)

end Folder

end Munch
