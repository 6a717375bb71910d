import Munch.Command

open Munch

def fileError : IO.Error → FileError
  | .noFileOrDirectory .. => .missing
  | e => .other (toString e)

def readBytes (path : String) : IO (Except FileError ByteArray) :=
  try return .ok (← IO.FS.readBinFile path) catch e => return .error (fileError e)

def report (o : Outcome) : IO UInt32 := do
  IO.print o.out
  IO.eprint o.err
  return .ofNat o.code

def perform : List Step → IO UInt32
  | [] => return 0
  | .print text :: steps => do
    IO.print text
    perform steps
  | .makeDirectories path :: steps => do
    match ← (IO.FS.createDirAll (String.ofList path)).toBaseIO with
    | .ok _ => perform steps
    | .error e => report (.failed (.creating path (fileError e)))
  | .write path content :: steps => do
    match ← (IO.FS.writeFile (String.ofList path) (String.ofList content)).toBaseIO with
    | .ok _ => perform steps
    | .error e => report (.failed (.writing path (fileError e)))
  | .fail f :: _ => report (.failed f)

def main (args : List String) : IO UInt32 := do
  match args with
  | "demo" :: _ => report Command.demo
  | "lex" :: args =>
    let contents ← args.mapM fun path => return (path.toList, ← readBytes path)
    report (Command.lexFile (fun path => (contents.lookup path).getD (.error .missing)) args)
  | "tables" :: args =>
    let start ← IO.monoMsNow
    let t ← IO.lazyPure fun _ => Tables.ofRules TokenKind.rules
    let elapsed := (← IO.monoMsNow) - start
    let name ← IO.getEnv "LEX_TABLE_NAME"
    let typeRef ← IO.getEnv "LEX_TABLE_TYPE"
    perform (Command.writeTables t (toString elapsed) name typeRef args)
  | _ =>
    IO.eprintln "usage: demo | lex FILE [TABLES] | tables [FILE]"
    return 2
