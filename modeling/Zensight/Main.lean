import Zensight.Command
import Zensight.Workspace.Change

/-!
# The program

Looks at the files a command needs, runs the command on them and prints what it
says.
-/

namespace Zensight.Main

def textOf (s : String) : Text := s.toUTF8.toList

/-- The string of a text; bytes that are no UTF-8 make it empty. -/
def stringOf (t : Text) : String := (String.fromUTF8? (ByteArray.mk t.toArray)).getD ""

/-- Looks at an entry of a directory and, if `deep`, at all below it. A link to
a file somewhere else is shown as that file. -/
partial def look (deep : Bool) (d : IO.FS.DirEntry) : IO FileEntry := do
  let data ← d.path.symlinkMetadata
  match data.type with
  | .dir =>
    if !deep then return .dir .nil
    let inside ← d.path.readDir
    let entries ← inside.foldlM (fun (l : Directory) (d : IO.FS.DirEntry) => do
      try return l.set (textOf d.fileName) (← look deep d)
      catch _ => return l) .nil
    return .dir entries
  | .symlink =>
    try return .file (← IO.FS.readBinFile d.path).toList
    catch _ => return .link (textOf d.fileName)
  | _ => return .file (← IO.FS.readBinFile d.path).toList

/-- Takes what is at a path into the file tree, if there is something. -/
def take (fs : FileSystem) (deep : Bool) (path : Text) : IO FileSystem := do
  try
    let entry ← look deep ⟨".", stringOf path⟩
    let names := Path.segments (Path.absolute fs.workingDirectory path)
    return { fs with root := fs.root.put names entry }
  catch _ => return fs

/-- A file tree that holds nothing but the working directory. -/
def emptyFiles : IO FileSystem := do
  return .empty (Path.segments (textOf (← IO.currentDir).toString))

/-- The files that a command looks at. -/
def files (i : Invocation) : IO FileSystem := do
  let fs ← emptyFiles
  let file := if i.options.config = [] then Command.defaultConfigFile else i.options.config
  let fs ← take fs false file
  match Command.configFor fs i.options with
  | .error _ => return fs
  | .ok c =>
    let fs ← i.operands.foldlM (fun fs path => take fs false path) fs
    take fs true c.root

/-- Keeps the workspace up to date and tells what changes. -/
partial def keepUp (i : Invocation) (c : Config) (fs : FileSystem) (e : Environment) : IO Unit := do
  IO.sleep 500
  let now ← files i
  let (e, updates) := (c.changes fs now).foldl (fun (e, updates) change =>
    let (e, more) := e.follow c now change
    (e, updates ++ more)) (e, [])
  for u in updates do
    IO.eprintln (stringOf u.render)
  keepUp i c now e

def print (stream : IO.FS.Stream) (t : Text) : IO Unit := do
  stream.write (ByteArray.mk t.toArray)
  stream.flush

/-- Prints what a command says; the result is the exit code. -/
def finish (o : Outcome) : IO UInt32 := do
  print (← IO.getStdout) o.out
  print (← IO.getStderr) o.err
  match o.error? with
  | none => return 0
  | some .checkFailed => return 1
  | some e =>
    print (← IO.getStderr) (txt "Error: " ++ e.message ++ txt "\n")
    return 1

end Zensight.Main

open Zensight in
def main (args : List String) : IO UInt32 := do
  let args := args.map Main.textOf
  match Arguments.parse args with
  | .error e => Main.finish { error? := some (.usage e) }
  | .ok i =>
    let fs ← Main.files i
    let code ← Main.finish (Command.run { files := fs } args)
    if code = 0 && i.action = some .watch then
      if let .ok c := Command.configFor fs i.options then
        if let .ok e := Command.environment { files := fs } c then
          Main.keepUp i c fs e
    return code
