import Zensight.Path

/-!
# Files

A file tree and the way paths lead through it. A directory holds named entries;
an entry is a file, a symbolic link or another directory. A path is followed
segment by segment from the working directory, and links met on the way are
followed too.
-/

namespace Zensight

mutual

/-- What a name in a directory stands for. -/
inductive FileEntry where
  | file (content : Text)
  | link (target : Text)
  | dir (entries : Directory)
  deriving Repr, Inhabited

/-- The named entries of a directory. -/
inductive Directory where
  | nil
  | cons (name : Text) (entry : FileEntry) (rest : Directory)
  deriving Repr, Inhabited

end

namespace Directory

/-- The entry of a name. -/
def get? : Directory → Text → Option FileEntry
  | nil, _ => none
  | cons n e rest, name => if n = name then some e else rest.get? name

/-- Gives a name an entry, in place of the one it has. -/
def set : Directory → Text → FileEntry → Directory
  | nil, name, entry => cons name entry nil
  | cons n e rest, name, entry =>
    if n = name then cons n entry rest else cons n e (rest.set name entry)

/-- The names with their entries. -/
def toList : Directory → List (Text × FileEntry)
  | nil => []
  | cons n e rest => (n, e) :: rest.toList

/-- Takes a name away. -/
def erase : Directory → Text → Directory
  | nil, _ => nil
  | cons n e rest, name => if n = name then rest else cons n e (rest.erase name)

end Directory

namespace FileEntry

def isDir : FileEntry → Bool
  | dir _ => true
  | _ => false

/-- The entry that a list of names leads to, without following links. -/
def at? : FileEntry → List Text → Option FileEntry
  | e, [] => some e
  | dir entries, name :: names => (entries.get? name).bind (·.at? names)
  | _, _ :: _ => none

/-- Puts an entry where a list of names leads to, with the directories on the
way. A file in the way stays. -/
def put : FileEntry → List Text → FileEntry → FileEntry
  | _, [], new => new
  | dir entries, name :: names, new =>
    dir (entries.set name (((entries.get? name).getD (dir .nil)).put names new))
  | e, _ :: _, _ => e

/-- Takes away the entry that a list of names leads to. -/
def erase : FileEntry → List Text → FileEntry
  | dir entries, [name] => dir (entries.erase name)
  | dir entries, name :: names =>
    match entries.get? name with
    | some e => dir (entries.set name (e.erase names))
    | none => dir entries
  | e, _ => e

end FileEntry

/-- Why a path leads nowhere, or nothing can be read or made there. -/
inductive FileError where
  | notFound | notDirectory | isDirectory | tooManyLinks | invalidPath | nameTooLong | taken
  deriving DecidableEq, Repr

def FileError.message : FileError → Text
  | notFound => txt "no such file or directory"
  | notDirectory => txt "not a directory"
  | isDirectory => txt "is a directory"
  | tooManyLinks => txt "too many levels of symbolic links"
  | invalidPath => txt "invalid argument"
  | nameTooLong => txt "file name too long"
  | taken => txt "file exists"

/-- What was tried with a path. -/
inductive FileCall where
  | inspecting | checking | opening | reading
  deriving DecidableEq, Repr

def FileCall.name : FileCall → Text
  | inspecting => txt "lstat"
  | checking => txt "stat"
  | opening => txt "open"
  | reading => txt "read"

/-- A call on a path that failed. -/
structure FileFault where
  call : FileCall
  path : Text
  error : FileError
  deriving DecidableEq, Repr

def FileFault.message (f : FileFault) : Text :=
  f.call.name ++ txt " " ++ f.path ++ txt ": " ++ f.error.message

/-- A file tree and the working directory in it. -/
structure FileSystem where
  root : FileEntry := .dir .nil
  /-- The names that lead to the working directory. -/
  here : List Text := []
  deriving Repr, Inhabited

namespace FileSystem

/-- The most links that one path may lead through. -/
def linkLimit : Nat := 40

/-- The most bytes that a name in a directory may have. -/
def nameLimit : Nat := 255

/-- The most bytes that a path may have. -/
def pathLimit : Nat := 4095

/-- The segments to follow for a path. A slash at the end asks for a directory
there, which the segment `.` does too. -/
def steps (path : Text) : List Text :=
  Path.segments path ++ if path.getLast? = some Path.slash then [Path.dot] else []

/-- How a path ends. -/
inductive Ending where
  /-- With an entry, which may be a link. -/
  | entry
  /-- With what a link there leads to. -/
  | target
  /-- With what a link there leads to, or with a name that is still free. -/
  | fresh
  deriving DecidableEq, Repr

/-- Follows segments from the place `here`. The answer holds no link unless it
ends with one. -/
def follow (root : FileEntry) (ending : Ending) (links : Nat) (here todo : List Text) :
    Except FileError (List Text) :=
  match todo with
  | [] => .ok here
  | name :: rest =>
    match root.at? here with
    | none => .error .notFound
    | some (.dir entries) =>
      if name = Path.dot then follow root ending links here rest
      else if name = Path.dotDot then follow root ending links here.dropLast rest
      else if nameLimit < name.length then .error .nameTooLong
      else match entries.get? name with
        | none =>
          if rest.isEmpty && ending = .fresh then .ok (here ++ [name]) else .error .notFound
        | some (.link target) =>
          if rest.isEmpty && ending = .entry then .ok (here ++ [name])
          else match links with
            | 0 => .error .tooManyLinks
            | links + 1 =>
              follow root ending links (if Path.isAbsolute target then [] else here)
                (steps target ++ rest)
        | some _ => follow root ending links (here ++ [name]) rest
    | some _ => .error .notDirectory
termination_by (links, todo.length)

/-- The place from which a path is followed. -/
def start (fs : FileSystem) (path : Text) : List Text :=
  if Path.isAbsolute path then [] else fs.here

/-- Is the text one that can be followed as a path? -/
def checkPath (path : Text) : Except FileError Unit := do
  if path = [] then throw .notFound
  if path.contains 0 then throw .invalidPath
  if pathLimit < path.length then throw .nameTooLong

/-- The place of a path and what is there. -/
def locate (fs : FileSystem) (ending : Ending) (path : Text) :
    Except FileError (List Text × FileEntry) := do
  checkPath path
  let place ← follow fs.root ending linkLimit (fs.start path) (steps path)
  match fs.root.at? place with
  | some entry => return (place, entry)
  | none => throw .notFound

/-- The entry at a path; a link at its end is the entry itself. -/
def entry (fs : FileSystem) (path : Text) : Except FileFault FileEntry :=
  match fs.locate .entry path with
  | .ok (_, e) => .ok e
  | .error e => .error ⟨.inspecting, path, e⟩

/-- What a path leads to in the end. -/
def destination (fs : FileSystem) (path : Text) : Except FileFault FileEntry :=
  match fs.locate .target path with
  | .ok (_, e) => .ok e
  | .error e => .error ⟨.checking, path, e⟩

/-- Does the path lead somewhere? -/
def pathExists (fs : FileSystem) (path : Text) : Bool := (fs.destination path).isOk

/-- The content of the file at a path. -/
def read (fs : FileSystem) (path : Text) : Except FileFault Text :=
  match fs.locate .target path with
  | .ok (_, .file content) => .ok content
  | .ok _ => .error ⟨.reading, path, .isDirectory⟩
  | .error e => .error ⟨.opening, path, e⟩

/-- The entries of the directory at a path. -/
def list (fs : FileSystem) (path : Text) : Except FileFault Directory :=
  match fs.locate .target path with
  | .ok (_, .dir entries) => .ok entries
  | .ok _ => .error ⟨.opening, path, .notDirectory⟩
  | .error e => .error ⟨.opening, path, e⟩

/-- The working directory, from the top of the file system. -/
def workingDirectory (fs : FileSystem) : Text := Path.slash :: Path.ofSegments fs.here

/-- A file tree that holds nothing but the working directory. -/
def empty (here : List Text) : FileSystem :=
  { root := (FileEntry.dir .nil).put here (.dir .nil), here }

/-! ### Making and taking away

The path of something new is cleaned first. -/

/-- Goes on into a directory, which is made if there is nothing of its name. -/
def enter (root : FileEntry) (here : List Text) (name : Text) :
    Except FileError (FileEntry × List Text) :=
  match follow root .target linkLimit here [name] with
  | .ok place =>
    if ((root.at? place).map (·.isDir)).getD false then .ok (root, place)
    else .error .notDirectory
  | .error .notFound =>
    let place := here ++ [name]
    if (root.at? place).isSome then .error .taken else .ok (root.put place (.dir .nil), place)
  | .error e => .error e

/-- Goes on into one directory after the other. -/
def enterAll (root : FileEntry) (here : List Text) :
    List Text → Except FileError (FileEntry × List Text)
  | [] => .ok (root, here)
  | name :: rest => do
    let (root, here) ← enter root here name
    enterAll root here rest

/-- Makes the directories on the way to something new at a path. The answer is
the tree with them, the place of the last one and the name of what is new. -/
def approach (fs : FileSystem) (path : Text) : Except FileError (FileEntry × List Text × Text) := do
  checkPath path
  let names := Path.cleanSegments path
  let (root, here) ← enterAll fs.root (fs.start path) names.dropLast
  return (root, here, names.getLastD Path.dot)

/-- Writes a file, with the directories on the way. A link there is followed,
also to where there is nothing yet. -/
def write (fs : FileSystem) (path content : Text) : Except FileError FileSystem := do
  let (root, here, name) ← fs.approach path
  let place ← follow root .fresh linkLimit here [name]
  if ((root.at? place).map (·.isDir)).getD false then throw .isDirectory
  return { fs with root := root.put place (.file content) }

/-- Makes a symbolic link, with the directories on the way. -/
def makeLink (fs : FileSystem) (path target : Text) : Except FileError FileSystem := do
  let (root, here, name) ← fs.approach path
  checkPath target
  match follow root .entry linkLimit here [name] with
  | .ok _ => throw .taken
  | .error .notFound => return { fs with root := root.put (here ++ [name]) (.link target) }
  | .error e => throw e

/-- Makes a directory, with the directories on the way. -/
def makeDir (fs : FileSystem) (path : Text) : Except FileError FileSystem := do
  checkPath path
  let (root, _) ← enterAll fs.root (fs.start path) (Path.cleanSegments path)
  return { fs with root }

/-- Takes away whatever is at a path. A directory is taken away with all in it. -/
def delete (fs : FileSystem) (path : Text) : Except FileError FileSystem := do
  match follow fs.root .entry linkLimit (fs.start path) (Path.cleanSegments path) with
  | .ok place => return { fs with root := fs.root.erase place }
  | .error .notFound => return fs
  | .error e => throw e

end FileSystem

end Zensight
