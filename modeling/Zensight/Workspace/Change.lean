import Zensight.Workspace.Loading

/-!
# Changes in a workspace

A change tells that something happened to a path. The environment follows it:
a script that was written is read again, a directory that came up is searched
for scripts, and what is gone is removed. A path that is gone can no longer be
looked at, so its name tells whether it was a script or a directory.
-/

namespace Zensight

/-- What may happen to a path. -/
inductive ChangeKind where
  | create | write | remove | rename | attributes
  deriving DecidableEq, Repr

/-- Something that happened to a path, perhaps several things at once. -/
structure Change where
  path : Text
  kinds : List ChangeKind
  deriving DecidableEq, Repr

/-- What a change did to an environment. -/
inductive Update where
  | replaced (path : Text)
  | removed (path : Text)
  deriving DecidableEq, Repr

/-- An update on one line. -/
def Update.render : Update → Text
  | replaced path => txt "replace " ++ path
  | removed path => txt "remove " ++ path

namespace Change

def has (c : Change) (k : ChangeKind) : Bool := c.kinds.contains k

/-- Is something new at the path? -/
def appears (c : Change) : Bool := c.has .create || c.has .write

/-- Is what was at the path gone? -/
def vanishes (c : Change) : Bool := c.has .remove || c.has .rename

end Change

namespace Config

/-- The path seen from the root of the workspace, unless it is outside. -/
def inside? (c : Config) (path : Text) : Option Text :=
  (Path.relative? c.root path).filter (!Text.startsWith · Path.dotDot)

/-- The scripts in a directory of the workspace, seen from its root. -/
def scriptsOfDirectory (c : Config) (fs : FileSystem) (directory : Text) : List Text :=
  match { c with root := directory }.discover fs with
  | .error _ => []
  | .ok paths => paths.filterMap fun p => Path.relative? c.root (Path.join directory p)

/-- The scripts of the workspace with their contents, as far as they can be
read. -/
def contents (c : Config) (fs : FileSystem) : List (Text × Text) :=
  match c.discover fs with
  | .error _ => []
  | .ok paths => paths.filterMap fun p =>
    ((fs.read (Path.join c.root p)).toOption).map fun source => (p, source)

/-- The changes to the scripts of the workspace between two looks at the files:
those that are gone and those that are new or different. -/
def changes (c : Config) (old new : FileSystem) : List Change :=
  let before := c.contents old
  let after := c.contents new
  let gone := before.filter fun (p, _) => (after.lookup p).isNone
  let written := after.filter fun (p, source) => before.lookup p != some source
  gone.map (fun (p, _) => ⟨Path.join c.root p, [.remove]⟩)
    ++ written.map (fun (p, _) => ⟨Path.join c.root p, [.write]⟩)

end Config

namespace Environment

/-- An environment with the updates that led to it. -/
abbrev Updated := Environment × List Update

/-- Reads a script again. A script that cannot be read changes nothing. -/
def reload (c : Config) (fs : FileSystem) (e : Environment) (path : Text) : Updated :=
  match Script.load fs c.root path with
  | .error _ => (e, [])
  | .ok s =>
    let (id, e) := e.intern s
    (e.replace id, [.replaced path])

/-- Removes the script at a path, if there is one. -/
def drop (e : Environment) (path : Text) : Updated :=
  match e.remove path with
  | .error _ => (e, [])
  | .ok e => (e, [.removed path])

/-- Takes one step after the other. -/
def updateAll (step : Environment → Text → Updated) (e : Environment) : List Text → Updated
  | [] => (e, [])
  | path :: rest =>
    let (e, first) := step e path
    let (e, more) := e.updateAll step rest
    (e, first ++ more)

/-- The paths of the scripts below a directory. -/
def pathsBelow (e : Environment) (directory : Text) : List Text :=
  (e.order.map fun id => (e.script id).path).filter (·.startsWith (directory ++ [Path.slash]))

/-- Follows a change. Nothing happens for paths outside of the workspace. -/
def follow (c : Config) (fs : FileSystem) (e : Environment) (change : Change) : Updated :=
  match c.inside? change.path with
  | none => (e, [])
  | some path =>
    if change.appears then
      match fs.destination change.path with
      | .error _ => (e, [])
      | .ok (.dir _) =>
        if change.has .create && !c.skips (Path.base change.path) then
          e.updateAll (reload c fs) (c.scriptsOfDirectory fs change.path)
        else (e, [])
      | .ok _ => if c.isScript change.path then e.reload c fs path else (e, [])
    else if change.vanishes then
      if c.isScript change.path then e.drop path
      else e.updateAll drop (e.pathsBelow path)
    else (e, [])

end Environment

end Zensight
