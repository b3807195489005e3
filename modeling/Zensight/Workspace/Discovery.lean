import Zensight.Files
import Zensight.Workspace.Config

/-!
# The scripts of a workspace

Which files below the root of a workspace are scripts: those whose name has one
of the configured endings, in directories that are neither hidden nor left out.
Links are not followed; a link counts as a file.

The directories in the root are looked at by their cleaned paths. That leads to
other directories, or to none, where the root is written with `..` behind a link
to somewhere else.
-/

namespace Zensight

/-- The root of a workspace, or a directory in it, could not be looked at. -/
structure DiscoveryError where
  root : Text
  fault : FileFault
  deriving DecidableEq, Repr

def DiscoveryError.message (e : DiscoveryError) : Text :=
  txt "discover " ++ e.root ++ txt ": " ++ e.fault.message

namespace Config

mutual

/-- The paths of the scripts in an entry, seen from the directory it is in. -/
def scriptsIn (c : Config) (name : Text) : FileEntry → List Text
  | .dir entries =>
    if c.skips name then []
    else (c.scriptsBelow entries).map fun path => name ++ [Path.slash] ++ path
  | .file _ | .link _ => if c.isScript name then [name] else []

/-- The paths of the scripts in a directory, seen from it. -/
def scriptsBelow (c : Config) : Directory → List Text
  | .nil => []
  | .cons name entry rest => c.scriptsIn name entry ++ c.scriptsBelow rest

end

/-- The paths of the scripts in an entry of the root, seen from the root. -/
def scriptsAt (c : Config) (fs : FileSystem) (name : Text) :
    FileEntry → Except FileFault (List Text)
  | .dir _ =>
    if c.skips name then .ok []
    else (fs.list (Path.join c.root name)).map fun entries => c.scriptsIn name (.dir entries)
  | entry => .ok (c.scriptsIn name entry)

/-- The paths of all scripts below the root, seen from it and in order. A root
that is a file is a workspace of at most one script. -/
def discover (c : Config) (fs : FileSystem) : Except DiscoveryError (List Text) :=
  match fs.entry c.root with
  | .error fault => .error ⟨c.root, fault⟩
  | .ok (.dir entries) => do
    let entries := entries.toList.mergeSort fun a b => !b.1.before a.1
    let found ← (entries.mapM fun (name, entry) => c.scriptsAt fs name entry).mapError
      (DiscoveryError.mk c.root)
    return found.flatten.mergeSort fun a b => !b.before a
  | .ok _ => .ok (if c.isScript (Path.base c.root) then [Path.dot] else [])

end Config

end Zensight
