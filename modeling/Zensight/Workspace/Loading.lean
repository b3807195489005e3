import Zensight.Environment
import Zensight.Workspace.Discovery

/-!
# Loading a workspace

All scripts of a workspace are read and added to an environment in one step.
One file that cannot be read fails the whole, and the environment stays as it
was. Faults of the scripts themselves are no failure.
-/

namespace Zensight

/-- A script that could not be read. -/
structure ReadError where
  path : Text
  fault : FileFault
  deriving DecidableEq, Repr

def ReadError.message (e : ReadError) : Text :=
  txt "read " ++ e.path ++ txt ": " ++ e.fault.message

/-- Reads the script at a path seen from the root of its workspace. -/
def Script.load (fs : FileSystem) (root path : Text) : Except ReadError Script :=
  match fs.read (Path.join root path) with
  | .ok source => .ok (Script.parse path (Package.ofPath path) source)
  | .error fault => .error ⟨path, fault⟩

/-- Why a workspace was not loaded. -/
inductive LoadError where
  | discovery (error : DiscoveryError)
  | unreadable (root : Text) (error : ReadError)
  | canceled (root : Text)
  deriving DecidableEq, Repr

def LoadError.message : LoadError → Text
  | discovery e => e.message
  | unreadable root e => txt "load workspace " ++ root ++ txt ": " ++ e.message
  | canceled root => txt "load workspace " ++ root ++ txt ": context canceled"

namespace Environment

/-- Takes several scripts in. -/
def internAll (e : Environment) : List Script → List ScriptId × Environment
  | [] => ([], e)
  | s :: rest =>
    let (id, e) := e.intern s
    let (ids, e) := e.internAll rest
    (id :: ids, e)

/-- Adds all scripts of a workspace, in the order of their paths. If the work
was called off before it began, it fails as soon as there is a script to read. -/
def load (e : Environment) (fs : FileSystem) (c : Config) (canceled : Bool := false) :
    Except LoadError (List ScriptId × Environment) := do
  let paths ← (c.discover fs).mapError .discovery
  if canceled && !paths.isEmpty then throw (.canceled c.root)
  let scripts ← (paths.mapM (Script.load fs c.root)).mapError (.unreadable c.root)
  let (ids, e) := e.internAll scripts
  return (ids, e.addMany ids)

end Environment

end Zensight
