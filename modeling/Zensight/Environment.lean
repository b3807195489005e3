import Zensight.Script
import Zensight.Types.Hierarchy

/-!
# Environments

An environment holds the scripts of a workspace by their paths. Scripts see
each other through its `Registry` only: the global variables, the classes by
qualified name and the expand functions of all scripts, in the order of their
paths.

A script may lose its place to another one of the same path and still be asked
about. `scripts` therefore keeps every script that was ever read, under a
number of its own, and `attached` tells which of them see the registry. A script
that is removed or replaced is detached; one that a batch displaces is not.
-/

namespace Zensight

/-- What scripts know of each other. -/
structure Registry where
  /-- Variables declared `global`. -/
  globals : List Symbol := []
  /-- Top-level classes. -/
  classes : List ClassType := []
  /-- The first top-level class of each qualified name. -/
  byName : List (Text × ClassType) := []
  expands : List Symbol := []
  deriving Repr, Inhabited

namespace Registry

/-- The class that a qualified name stands for. -/
def classNamed? (r : Registry) (name : Text) : Option ClassType := r.byName.lookup name

/-- The first global variable of a name. -/
def global? (r : Registry) (name : Text) : Option Symbol :=
  r.globals.find? (·.name == name)

/-- Adds a class; a name that is taken keeps its meaning. -/
def addClass (r : Registry) (c : ClassType) : Registry :=
  { r with
    classes := r.classes ++ [c]
    byName := if (r.classNamed? c.name).isSome then r.byName else r.byName ++ [(c.name, c)] }

end Registry

/-- The type of the class that a declaration of a script declares. -/
def Declaration.classType? (script : ScriptId) (d : Declaration) : Option ClassType :=
  match d.detail with
  | .zenClass qualified => some { name := qualified, decl := some (.declared ⟨script, d.node⟩) }
  | _ => none

namespace Script

/-- The top-level classes of a script that has the number `id`. -/
def classTypes (s : Script) (id : ScriptId) : List ClassType :=
  s.bindings.classes.filterMap fun n => (s.symbolFor? n).bind (·.classType? id)

/-- Adds what a script makes known to the others. -/
def register (s : Script) (id : ScriptId) (r : Registry) : Registry :=
  let globals := s.topLevel.filter (·.modifiers.has .global)
  let r := (s.classTypes id).foldl Registry.addClass r
  { r with
    globals := r.globals ++ globals.map (.declared id)
    expands := r.expands ++ s.bindings.expands.map (.declared id) }

end Script

structure Environment where
  /-- The workspace. -/
  root : Text
  /-- Every script read so far. -/
  scripts : Array Script := #[]
  /-- Which of the scripts see the registry. -/
  attached : Array Bool := #[]
  /-- The scripts of the workspace by path. -/
  units : List (Text × ScriptId) := []
  /-- The scripts of the workspace in the order of their paths. -/
  order : List ScriptId := []
  registry : Registry := {}
  deriving Inhabited

/-- Why an environment refuses a change. -/
inductive EnvironmentError where
  | duplicate (path : Text)
  | missing (path : Text)
  deriving DecidableEq, Repr

def EnvironmentError.message : EnvironmentError → Text
  | duplicate path => txt "add " ++ path ++ txt ": unit already exists"
  | missing path => txt "remove " ++ path ++ txt ": unit not found"

namespace Environment

/-- The script of a number; an empty one if there is none. -/
def script (e : Environment) (id : ScriptId) : Script :=
  e.scripts[id]?.getD (Script.parse [] [] [])

/-- The script at a path. -/
def unit? (e : Environment) (path : Text) : Option ScriptId := e.units.lookup path

/-- Takes a script in, without giving it a place in the workspace. -/
def intern (e : Environment) (s : Script) : ScriptId × Environment :=
  (e.scripts.size, { e with scripts := e.scripts.push s, attached := e.attached.push false })

/-- Attaches or detaches a script. -/
def setAttached (e : Environment) (id : ScriptId) (yes : Bool) : Environment :=
  { e with attached := e.attached.setIfInBounds id yes }

/-- Gives a script the place at its path, whoever has it. -/
def put (e : Environment) (id : ScriptId) : Environment :=
  let path := (e.script id).path
  let e := e.setAttached id true
  { e with
    units :=
      if (e.unit? path).isSome then
        e.units.map fun (p, old) => if p = path then (p, id) else (p, old)
      else e.units ++ [(path, id)] }

/-- Computes the order and the registry anew. -/
def reindex (e : Environment) : Environment :=
  let order := (e.units.mergeSort fun a b => !b.1.before a.1).map (·.2)
  { e with
    order
    registry := order.foldl (fun r id => (e.script id).register id r) {} }

/-- Adds a script at a path that is free. -/
def add (e : Environment) (id : ScriptId) : Except EnvironmentError Environment :=
  let path := (e.script id).path
  if (e.unit? path).isSome then .error (.duplicate path)
  else .ok (e.put id).reindex

/-- Adds several scripts; they take their paths from the scripts there. -/
def addMany (e : Environment) (ids : List ScriptId) : Environment :=
  (ids.foldl put e).reindex

/-- Adds a script in place of the one at its path, which is detached. -/
def replace (e : Environment) (id : ScriptId) : Environment :=
  let e := match e.unit? (e.script id).path with
    | some old => e.setAttached old false
    | none => e
  (e.put id).reindex

/-- Removes and detaches the script at a path. -/
def remove (e : Environment) (path : Text) : Except EnvironmentError Environment :=
  match e.unit? path with
  | none => .error (.missing path)
  | some id =>
    let e := e.setAttached id false
    .ok { e with units := e.units.filter (·.1 != path) }.reindex

/-- What a script sees of the others. -/
def registryOf (e : Environment) (id : ScriptId) : Registry :=
  if e.attached[id]?.getD false then e.registry else {}

/-- Number of nodes of all scripts. -/
def nodeCount (e : Environment) : Nat := e.scripts.foldl (fun n s => n + s.size) 0

/-- The form of a node. -/
def form (e : Environment) (n : NodeRef) : Form := (e.script n.script).form n.node

end Environment

end Zensight
