import Zensight.Types.Members
import Zensight.Types.Rank
import Zensight.Typing.Inquiry
import Zensight.Typing.Names

/-!
# Members in an environment

A `View` is what a question about types may use: the scripts, and a registry,
which is that of the environment or, for a script that stands alone, empty.

The members of a type are its own, then the expand functions whose target it
fits, then, for a type that is no class, the members of the classes that bear
its name.
-/

namespace Zensight

structure View where
  env : Environment
  registry : Registry
  hierarchy : Hierarchy

namespace View

/-- All that an environment knows. -/
def ofEnvironment (e : Environment) : View := ⟨e, e.registry, e.hierarchy⟩

/-- What a script of the environment sees by itself. -/
def ofScript (e : Environment) (id : ScriptId) : View := ⟨e, e.registryOf id, e.hierarchy⟩

def script (v : View) (id : ScriptId) : Script := v.env.script id

/-- The type of a symbol. -/
def symbolType (_v : View) : Symbol → Inquiry Ty
  | .stated s => pure (s.type.getD .any)
  | .declared script d =>
    match d.detail with
    | .zenClass _ =>
      match d.classType? script with
      | some c => pure (.classType c)
      | none => pure .any
    | .receiver target => .typeOf ⟨script, target⟩
    | _ => .typeOf ⟨script, d.node⟩

/-- The type of a symbol that may be missing. -/
def symbolType? (v : View) : Option Symbol → Inquiry Ty
  | some s => v.symbolType s
  | none => pure .any

/-- The conflict key of a member; its type is only asked for if it is
executable. -/
def conflictKey (v : View) (s : Symbol) : Inquiry Text := do
  if s.kind.isExecutable then return s.conflictKey (← v.symbolType s)
  else return s.conflictKey .any

/-- Joins lists of members; of those with one conflict key the first wins. -/
def merge (v : View) (groups : List (List Symbol)) : Inquiry (List Symbol) := do
  let keyed ← groups.flatten.mapM fun s => return (← v.conflictKey s, s)
  return Symbol.firstOfEachKey [] keyed

mutual

/-- The members of a type without expand functions. Those of a class include
what it inherits. -/
def ownMembers (v : View) (t : Ty) : Inquiry (List Symbol) :=
  match t with
  | .classType c => pure (v.hierarchy.inheritedMembers c)
  | .intersection cs => do v.merge (← v.ownMemberGroups cs)
  | t => pure t.builtinMembers

def ownMemberGroups (v : View) (ts : List Ty) : Inquiry (List (List Symbol)) :=
  match ts with
  | [] => pure []
  | t :: ts => do
    let group ← v.ownMembers t
    return group :: (← v.ownMemberGroups ts)

end

/-- The type that an expand function adds to. -/
def expandTarget (_v : View) : Symbol → Inquiry Ty
  | .declared script { detail := .expand target _, .. } => .typeOf ⟨script, target⟩
  | _ => pure .any

/-- The expand functions whose target a type fits. -/
def expandsFor (v : View) (t : Ty) : List Symbol → Inquiry (List Symbol)
  | [] => pure []
  | s :: rest => do
    let target ← v.expandTarget s
    let others ← v.expandsFor t rest
    return if (t.rank v.hierarchy target).matched then s :: others else others

/-- The members of the classes whose simple name is that of the type; a class
does not take part. -/
def namesakeMembers (v : View) (t : Ty) : List Symbol :=
  match t with
  | .classType _ => []
  | t => (v.registry.classes.filter (·.simpleName == t.text)).flatMap v.hierarchy.members

/-- The members of a type. Nothing is known of the members of `any`. -/
def membersOf (v : View) (t : Ty) : Inquiry (List Symbol) := do
  if t.isAny then return []
  else
    let own ← v.ownMembers t
    let expands ← v.expandsFor t v.registry.expands
    return own ++ expands ++ v.namesakeMembers t

/-- Is the symbol a member that an access by this name means? Operators are not
reached by name. -/
def isNamed (name : Text) (s : Symbol) : Bool := s.kind != .operator && s.name == name

/-- The members of a type that have a name; a missing name has none. -/
def memberCandidates (v : View) (t : Ty) (name : Text) : Inquiry (List Symbol) := do
  if name = [] then return []
  else return (← v.membersOf t).filter (isNamed name)

/-- The first member of a type that has a name. -/
def memberNamed? (v : View) (t : Ty) (name : Text) : Inquiry (Option Symbol) := do
  return (← v.memberCandidates t name).head?

/-- The members of a type that implement an operator. -/
def operatorCandidates (v : View) (t : Ty) (op : Operator) : Inquiry (List Symbol) := do
  return (← v.membersOf t).filter (·.operator? == some op)

/-- What subtyping with casters may ask. -/
def context (v : View) : Context Inquiry := ⟨v.membersOf, v.symbolType⟩

/-- How well `t` fits where `u` is wanted, with casters. -/
def rank (v : View) (t u : Ty) : Inquiry Rank := t.rankIn v.hierarchy v.context u

end View

end Zensight
