import Zensight.Environment

/-!
# Names of types

Which class a name written as a type stands for. Names of types are found
through the scopes of their own script and the registry alone, which is why the
super classes of a class can be told without typing anything.
-/

namespace Zensight

/-- The qualified name that segments make. -/
def qualifiedName (segments : List Text) : Text := Text.join (txt ".") segments

/-- What a name written as a type refers to. -/
inductive NamedTarget where
  /-- A type already known. -/
  | settled (t : Ty)
  /-- An import, to be taken for its class if it has one and for the class of
  that name otherwise. -/
  | imported (decl : NodeId) (fallback : ClassType)

namespace Registry

/-- The registered class of a qualified name, or one without declaration. -/
def classOr (r : Registry) (qualified : Text) : Ty :=
  .classType ((r.classNamed? qualified).getD { name := qualified })

/-- The class that an import is for; nothing is known of one that is not
registered. -/
def importType (r : Registry) (path : List Text) : Ty :=
  match r.classNamed? (qualifiedName path) with
  | some c => .classType c
  | none => .any

end Registry

/-- What a name means at a node of a script: by its scopes, then as a global
variable. -/
def Script.resolve? (s : Script) (id : ScriptId) (r : Registry) (node : NodeId) (name : Text) :
    Option Symbol :=
  match s.lookup? node name with
  | some d => some (.declared id d)
  | none => r.global? name

/-- What a simple name at a node stands for as a class, if a declaration in
scope says so. -/
def Script.classInScope? (s : Script) (id : ScriptId) (r : Registry) (node : NodeId)
    (name : Text) : Option NamedTarget :=
  match s.resolve? id r node name with
  | some (.declared owner d) =>
    match d.kind with
    | .zenClass => (d.classType? owner).map fun c => .settled (.classType c)
    | .importing =>
      match s.form d.node with
      | .importDecl path => some (.imported d.node { name := qualifiedName path })
      | _ => none
    | _ => none
  | _ => none

/-- What a name written as a type at a node refers to. A simple name is looked
up in scope, then in the package of the script; any name as it stands. -/
def Script.namedTarget (s : Script) (id : ScriptId) (r : Registry) (node : NodeId)
    (segments : List Text) : NamedTarget :=
  match segments with
  | [] => .settled .any
  | [name] =>
    match s.classInScope? id r node name with
    | some target => target
    | none =>
      match r.classNamed? (Package.qualify s.package name) with
      | some c => .settled (.classType c)
      | none => .settled (r.classOr name)
  | segments => .settled (r.classOr (qualifiedName segments))

/-- The type that a name refers to, once the type of an import is known. -/
def NamedTarget.type (importType : NodeId → Ty) : NamedTarget → Ty
  | settled t => t
  | imported decl fallback =>
    match importType decl with
    | .classType c => .classType c
    | _ => .classType fallback

namespace Environment

/-- The type that an import of a script stands for, as the script sees it. -/
def ownImportType (e : Environment) (id : ScriptId) (n : NodeId) : Ty :=
  match (e.script id).form n with
  | .importDecl path => (e.registryOf id).importType path
  | _ => .any

/-- The class that a name written as a type stands for, as its script sees it. -/
def namedClass? (e : Environment) (id : ScriptId) (n : NodeId) : Option ClassType :=
  match (e.script id).form n with
  | .namedType segments =>
    match ((e.script id).namedTarget id (e.registryOf id) n segments).type
        (e.ownImportType id) with
    | .classType c => some c
    | _ => none
  | _ => none

/-- The super classes that a class declares, as its own script sees them. -/
def declaredSupers (e : Environment) (decl : NodeRef) : List ClassType :=
  (((e.script decl.script).entry decl.node).all .super).filterMap (e.namedClass? decl.script)

/-- What the declarations of classes say. -/
def hierarchy (e : Environment) : Hierarchy where
  size := e.nodeCount
  declaredMembers
    | .declared decl =>
      ((e.script decl.script).classMembers decl.node).map (.declared decl.script)
    | .listed _ => []
  declaredSupers
    | .declared decl => e.declaredSupers decl
    | .listed _ => []

/-- The constructors of a class. -/
def constructors (e : Environment) (c : ClassType) : List Symbol :=
  match c.decl with
  | some (.declared decl) =>
    ((e.script decl.script).classConstructors decl.node).map (.declared decl.script)
  | _ => []

end Environment

end Zensight
