import Zensight.Diagnostic
import Zensight.Script.Package
import Zensight.Script.Scope
import Zensight.Text.Quoted

/-!
# Bindings

One walk over the tree of a script finds the parent and the scope of every
node, opens the scopes and enters the declarations into them.

A node that opens a scope is walked in two passes: first its header (the name,
the target and the result type of an executable, the name and the super types
of a class, the expression a loop iterates over), which still belongs to the
scope around it, then its other parts, which belong to the scope it opens.
-/

namespace Zensight

namespace Form

/-- Does a node of this form open a scope? The scope of a file is opened apart
from those. -/
def opensScope : Form → Bool
  | funcDecl _ | expandFuncDecl | classDecl | constructorDecl | operatorDecl _ | funcLit
  | foreachStmt | block => true
  | _ => false

end Form

namespace Role

/-- Does a part with this role belong to the scope around the node that opens
one? -/
def isHeader : Role → Bool
  | name | target | result | super | iterated => true
  | _ => false

end Role

/-- What surrounds a node: the node it is a part of and the scope it lies in. -/
structure Surroundings where
  parent : Option NodeId
  scope : ScopeId
  deriving DecidableEq, Repr, Inhabited

/-- What the walk over a script's tree finds. The arrays are indexed by the
numbers of nodes or of scopes. -/
structure Bindings where
  scopes : Array Scope := #[]
  /-- What surrounds each node walked so far. -/
  surroundings : Array (Option Surroundings)
  /-- The symbol that each node declares, if it does. -/
  symbols : Array (Option Declaration)
  /-- The classes declared in the scope of the file. -/
  classes : List NodeId := []
  /-- The expand functions, wherever they are declared. -/
  expands : List Declaration := []
  /-- The constructors, each with its class. -/
  constructors : List (NodeId × Declaration) := []
  /-- The package that qualifies class names. -/
  package : Text
  report : Report
  deriving Repr, Inhabited

namespace Bindings

/-- Bindings of a tree with `size` nodes, before the walk. -/
def empty (size : Nat) (package : Text) (report : Report) : Bindings where
  surroundings := Array.replicate size none
  symbols := Array.replicate size none
  package
  report

/-- Notes what surrounds a node. -/
def record (b : Bindings) (id : NodeId) (parent : Option NodeId) (scope : ScopeId) : Bindings :=
  { b with surroundings := b.surroundings.setIfInBounds id (some ⟨parent, scope⟩) }

/-- The number the next scope will have. -/
def nextScope (b : Bindings) : ScopeId := b.scopes.size

/-- Opens a scope. -/
def openScope (b : Bindings) (owner : NodeId) (parent : Option ScopeId) : Bindings :=
  { b with scopes := b.scopes.push { id := b.nextScope, parent, owner } }

/-- Notes the symbol that a node declares. -/
def note (b : Bindings) (d : Declaration) : Bindings :=
  { b with symbols := b.symbols.setIfInBounds d.node (some d) }

/-- Enters a declaration into a scope. -/
def enter (b : Bindings) (scope : ScopeId) (d : Declaration) : Bindings :=
  { b with scopes := b.scopes.modify scope (·.define d) }

/-- Is the name taken in the scope? -/
def isTaken (b : Bindings) (scope : ScopeId) (name : Text) : Bool :=
  b.scopes[scope]?.any (·.declares name)

/-- Warns at a place that the name is taken. -/
def warnTaken (b : Bindings) (name : Text) (p : Place) : Bindings :=
  { b with
    report := b.report.addWarning p.line p.column
      (name.quote ++ txt " is already declared in this scope") }

/-- Declares a symbol in a scope. Only executables may share a name; for others
a name that is taken brings a warning at the place `p`. -/
def declare (b : Bindings) (scope : ScopeId) (d : Declaration) (p : Place) : Bindings :=
  let taken := b.isTaken scope d.name && !d.kind.isExecutable
  let b := (b.note d).enter scope d
  if taken then b.warnTaken d.name p else b

/-- The class whose members a scope holds. -/
def classOf? (b : Bindings) (scope : ScopeId) : Option NodeId := do
  let owner := (← b.scopes[scope]?).owner
  match (← b.symbols[owner]?) with
  | some d => if d.kind = .zenClass then some owner else none
  | none => none

/-- Declares a constructor, which is reached through its class alone. -/
def declareConstructor (b : Bindings) (scope : ScopeId) (d : Declaration) : Bindings :=
  let b := b.note d
  match b.classOf? scope with
  | some c => { b with constructors := b.constructors ++ [(c, d)] }
  | none => b

/-- Declares an expand function, which is reached as a member alone. -/
def declareExpand (b : Bindings) (d : Declaration) : Bindings :=
  let b := b.note d
  { b with expands := b.expands ++ [d] }

/-- Declares a class; one in the scope of the file is known to other scripts. -/
def declareClass (b : Bindings) (scope : ScopeId) (d : Declaration) (p : Place) : Bindings :=
  let b := b.declare scope d p
  if scope = 0 then { b with classes := b.classes ++ [d.node] } else b

end Bindings

namespace Parts

/-- The name that the name part spells; empty without one. -/
def declaredName (parts : Parts) : Text :=
  match parts.get? .name with
  | some n => n.identName
  | none => []

/-- Where the name part starts, or else `p`. -/
def namePlace (parts : Parts) (p : Place) : Place :=
  match parts.get? .name with
  | some n => n.span.start
  | none => p

/-- The number of arguments that are needed: the parameters up to the last one
without a value to fall back on. -/
def requiredParams (parts : Parts) : Nat :=
  ((parts.all .param).reverse.dropWhile fun p => (p.parts.get? .fallback).isSome).length

/-- The number of the part with this role, if the first part has the number
`id`. -/
def idOf? (parts : Parts) (role : Role) (id : NodeId) : Option NodeId :=
  (parts.numbered id).lookup role

end Parts

/-- The name under which an import is known: the one it gives itself, or the last segment of
its path. -/
def Form.importName (path : List Text) (parts : Parts) : Text :=
  match parts.get? .localName with
  | some a => a.identName
  | none => path.getLast?.getD []

/-- The modifier that the keyword of a variable gives it. -/
def Modifiers.ofKeyword : Token.Kind → Modifiers
  | .kwGlobal => .global
  | .kwStatic => .static
  | .kwVal => .val
  | _ => .var

/-- The name of every constructor. -/
def constructorName : Text := txt "zenConstructor"

namespace Bindings

/-- Enters what a node declares into the scope it lies in. -/
def declareNode (b : Bindings) (role : Role) (id : NodeId) (scope : ScopeId)
    (form : Form) (start : Place) (parts : Parts) : Bindings :=
  match form with
  | .importDecl path =>
    b.declare scope { name := Form.importName path parts, kind := .importing, node := id } start
  | .varDecl keyword =>
    b.declare scope
      { name := parts.declaredName, kind := .var, modifiers := .ofKeyword keyword, node := id }
      (parts.namePlace start)
  | .param =>
    b.declare scope { name := parts.declaredName, kind := .param, node := id }
      (parts.namePlace start)
  | .funcDecl isStatic =>
    b.declare scope
      { name := parts.declaredName, kind := .function,
        modifiers := if isStatic then .static else .none, node := id,
        detail := .executable parts.requiredParams }
      start
  | .expandFuncDecl =>
    b.declareExpand
      { name := parts.declaredName, kind := .expand, node := id,
        detail := .expand ((parts.idOf? .target (id + 1)).getD id) parts.requiredParams }
  | .constructorDecl =>
    b.declareConstructor scope
      { name := constructorName, kind := .constructor, node := id,
        detail := .executable parts.requiredParams }
  | .operatorDecl sign =>
    let op := Operator.ofSign sign (parts.all .param).length
    b.declare scope
      { name := op.name, kind := .operator, node := id,
        detail := .operator op parts.requiredParams }
      start
  | .classDecl =>
    let name := parts.declaredName
    b.declareClass scope
      { name, kind := .zenClass, node := id,
        detail := .zenClass (Package.qualify b.package name) }
      start
  | .ident name =>
    if role = .loopVar then
      b.declare scope { name, kind := .var, modifiers := .var, node := id } start
    else b
  | _ => b

/-- Enters `this` into the scope that a class or an expand function has just
opened. -/
def declareThis (b : Bindings) (id : NodeId) (scope : ScopeId) (form : Form) (parts : Parts) :
    Bindings :=
  let this : Declaration := { name := txt "this", kind := .var, modifiers := .val, node := id }
  match form with
  | .classDecl => b.enter scope this
  | .expandFuncDecl =>
    match parts.idOf? .target (id + 1) with
    | some target => b.enter scope { this with detail := .receiver target }
    | none => b
  | _ => b

end Bindings

mutual

/-- Walks a node that has the number `id`, plays `role` in `parent` and lies in
`scope`. -/
def Node.bind (role : Role) (id parent : NodeId) (scope : ScopeId) (n : Node) (b : Bindings) :
    Bindings :=
  match n with
  | .mk form span parts =>
    let b := b.record id (some parent) scope
    let b := b.declareNode role id scope form span.start parts
    if form.opensScope then
      let b := parts.bind (·.isHeader) (id + 1) id scope b
      let inner := b.nextScope
      let b := b.openScope id (some scope)
      let b := b.declareThis id inner form parts
      parts.bind (!·.isHeader) (id + 1) id inner b
    else parts.bind (fun _ => true) (id + 1) id scope b

/-- Walks the parts whose role is wanted, the first part having the number
`id`. -/
def Parts.bind (wanted : Role → Bool) (id parent : NodeId) (scope : ScopeId) (ps : Parts)
    (b : Bindings) : Bindings :=
  match ps with
  | .nil => b
  | .cons role node rest =>
    let b := if wanted role then node.bind role id parent scope b else b
    rest.bind wanted (id + node.size) parent scope b

end

namespace Bindings

/-- The bindings of a whole tree. Its root opens scope 0 and lies in it. -/
def ofTree (tree : Node) (package : Text) (report : Report) : Bindings :=
  let b := (empty tree.size package report).openScope 0 none
  tree.parts.bind (fun _ => true) 1 0 0 (b.record 0 none 0)

end Bindings

end Zensight
