import Zensight.Grammar
import Zensight.Script.Bindings

/-!
# Scripts

A script is read and bound once and does not change after that. What belongs
together with other scripts, such as the type of a name, is not part of it.
-/

namespace Zensight

structure Script where
  path : Text
  package : Text
  tree : Node
  outline : Array Entry
  bindings : Bindings
  deriving Inhabited

namespace Script

/-- Reads a script. Its report has the faults of the text first, then those of
its declarations. -/
def parse (path package source : Text) : Script :=
  let (tree, faults) := source.parse
  let report := ({ file := path } : Report).merge faults
  { path, package, tree, outline := tree.outline,
    bindings := .ofTree tree package report }

def report (s : Script) : Report := s.bindings.report

def scopes (s : Script) : Array Scope := s.bindings.scopes

/-- The entry of a node; a number that no node has gives an empty entry. -/
def entry (s : Script) (id : NodeId) : Entry :=
  s.outline[id]?.getD ⟨.badStmt, default, []⟩

def form (s : Script) (id : NodeId) : Form := (s.entry id).form

/-- Number of nodes. -/
def size (s : Script) : Nat := s.outline.size

/-- The numbers of all nodes in order. -/
def nodes (s : Script) : List NodeId := List.range s.size

/-- The node that a node is a part of. -/
def parent? (s : Script) (id : NodeId) : Option NodeId :=
  (s.bindings.surroundings[id]?.join).bind (·.parent)

/-- The scope a node lies in; that of the file for a node never walked. -/
def scopeAt (s : Script) (id : NodeId) : ScopeId :=
  match s.bindings.surroundings[id]?.join with
  | some p => p.scope
  | none => 0

/-- The symbol that a node declares. -/
def symbolFor? (s : Script) (id : NodeId) : Option Declaration :=
  s.bindings.symbols[id]?.join

/-- The symbols of the scope of the file. -/
def topLevel (s : Script) : List Declaration :=
  match s.scopes[0]? with
  | some scope => scope.symbols
  | none => []

/-- A scope and those around it, from the inside out. A scope has a greater
number than the one around it, so their number bounds the length. -/
def scopeChain (s : Script) : Nat → ScopeId → List Scope
  | 0, _ => []
  | fuel + 1, id =>
    match s.scopes[id]? with
    | none => []
    | some scope =>
      scope :: (match scope.parent with
        | some outer => s.scopeChain fuel outer
        | none => [])

/-- The scopes around a node, from the inside out. -/
def scopesAround (s : Script) (id : NodeId) : List Scope :=
  s.scopeChain s.scopes.size (s.scopeAt id)

/-- What a name means at a node: its first declaration in the innermost scope
that has one. -/
def lookup? (s : Script) (id : NodeId) (name : Text) : Option Declaration :=
  (s.scopesAround id).findSome? (·.lookup name)

/-- All declarations of a name in the innermost scope that has one. -/
def lookupAll (s : Script) (id : NodeId) (name : Text) : List Declaration :=
  (((s.scopesAround id).map (·.named name)).find? (!·.isEmpty)).getD []

/-- The scope that a node has opened. -/
def scopeOf? (s : Script) (owner : NodeId) : Option Scope :=
  s.scopes.find? (·.owner == owner)

/-- The members that a class declares: what its scope holds but `this`, which
comes first. -/
def classMembers (s : Script) (decl : NodeId) : List Declaration :=
  match s.scopeOf? decl with
  | some scope => scope.symbols.tail
  | none => []

/-- The constructors that a class declares. -/
def classConstructors (s : Script) (decl : NodeId) : List Declaration :=
  s.bindings.constructors.filterMap fun (c, d) => if c = decl then some d else none

/-- The innermost node at a place; the file covers all places. -/
def nodeAt (s : Script) (line column : Int) : NodeId :=
  (s.tree.idAt? line column).getD 0

/-- The name that an identifier node spells. -/
def identName (s : Script) (id : NodeId) : Text :=
  match s.form id with
  | .ident name => name
  | _ => []

/-- The name that a part of a node spells; empty if it has none. -/
def partName (s : Script) (id : NodeId) (role : Role) : Text :=
  match (s.entry id).get? role with
  | some n => s.identName n
  | none => []

end Script

end Zensight
