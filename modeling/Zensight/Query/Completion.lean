import Zensight.Grammar.Rules
import Zensight.Typing.Session

/-!
# Completing a member access

After a dot, the members of the receiver that begin with what has been typed of
the name so far.
-/

namespace Zensight

/-- A member that completes an access. -/
structure Completion where
  name : Text
  kind : SymbolKind
  type : Ty
  deriving Repr

/-- The name and the type of a completion. -/
def Completion.render (c : Completion) : Text := c.name ++ txt ": " ++ c.type.text

namespace Script

/-- A node and those it is part of, from the inside out. Parents have smaller
numbers than their parts, so the number of the node bounds the length. -/
def ancestry (s : Script) : Nat → NodeId → List NodeId
  | 0, n => [n]
  | fuel + 1, n =>
    n :: (match s.parent? n with
      | some p => s.ancestry fuel p
      | none => [])

/-- Is the node an access whose receiver ends before the place? -/
def isAccessBefore (s : Script) (line column : Int) (n : NodeId) : Bool :=
  match (s.entry n).form, (s.entry n).get? .operand with
  | .memberExpr, some receiver =>
    let stop := (s.entry receiver).span.stop
    stop.line < line || (stop.line == line && stop.column ≤ column - 1)
  | _, _ => false

/-- The member access whose name is being typed just before a place. -/
def accessAt? (s : Script) (line column : Int) : Option NodeId :=
  if column < 2 then none
  else
    let n := s.nodeAt line (column - 1)
    (s.ancestry n n).find? (s.isAccessBefore line column)

/-- The part of an access's name that stands before a place. -/
def typedName (s : Script) (access : NodeId) (line column : Int) : Text :=
  match (s.entry access).get? .name with
  | none => []
  | some n =>
    let name := s.identName n
    let start := (s.entry n).span.start
    if name ≠ Rule.missingName ∧ start.line = line ∧ column > start.column then
      name.take (column - start.column).toNat
    else []

end Script

namespace Environment

/-- The completions at a place of a script; nothing if no access is being typed
there. -/
def completions? (e : Environment) (id : ScriptId) (line column : Int) :
    Option (List Completion) := do
  let s := e.script id
  let access ← s.accessAt? line column
  let typed := s.typedName access line column
  let v := e.view
  let receiver := v.answer (v.partType ⟨id, access⟩ .operand)
  let members := (v.answer (v.membersOf receiver)).filter fun m =>
    m.kind != .operator && m.name.startsWith typed
  return members.map fun m =>
    { name := m.name, kind := m.kind, type := v.answer (v.symbolType m) }

end Environment

end Zensight
