import Zensight.Grammar.Rules
import Zensight.Typing.Session

/-!
# The declarations of a script
-/

namespace Zensight

/-- A declaration with its place and type. -/
structure Declared where
  place : Place
  kind : SymbolKind
  name : Text
  type : Ty
  deriving Repr

/-- A declaration on one line. -/
def Declared.render (d : Declared) : Text :=
  Text.ofNat d.place.line ++ txt ":" ++ Text.ofNat d.place.column ++ txt " " ++ d.kind.name
    ++ txt " " ++ d.name ++ txt ": " ++ d.type.text

namespace Environment

/-- What a node declares, unless its name is missing. -/
def declared? (e : Environment) (n : NodeRef) : Option Declared := do
  let s := e.script n.script
  let d ← s.symbolFor? n.node
  if Rule.isPlaceholder d.name then none
  else some {
    place := (s.entry n.node).span.start, kind := d.kind, name := d.name,
    type := e.view.typeOf n }

/-- All declarations of a script, in the order of its nodes. -/
def declarations (e : Environment) (id : ScriptId) : List Declared :=
  (e.script id).nodes.filterMap fun n => e.declared? ⟨id, n⟩

end Environment

end Zensight
