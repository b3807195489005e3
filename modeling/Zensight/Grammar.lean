import Zensight.Grammar.Statements

/-!
# Reading a script

`Grammar.upTo n` unfolds the rules `n` times. `Text.parse` reads a whole script:
it unfolds them as often as there are tokens, so no rule ever runs out, and
passes every token up to the end of the script.
-/

namespace Zensight

namespace Grammar

/-- The rules over a bundle, as a bundle. -/
def unfold (g : Grammar) : Grammar where
  type := Rule.type g
  typeAtom := Rule.typeAtom g
  expression := Rule.expression g
  ternary := Rule.ternary g
  binary := Rule.binary g
  unary := Rule.unary g
  statement := Rule.statement g

/-- The bundle whose rules have no result. -/
def empty : Grammar where
  type := failure
  typeAtom := failure
  expression := failure
  ternary := failure
  binary _ := failure
  unary := failure
  statement := failure

/-- The rules unfolded `n` times. -/
def upTo : Nat → Grammar
  | 0 => empty
  | n + 1 => (upTo n).unfold

/-- What may stand at the top level: an import, a statement or nothing, as the
imports and the statements it adds. -/
def topLevelItem (g : Grammar) : Read (List Node × List Node) := do
  if ← Read.check .kwImport then return ([← Rule.importDecl], [])
  else return ([], (← Rule.statement g).toList)

/-- The imports and the statements of a script, each in their order. -/
def topLevel (g : Grammar) : Read (List Node × List Node) :=
  Read.iterate (fun items => do
    if ← Read.check .eof then return .done items
    else
      let new ← Rule.advancing (topLevelItem g)
      return .yield (items.1 ++ new.1, items.2 ++ new.2)) ([], [])

/-- A whole script. Its span reaches from the first place to one column past
its end. -/
def file (g : Grammar) : Read Node := do
  let items ← topLevel g
  let stop := (← Read.current).place
  return .of .file ⟨.start, ⟨stop.line, stop.column + 1⟩⟩
    (Rule.several .importing items.1 ++ Rule.several .statement items.2)

end Grammar

/-- The tree of a script and the report of its faults. -/
def Text.parse (source : Text) : Node × Report :=
  let reader := Reader.ofText source
  match (Grammar.file (.upTo reader.ahead.length)).run reader with
  | some (tree, reader) => (tree, reader.report)
  | none => (default, {})

end Zensight
