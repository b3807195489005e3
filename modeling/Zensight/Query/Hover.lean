import Zensight.Grammar.Rules
import Zensight.Typing.Session

/-!
# What stands at a place

A name is described with its type, any other expression and any written type by
its type alone, and a declaration by what it declares.
-/

namespace Zensight

/-- Does the form stand for an expression? -/
def Form.isExpression : Form → Bool
  | .ident _ | .basicLit _ _ | .thisExpr | .parenExpr | .arrayLit | .mapLit
  | .bracketHandler _ | .funcLit | .memberExpr | .indexExpr | .callExpr | .unaryExpr _
  | .binaryExpr _ | .rangeExpr | .instanceOfExpr | .castExpr | .ternaryExpr | .assignExpr _
  | .badExpr => true
  | _ => false

namespace Environment

/-- The description of a node; some nodes have none. -/
def describe? (e : Environment) (n : NodeRef) : Option Text :=
  let s := e.script n.script
  let type := e.view.typeOf n
  let named (name : Text) : Text := name ++ txt ": " ++ type.text
  match s.form n.node with
  | .ident name => if Rule.isPlaceholder name then none else some (named name)
  | form =>
    if form.isType || form.isExpression then some type.text
    else (s.symbolFor? n.node).map fun d => named d.name

/-- The description of the innermost node at a place of a script. -/
def hover? (e : Environment) (id : ScriptId) (line column : Int) : Option Text :=
  e.describe? ⟨id, (e.script id).nodeAt line column⟩

end Environment

end Zensight
