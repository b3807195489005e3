import Zensight.Typing.Rules

/-!
# Asking for types

`View.typeWithin` applies the rules of typing. The rules may ask in circles, as
for `var x = x;`, so the nodes being typed are kept, and one asked for again is
`any`. Every step adds a node to them, so the number of nodes bounds the depth.
-/

namespace Zensight

namespace View

/-- The type of a node, asked for while others are being typed. -/
def typeWithin (v : View) : Nat → List NodeRef → NodeRef → Ty
  | 0, _, _ => .any
  | fuel + 1, pending, n =>
    if pending.contains n then .any
    else (v.rule n).run (v.typeWithin fuel (n :: pending))

/-- The type of a node. -/
def typeOf (v : View) (n : NodeRef) : Ty := v.typeWithin (v.env.nodeCount + 1) [] n

/-- The answer of an inquiry asked afresh. -/
def answer {α : Type} (v : View) (q : Inquiry α) : α := q.run v.typeOf

end View

namespace Environment

/-- What a question to the environment may use. -/
def view (e : Environment) : View := .ofEnvironment e

/-- The type of a symbol as its own script sees it; a stated symbol may come
without one. -/
def ownType? (e : Environment) (s : Symbol) : Option Ty :=
  match s with
  | .stated s => s.type
  | .declared id _ =>
    let v := View.ofScript e id
    some (v.answer (v.symbolType s))

/-- The type that an expand function adds to, as its own script sees it. -/
def ownTarget? (e : Environment) (s : Symbol) : Option Ty :=
  match s with
  | .declared id { detail := .expand target _, .. } =>
    some ((View.ofScript e id).typeOf ⟨id, target⟩)
  | _ => none

end Environment

end Zensight
