import Zensight.Grammar.Types

/-!
# Reading expressions

The levels, from loose to tight: assignment, ternary, the binary operators by
`level`, unary operators, casts, then member access, indexing and calls.
-/

namespace Zensight

/-- How tightly a binary operator binds; 0 for a token that is none. -/
def Token.Kind.level : Token.Kind → Nat
  | .orOr => 1
  | .andAnd => 2
  | .pipe => 3
  | .caret => 4
  | .amp => 5
  | .eqEq | .bangEq | .less | .greater | .lessEq | .greaterEq | .kwInstanceof | .kwHas
  | .kwIn => 6
  | .dotDot | .kwTo => 7
  | .plus | .minus | .tilde => 8
  | .star | .slash | .percent => 9
  | _ => 0

namespace Rule

/-- A parameter: a name, then a type and a value to fall back on if given. -/
def param (g : Grammar) : Read Node := do
  let first ← Read.current
  let name ← identifier
  let t ← asType g
  let fallback ← behind .assign g.ternary
  return .of .param (← Read.spanSince first)
    ([(.name, name)] ++ optional .type t ++ optional .fallback fallback)

/-- A list of parameters in parentheses. -/
def paramList (g : Grammar) : Read (List Node) := do
  let _ ← Read.expect .lparen
  let params ← commaList .rparen (param g)
  let _ ← Read.expect .rparen
  return params

/-- Statements in braces. -/
def block (g : Grammar) : Read Node := do
  let first ← Read.expect .lbrace
  let stmts ← untilBrace g.statement
  let _ ← Read.expect .rbrace
  return .of .block (← Read.spanSince first) (several .statement stmts)

/-- One more element of an array literal. -/
def nextElement (g : Grammar) (elements : List Node) : Read (ForInStep (List Node)) := do
  if ← Read.accept .comma then
    if ← Read.check .rbracket then return .done elements
    else
      let e ← g.expression
      return .yield (elements ++ [e])
  else return .done elements

/-- The elements of an array literal; a comma may follow the last one. -/
def arrayElements (g : Grammar) : Read (List Node) := do
  if ← Read.check .rbracket then return []
  else
    let head ← g.expression
    Read.iterate (nextElement g) [head]

/-- An array literal. -/
def arrayLit (g : Grammar) : Read Node := do
  let first ← Read.expect .lbracket
  let elements ← arrayElements g
  let _ ← Read.expect .rbracket
  return .of .arrayLit (← Read.spanSince first) (several .element elements)

/-- An entry of a map literal. -/
def mapEntry (g : Grammar) : Read Node := do
  let key ← g.ternary
  let _ ← Read.expect .colon
  let value ← g.ternary
  return .of .mapEntry (.between key value) [(.key, key), (.value, value)]

/-- A map literal; a comma may follow its last entry. -/
def mapLit (g : Grammar) : Read Node := do
  let first ← Read.expect .lbrace
  let entries ← commaList .rbrace (mapEntry g)
  let _ ← Read.expect .rbrace
  return .of .mapLit (← Read.spanSince first) (several .entry entries)

/-- A function without a name. -/
def funcLit (g : Grammar) : Read Node := do
  let first ← Read.expect .kwFunction
  let params ← paramList g
  let result ← asType g
  let body ← block g
  return .of .funcLit (← Read.spanSince first)
    (several .param params ++ optional .result result ++ [(.body, body)])

/-- A bracket handler: all tokens up to `>`, kept as text. -/
def bracketHandler : Read Node := do
  let first ← Read.expect .less
  let raw ← Read.iterate (fun raw => do
    if (← Read.check .greater) || (← Read.check .eof) || (← Read.check .semicolon) then
      return .done raw
    else
      let t ← Read.advance
      return .yield (raw ++ t.literal)) []
  let _ ← Read.expect .greater
  return .leaf (.bracketHandler raw) (← Read.spanSince first)

/-- An expression that no operator takes apart. -/
def primary (g : Grammar) : Read Node := do
  let first ← Read.current
  match first.kind with
  | .intLit | .longLit | .floatLit | .doubleLit | .stringLit | .kwTrue | .kwFalse | .kwNull =>
    let _ ← Read.advance
    return .leaf (.basicLit first.kind first.literal) (← Read.spanSince first)
  | .ident =>
    let _ ← Read.advance
    return .leaf (.ident first.literal) (← Read.spanSince first)
  | .kwThis =>
    let _ ← Read.advance
    return .leaf .thisExpr (← Read.spanSince first)
  | .lparen =>
    let _ ← Read.advance
    let inner ← g.expression
    let _ ← Read.expect .rparen
    return .of .parenExpr (← Read.spanSince first) [(.operand, inner)]
  | .lbracket => arrayLit g
  | .lbrace => mapLit g
  | .kwFunction => funcLit g
  | .less => bracketHandler
  | _ => placeholder .badExpr first (txt "unexpected " ++ first.describe ++ txt " in expression")

/-- The arguments of a call, without its parentheses. -/
def arguments (g : Grammar) : Read (List Node) := do
  if ← Read.check .rparen then return []
  else
    let head ← g.expression
    separated .comma head g.expression

/-- The access `receiver.name` after its dot, in an expression that begins with
`start`. If the name is missing the span ends with the dot, so that a question
at the dot finds the access. -/
def memberAccess (start receiver : Node) : Read Node := do
  let name ← memberName
  let stop ← if name.identName = [] then pure (← Read.previous).stop else pure name.span.stop
  return .of .memberExpr ⟨start.span.start, stop⟩ [(.operand, receiver), (.name, name)]

/-- One more access, indexing or call behind `e`, in an expression that begins
with `start`. -/
def suffix (g : Grammar) (start e : Node) : Read (ForInStep Node) := do
  if ← Read.accept .dot then return .yield (← memberAccess start e)
  else if ← Read.accept .lbracket then
    let index ← g.expression
    let _ ← Read.expect .rbracket
    return .yield (.of .indexExpr (← Read.spanSinceNode start) [(.operand, e), (.index, index)])
  else if ← Read.accept .lparen then
    let args ← arguments g
    let _ ← Read.expect .rparen
    return .yield (.of .callExpr (← Read.spanSinceNode start)
      ([(.callee, e)] ++ several .argument args))
  else return .done e

/-- A primary expression with the accesses, indexings and calls after it. -/
def suffixed (g : Grammar) : Read Node := do
  let start ← primary g
  Read.iterate (suffix g start) start

/-- One more cast behind `e`. -/
def conversion (g : Grammar) (e : Node) : Read (ForInStep Node) := do
  if ← Read.accept .kwAs then
    let t ← typeAtom g
    return .yield (.of .castExpr (.between e t) [(.operand, e), (.type, t)])
  else return .done e

/-- An expression with the casts after it. -/
def cast (g : Grammar) : Read Node := do
  let e ← suffixed g
  Read.iterate (conversion g) e

/-- An expression with the unary operators before it. -/
def unary (g : Grammar) : Read Node := do
  let first ← Read.current
  match first.kind with
  | .bang | .minus | .plus =>
    let _ ← Read.advance
    let operand ← g.unary
    return .of (.unaryExpr first.kind) (← Read.spanSince first) [(.operand, operand)]
  | _ => cast g

/-- The expression `left op …` after its operator. A right operand binds more
tightly than the operator, so operators of one level group from the left. -/
def binaryAfter (g : Grammar) (left : Node) (op : Token.Kind) : Read Node := do
  if op = .kwInstanceof then
    let t ← typeAtom g
    return .of .instanceOfExpr (.between left t) [(.operand, left), (.type, t)]
  else
    let right ← g.binary (op.level + 1)
    if op = .dotDot ∨ op = .kwTo then
      return .of .rangeExpr (.between left right) [(.lower, left), (.upper, right)]
    else
      return .of (.binaryExpr op) (.between left right) [(.left, left), (.right, right)]

/-- One more operator of the level `least` or above behind `left`. -/
def operation (g : Grammar) (least : Nat) (left : Node) : Read (ForInStep Node) := do
  let op := (← Read.current).kind
  if op.level = 0 ∨ op.level < least then return .done left
  else
    let _ ← Read.advance
    return .yield (← binaryAfter g left op)

/-- An expression of binary operators of the level `least` and above. -/
def binary (g : Grammar) (least : Nat) : Read Node := do
  let left ← unary g
  Read.iterate (operation g least) left

/-- A choice `condition ? a : b`, or a binary expression. -/
def ternary (g : Grammar) : Read Node := do
  let condition ← binary g 1
  if ← Read.accept .question then
    let yes ← g.ternary
    let _ ← Read.expect .colon
    let no ← g.ternary
    return .of .ternaryExpr (.between condition no)
      [(.condition, condition), (.thenBranch, yes), (.elseBranch, no)]
  else return condition

/-- An expression, assignments included. Assignments group from the right. -/
def expression (g : Grammar) : Read Node := do
  let left ← ternary g
  let op := (← Read.current).kind
  if op.isAssignment then
    let _ ← Read.advance
    let right ← g.expression
    return .of (.assignExpr op) (.between left right) [(.left, left), (.right, right)]
  else return left

end Rule

end Zensight
