import Zensight.Grammar.Rules

/-!
# Reading types
-/

namespace Zensight.Rule

/-- One more segment of a qualified name. -/
def pathSegment (path : List Text) : Read (ForInStep (List Text)) := do
  if (← Read.check .dot) && (← Read.peek).kind == .ident then
    let _ ← Read.advance
    let part ← Read.advance
    return .yield (path ++ [part.literal])
  else return .done path

/-- A qualified name: `a.b.C`. -/
def namedType : Read Node := do
  let first ← Read.expect .ident
  if first.kind ≠ .ident then return .leaf (.namedType []) (.empty first)
  else
    let path ← Read.iterate pathSegment [first.literal]
    return .leaf (.namedType path) (← Read.spanSince first)

/-- A type without its suffixes; nothing if no type starts here. -/
def typeStem (g : Grammar) (first : Token) : Read (Option Node) := do
  if first.kind.isPrimitive then
    let _ ← Read.advance
    return some (.leaf (.primitiveType first.kind) (← Read.spanSince first))
  else match first.kind with
    | .ident => return some (← namedType)
    | .lbracket =>
      let _ ← Read.advance
      let element ← g.type
      let _ ← Read.expect .rbracket
      return some (.of .listType (← Read.spanSince first) [(.element, element)])
    | .kwFunction =>
      let _ ← Read.advance
      let _ ← Read.expect .lparen
      let params ← commaList .rparen g.type
      let _ ← Read.expect .rparen
      let result ← g.typeAtom
      return some (.of .funcType (← Read.spanSince first)
        (several .param params ++ [(.result, result)]))
    | _ => return none

/-- One more suffix of a type that begins with `first`: `T[]` is an array and
`V[K]` a map. -/
def typeSuffix (g : Grammar) (first : Token) (t : Node) : Read (ForInStep Node) := do
  if ← Read.accept .lbracket then
    if ← Read.accept .rbracket then
      return .yield (.of .arrayType (← Read.spanSince first) [(.element, t)])
    else
      let key ← g.type
      let _ ← Read.expect .rbracket
      return .yield (.of .mapType (← Read.spanSince first) [(.value, t), (.key, key)])
  else return .done t

/-- A type with the suffixes after it. -/
def typeAtom (g : Grammar) : Read Node := do
  let first ← Read.current
  match ← typeStem g first with
  | none => placeholder .badType first (txt "expected type, got " ++ first.describe)
  | some stem => Read.iterate (typeSuffix g first) stem

/-- A type: one atom, or several joined to an intersection. -/
def type (g : Grammar) : Read Node := do
  let first ← typeAtom g
  if ← Read.check .amp then
    let types ← separated .amp first (typeAtom g)
    return .of .intersectionType (.between first (types.getLast?.getD first))
      (several .constituent types)
  else return first

/-- A type written after `as`, if there is one. -/
def asType (g : Grammar) : Read (Option Node) := behind .kwAs (type g)

end Zensight.Rule
