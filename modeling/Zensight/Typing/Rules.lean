import Zensight.Typing.Overloads

/-!
# The rules of typing

`View.rule` says, for every node, what its type is in terms of the types of
other nodes. It covers all forms: what has no type, or an unknown one, is
`any`.
-/

namespace Zensight

/-- The type of a literal by the kind of its token. -/
def Token.Kind.literalType : Token.Kind → Ty
  | .intLit => .int
  | .longLit => .basic .long
  | .floatLit => .basic .float
  | .doubleLit => .basic .double
  | .stringLit => .string
  | .kwTrue | .kwFalse => .bool
  | _ => .any

/-- The type that the keyword of a builtin type stands for. -/
def Token.Kind.primitiveType : Token.Kind → Ty
  | .kwByte => .basic .byte
  | .kwShort => .basic .short
  | .kwInt => .int
  | .kwLong => .basic .long
  | .kwFloat => .basic .float
  | .kwDouble => .basic .double
  | .kwBool => .bool
  | .kwVoid => .void
  | .kwString => .string
  | _ => .any

namespace View

/-- The entry of a node. -/
def entry (v : View) (n : NodeRef) : Entry := (v.script n.script).entry n.node

/-- The first part of a node that plays a role. -/
def part? (v : View) (n : NodeRef) (role : Role) : Option NodeRef :=
  ((v.entry n).get? role).map fun id => ⟨n.script, id⟩

/-- The parts of a node that play a role. -/
def partsOf (v : View) (n : NodeRef) (role : Role) : List NodeRef :=
  ((v.entry n).all role).map fun id => ⟨n.script, id⟩

/-- The node that a node is a part of. -/
def parent? (v : View) (n : NodeRef) : Option NodeRef :=
  ((v.script n.script).parent? n.node).map fun id => ⟨n.script, id⟩

/-- The type of a part; `any` if it is missing. -/
def partType (v : View) (n : NodeRef) (role : Role) : Inquiry Ty :=
  match v.part? n role with
  | some p => .typeOf p
  | none => pure .any

/-- The types of several nodes. -/
def typesOf : List NodeRef → Inquiry (List Ty)
  | [] => pure []
  | n :: rest => do
    let t ← Inquiry.typeOf n
    return t :: (← typesOf rest)

/-- The types of the parts that play a role. -/
def partTypes (v : View) (n : NodeRef) (role : Role) : Inquiry (List Ty) :=
  typesOf (v.partsOf n role)

/-- What a name means at a node: by its scopes, then as a global variable. -/
def lookup? (v : View) (n : NodeRef) (name : Text) : Option Symbol :=
  (v.script n.script).resolve? n.script v.registry n.node name

/-- The function type of an executable with this result. -/
def signature (v : View) (n : NodeRef) (result : Ty) : Inquiry Ty := do
  return .function (← v.partTypes n .param) result

/-- The overloads that a call chooses from: the members that a member call
names, or several executables of one name. Other calls take what their callee
is. -/
def callCandidates (v : View) (call : NodeRef) : Inquiry (List Symbol) := do
  match v.part? call .callee with
  | none => return []
  | some callee =>
    match (v.entry callee).form with
    | .memberExpr =>
      let receiver ← v.partType callee .operand
      v.memberCandidates receiver ((v.script callee.script).partName callee.node .name)
    | .ident name =>
      let found := (v.script callee.script).lookupAll callee.node name
      if 2 ≤ found.length ∧ found.all (·.kind.isExecutable) then
        return found.map (.declared callee.script)
      else return []
    | _ => return []

/-- The type of a call. -/
def callType (v : View) (call : NodeRef) : Inquiry Ty := do
  match ← v.callCandidates call with
  | [] =>
    match ← v.partType call .callee with
    | .function _ result => return result
    | .classType c => return .classType c
    | _ => return .any
  | candidates =>
    let args ← v.partTypes call .argument
    match ← v.findBest candidates args with
    | none => return .any
    | some best => return (← v.symbolType best).resultType

/-- The type of an access to a member. A type without the member may still have
an operator that takes its name. -/
def memberType (v : View) (n : NodeRef) : Inquiry Ty := do
  let receiver ← v.partType n .operand
  match ← v.memberNamed? receiver ((v.script n.script).partName n.node .name) with
  | some s => v.symbolType s
  | none => v.binaryResult receiver .memberGet .string

/-- The type of a unary expression. -/
def unaryType (v : View) (n : NodeRef) (op : Token.Kind) : Inquiry Ty := do
  let t ← v.partType n .operand
  match op with
  | .plus => return t
  | .bang => v.unaryResult t .not
  | .minus => v.unaryResult t .neg
  | _ => return .any

/-- The type of a binary expression. A comparison operator returns the sign of
the comparison, so it must return an `int`. -/
def binaryType (v : View) (n : NodeRef) (op : Token.Kind) : Inquiry Ty := do
  let left ← v.partType n .left
  match op with
  | .andAnd | .orOr => return left
  | .less | .greater | .lessEq | .greaterEq =>
    let result ← v.binaryResult left .compare (← v.partType n .right)
    return if result.equal .int then .bool else .any
  | .eqEq | .bangEq => v.binaryResult left .equals (← v.partType n .right)
  | op =>
    match Operator.ofSign op.name 1 with
    | .error => return .any
    | operator => v.binaryResult left operator (← v.partType n .right)

/-- The type of the variable at place `i` of a loop: an element, or with two
variables an index and an element; of a map, a key and a value. -/
def loopVarType (v : View) (loop : NodeRef) (i : Nat) : Inquiry Ty := do
  let count := (v.partsOf loop .loopVar).length
  if count > 2 then return .any
  else
    match ← v.unaryResult (← v.partType loop .iterated) .iterator with
    | .list element | .array element =>
      return if count = 2 ∧ i = 0 then .int else element
    | .map key value => return if count = 1 ∨ i = 0 then key else value
    | _ => return .any

/-- The outermost expression that is the node but for parentheses around it, and
what that is a part of. Parents have smaller numbers than their parts, so the
number of the node bounds the search. -/
def outsideParens (v : View) : Nat → NodeRef → NodeRef × Option NodeRef
  | 0, n => (n, v.parent? n)
  | fuel + 1, n =>
    match v.parent? n with
    | none => (n, none)
    | some p =>
      if (v.entry p).form = .parenExpr then v.outsideParens fuel p else (n, some p)

/-- The type that the argument at place `i` of a call should have. -/
def argumentContext (v : View) (call : NodeRef) (i : Nat) : Inquiry Ty := do
  match ← v.callCandidates call with
  | [] =>
    match ← v.partType call .callee with
    | .function params _ => return params[i]?.getD .any
    | _ => return .any
  | candidates =>
    let known ← typesOf ((v.partsOf call .argument).take i)
    v.predictNext candidates known

/-- The type that a lambda should have where it stands: that of the left side of
an assignment, of the variable it initialises, or of the parameter it is passed
to. -/
def lambdaContext (v : View) (n : NodeRef) : Inquiry Ty := do
  match v.outsideParens n.node n with
  | (_, none) => return .any
  | (child, some p) =>
    match (v.entry p).form with
    | .assignExpr _ =>
      if v.part? p .right = some child then v.partType p .left else return .any
    | .varDecl _ =>
      if v.part? p .value = some child then v.partType p .type else return .any
    | .callExpr =>
      match (v.partsOf p .argument).idxOf? child with
      | some i => v.argumentContext p i
      | none => return .any
    | _ => return .any

/-- The type of a lambda: the class it is passed as, if that stands for a
function, or else a function of its parameters. -/
def lambdaType (v : View) (n : NodeRef) : Inquiry Ty := do
  let expected ← v.lambdaContext n
  let shape ← v.functionShape? expected
  match expected, shape with
  | .classType c, some _ => return .classType c
  | _, _ =>
    let result ← match v.part? n .result with
      | some r => Inquiry.typeOf r
      | none => pure ((shape.map Ty.resultType).getD .any)
    v.signature n result

/-- The type of a parameter. One of a lambda takes it from what the lambda should
be. -/
def paramType (v : View) (n : NodeRef) : Inquiry Ty := do
  match v.part? n .type, v.parent? n with
  | some t, _ => Inquiry.typeOf t
  | none, none => return .any
  | none, some lit =>
    if (v.entry lit).form = .funcLit then
      match (v.partsOf lit .param).idxOf? n with
      | none => return .any
      | some i =>
        match ← v.functionShape? (← v.lambdaContext lit) with
        | some (.function params _) => return params[i]?.getD .any
        | _ => return .any
    else return .any

/-- The type of an identifier: that of what it names if it stands as a name,
otherwise that of what the name means. -/
def identType (v : View) (n : NodeRef) (name : Text) : Inquiry Ty := do
  let reference : Inquiry Ty :=
    if name = [] then pure .any else v.symbolType? (v.lookup? n name)
  match v.parent? n with
  | none => reference
  | some p =>
    if v.part? p .name = some n ∨ v.part? p .localName = some n then Inquiry.typeOf p
    else match (v.partsOf p .loopVar).idxOf? n with
      | some i => v.loopVarType p i
      | none => reference

/-- The type that a name written as a type stands for. -/
def namedType (v : View) (n : NodeRef) (segments : List Text) : Inquiry Ty := do
  match (v.script n.script).namedTarget n.script v.registry n.node segments with
  | .settled t => return t
  | .imported decl fallback =>
    let t ← Inquiry.typeOf ⟨n.script, decl⟩
    return (NamedTarget.imported decl fallback).type fun _ => t

/-- The type of a class that a node declares. -/
def classType (v : View) (n : NodeRef) : Ty :=
  match ((v.script n.script).symbolFor? n.node).bind (·.classType? n.script) with
  | some c => .classType c
  | none => .any

/-- What the type of a node is, in terms of the types of others. -/
def rule (v : View) (n : NodeRef) : Inquiry Ty := do
  match (v.entry n).form with
  | .basicLit kind _ => return kind.literalType
  | .ident name => v.identType n name
  | .thisExpr =>
    match (v.script n.script).lookup? n.node (txt "this") with
    | some d => v.symbolType (.declared n.script d)
    | none => return .any
  | .parenExpr => v.partType n .operand
  | .memberExpr => v.memberType n
  | .indexExpr =>
    let receiver ← v.partType n .operand
    v.binaryResult receiver .indexGet (← v.partType n .index)
  | .callExpr => v.callType n
  | .unaryExpr op => v.unaryType n op
  | .binaryExpr op => v.binaryType n op
  | .rangeExpr =>
    let lower ← v.partType n .lower
    v.binaryResult lower .range (← v.partType n .upper)
  | .instanceOfExpr => return .bool
  | .castExpr => v.partType n .type
  | .ternaryExpr => v.partType n .thenBranch
  | .assignExpr _ => v.partType n .left
  | .arrayLit => return .array (← v.partType n .element)
  | .mapLit =>
    match v.part? n .entry with
    | none => return .map .any .any
    | some first => return .map (← v.partType first .key) (← v.partType first .value)
  | .funcLit => v.lambdaType n
  | .varDecl _ =>
    match v.part? n .type with
    | some t => Inquiry.typeOf t
    | none => v.partType n .value
  | .param => v.paramType n
  | .funcDecl _ | .expandFuncDecl | .operatorDecl _ =>
    v.signature n (← v.partType n .result)
  | .constructorDecl =>
    match v.parent? n with
    | some p =>
      if (v.entry p).form = .classDecl then v.signature n (← Inquiry.typeOf p)
      else v.signature n .any
    | none => v.signature n .any
  | .classDecl => return v.classType n
  | .importDecl path => return v.registry.importType path
  | .primitiveType kind => return kind.primitiveType
  | .namedType segments => v.namedType n segments
  | .arrayType => return .array (← v.partType n .element)
  | .listType => return .list (← v.partType n .element)
  | .mapType =>
    let key ← v.partType n .key
    return .map key (← v.partType n .value)
  | .funcType => v.signature n (← v.partType n .result)
  | .intersectionType => return .intersection (← v.partTypes n .constituent)
  | .mapEntry | .bracketHandler _ | .badExpr | .badType | .file | .block | .exprStmt
  | .returnStmt | .ifStmt | .foreachStmt | .whileStmt | .breakStmt | .continueStmt
  | .badStmt => return .any

end View

end Zensight
