import Zensight.Grammar.Expressions

/-!
# Reading statements and declarations
-/

namespace Zensight.Rule

/-- The placeholder for a statement that begins with `first`. -/
def badStatement (first : Token) : Read Node :=
  return .leaf .badStmt (← Read.spanSince first)

/-- The path of an import; without its first name it is empty. -/
def importPath : Read (List Text) := do
  let head ← Read.expect .ident
  if head.kind = .ident then
    Read.iterate (fun path => do
      if ← Read.accept .dot then
        let part ← memberName
        return .yield (path ++ [part.identName])
      else return .done path) [head.literal]
  else return []

/-- `import a.b.C as D;` -/
def importDecl : Read Node := do
  let first ← Read.expect .kwImport
  let path ← importPath
  let localName ← behind .kwAs identifier
  let _ ← Read.expect .semicolon
  return .of (.importDecl path) (← Read.spanSince first) (optional .localName localName)

/-- `var name as T = value;`, also with `val`, `global` or `static`. -/
def varDecl (g : Grammar) : Read Node := do
  let first ← Read.advance
  let name ← identifier
  let t ← asType g
  let value ← behind .assign (expression g)
  let _ ← Read.expect .semicolon
  return .of (.varDecl first.kind) (← Read.spanSince first)
    ([(.name, name)] ++ optional .type t ++ optional .value value)

/-- A block, or a semicolon where a declaration has no body. -/
def optionalBody (g : Grammar) : Read (Option Node) := do
  if ← Read.check .lbrace then return some (← block g)
  else
    let _ ← Read.expect .semicolon
    return none

/-- The parameters, the result type and the body of a declared function. -/
def executable (g : Grammar) : Read (List (Role × Node)) := do
  let params ← paramList g
  let result ← asType g
  let body ← optionalBody g
  return several .param params ++ optional .result result ++ optional .body body

/-- `function name(params) as T { … }`, `static` or not. -/
def funcDecl (g : Grammar) : Read Node := do
  let first ← Read.current
  let isStatic ← Read.accept .kwStatic
  let _ ← Read.expect .kwFunction
  let name ← identifier
  let rest ← executable g
  return .of (.funcDecl isStatic) (← Read.spanSince first) ((.name, name) :: rest)

/-- `$expand T$name(params) as R { … }` -/
def expandFuncDecl (g : Grammar) : Read Node := do
  let first ← Read.expect .dollar
  if ← Read.accept .kwExpand then
    let target ← type g
    let _ ← Read.expect .dollar
    let name ← identifier
    let rest ← executable g
    return .of .expandFuncDecl (← Read.spanSince first)
      ([(.target, target), (.name, name)] ++ rest)
  else
    Read.fail first (txt "expected expand after '$', got " ++ (← Read.current).describe)
    Read.synchronize
    badStatement first

/-- `zenConstructor(params) { … }` -/
def constructorDecl (g : Grammar) : Read Node := do
  let first ← Read.expect .kwZenConstructor
  let params ← paramList g
  let body ← optionalBody g
  return .of .constructorDecl (← Read.spanSince first)
    (several .param params ++ optional .body body)

/-- May the token stand for itself as the sign of an operator function? -/
def isOperatorSign : Token.Kind → Bool
  | .plus | .minus | .star | .slash | .percent | .tilde | .bang | .amp | .pipe | .caret
  | .eqEq | .bangEq | .less | .greater | .lessEq | .greaterEq | .dotDot
  | .kwHas | .kwIn | .kwFor | .kwAs | .kwTo => true
  | _ => false

/-- The sign of an operator function; `[]`, `[]=` and `.=` take several tokens.
A missing sign is empty. -/
def operatorSign : Read Text := do
  let t ← Read.current
  if t.kind = .lbracket then
    let _ ← Read.advance
    let _ ← Read.expect .rbracket
    if ← Read.accept .assign then return txt "[]=" else return txt "[]"
  else if t.kind = .dot then
    let _ ← Read.advance
    if ← Read.accept .assign then return txt ".=" else return txt "."
  else if isOperatorSign t.kind then
    let _ ← Read.advance
    return t.literal
  else
    Read.fail t (txt "expected operator symbol, got " ++ t.describe)
    return []

/-- `operator + (other as T) as R { … }` -/
def operatorDecl (g : Grammar) : Read Node := do
  let first ← Read.expect .kwOperator
  let sign ← operatorSign
  let rest ← executable g
  return .of (.operatorDecl sign) (← Read.spanSince first) rest

/-- A member of a class; a lone semicolon is none. -/
def classMember (g : Grammar) : Read (Option Node) := do
  let first ← Read.current
  match first.kind with
  | .kwVar | .kwVal => return some (← varDecl g)
  | .kwStatic =>
    if (← Read.peek).kind = .kwFunction then return some (← funcDecl g)
    else return some (← varDecl g)
  | .kwFunction => return some (← funcDecl g)
  | .kwZenConstructor => return some (← constructorDecl g)
  | .kwOperator => return some (← operatorDecl g)
  | .semicolon =>
    let _ ← Read.advance
    return none
  | _ =>
    Read.fail first (txt "unexpected " ++ first.describe ++ txt " in zenClass body")
    Read.synchronize
    return some (← badStatement first)

/-- The name of a class. It may be that of a builtin type, whose members the
class then adds to. -/
def className : Read Node := do
  let t ← Read.current
  if t.kind.isPrimitive then
    let _ ← Read.advance
    return .leaf (.ident t.literal) (← Read.spanSince t)
  else identifier

/-- The classes after `extends`. -/
def superTypes : Read (List Node) := do
  if ← Read.accept .kwExtends then
    let head ← namedType
    separated .comma head namedType
  else return []

/-- `zenClass Name extends A, B { members }` -/
def classDecl (g : Grammar) : Read Node := do
  let first ← Read.expect .kwZenClass
  let name ← className
  let supers ← superTypes
  let _ ← Read.expect .lbrace
  let members ← untilBrace (classMember g)
  let _ ← Read.expect .rbrace
  return .of .classDecl (← Read.spanSince first)
    ([(.name, name)] ++ several .super supers ++ several .member members)

/-- The value of a `return`, if it has one. -/
def returnValue (g : Grammar) : Read (Option Node) := do
  if (← Read.check .semicolon) || (← Read.check .rbrace) then return none
  else return some (← expression g)

/-- `return value;` -/
def returnStmt (g : Grammar) : Read Node := do
  let first ← Read.expect .kwReturn
  let value ← returnValue g
  let _ ← Read.expect .semicolon
  return .of .returnStmt (← Read.spanSince first) (optional .value value)

/-- A branch of an `if`. A lone semicolon makes an empty block. -/
def branch (g : Grammar) : Read Node := do
  let first ← Read.current
  match ← g.statement with
  | some s => return s
  | none => return .leaf .block (← Read.spanSince first)

/-- `if condition … else …` -/
def ifStmt (g : Grammar) : Read Node := do
  let first ← Read.expect .kwIf
  let condition ← expression g
  let yes ← branch g
  let no ← behind .kwElse (branch g)
  return .of .ifStmt (← Read.spanSince first)
    ([(.condition, condition), (.thenBranch, yes)] ++ optional .elseBranch no)

/-- `for a, b in iterated { … }` -/
def foreachStmt (g : Grammar) : Read Node := do
  let first ← Read.expect .kwFor
  let head ← identifier
  let vars ← separated .comma head identifier
  let _ ← Read.expect .kwIn
  let iterated ← expression g
  let body ← block g
  return .of .foreachStmt (← Read.spanSince first)
    (several .loopVar vars ++ [(.iterated, iterated), (.body, body)])

/-- `while condition { … }` -/
def whileStmt (g : Grammar) : Read Node := do
  let first ← Read.expect .kwWhile
  let condition ← expression g
  let body ← block g
  return .of .whileStmt (← Read.spanSince first) [(.condition, condition), (.body, body)]

/-- An expression that stands as a statement. -/
def exprStmt (g : Grammar) : Read Node := do
  let first ← Read.current
  let e ← expression g
  let _ ← Read.expect .semicolon
  return .of .exprStmt (← Read.spanSince first) [(.operand, e)]

/-- A statement that is one keyword. -/
def keywordStmt (form : Form) : Read Node := do
  let first ← Read.advance
  let _ ← Read.expect .semicolon
  return .leaf form (← Read.spanSince first)

/-- A declaration or a statement; a lone semicolon is none. -/
def statement (g : Grammar) : Read (Option Node) := do
  let first ← Read.current
  match first.kind with
  | .kwVar | .kwVal | .kwGlobal => return some (← varDecl g)
  | .kwStatic =>
    if (← Read.peek).kind = .kwFunction then return some (← funcDecl g)
    else return some (← varDecl g)
  | .kwFunction =>
    if (← Read.peek).kind = .ident then return some (← funcDecl g)
    else return some (← exprStmt g)
  | .dollar => return some (← expandFuncDecl g)
  | .kwZenClass => return some (← classDecl g)
  | .lbrace => return some (← block g)
  | .kwReturn => return some (← returnStmt g)
  | .kwIf => return some (← ifStmt g)
  | .kwFor => return some (← foreachStmt g)
  | .kwWhile => return some (← whileStmt g)
  | .kwBreak => return some (← keywordStmt .breakStmt)
  | .kwContinue => return some (← keywordStmt .continueStmt)
  | .semicolon =>
    let _ ← Read.advance
    return none
  | .kwImport =>
    Read.fail first (txt "imports must appear at the top level")
    let _ ← importDecl
    return some (← badStatement first)
  | .kwZenConstructor | .kwOperator =>
    Read.fail first (first.describe ++ txt " is only allowed inside a zenClass")
    let _ ← Read.advance
    Read.synchronize
    return some (← badStatement first)
  | _ => return some (← exprStmt g)

end Zensight.Rule
