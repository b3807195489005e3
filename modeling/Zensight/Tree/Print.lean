import Zensight.Tree.Node

/-!
# Trees as text

`Node.typeText` writes a type the way a script spells it. `Node.print` draws a
tree with one line per node, two blanks deeper at each level. Where a line
already says what a part is, the part has no line of its own.
-/

namespace Zensight

mutual

/-- The spelling of a type, and then the text `s`. A placeholder is spelled
`<error>`. -/
def Node.typeTextThen : Node → Text → Text
  | .mk form _ parts, s =>
    match form with
    | .primitiveType kind => kind.name ++ s
    | .namedType path => Text.join (txt ".") path ++ s
    | .arrayType => parts.typeTextThen .element (txt "[]" ++ s)
    | .listType => txt "[" ++ parts.typeTextThen .element (txt "]" ++ s)
    | .mapType =>
      parts.typeTextThen .value (txt "[" ++ parts.typeTextThen .key (txt "]" ++ s))
    | .funcType =>
      txt "function(" ++
        parts.typeTextsThen (txt ",") .param (txt ")" ++ parts.typeTextThen .result s)
    | .intersectionType => parts.typeTextsThen (txt " & ") .constituent s
    | _ => txt "<error>" ++ s

/-- The spelling of the first part that plays a role, and then the text `s`. -/
def Parts.typeTextThen (role : Role) : Parts → Text → Text
  | .nil, s => s
  | .cons r node rest, s =>
    if r = role then node.typeTextThen s else rest.typeTextThen role s

/-- The spellings of the parts that play a role with `sep` between neighbours,
and then the text `s`. -/
def Parts.typeTextsThen (sep : Text) (role : Role) : Parts → Text → Text
  | .nil, s => s
  | .cons r node rest, s =>
    if r ≠ role then rest.typeTextsThen sep role s
    else if (rest.all role).isEmpty then node.typeTextThen s
    else node.typeTextThen (sep ++ rest.typeTextsThen sep role s)

end

/-- The spelling of a type. -/
def Node.typeText (n : Node) : Text := n.typeTextThen []

mutual

/-- What comes behind a type does not change its spelling. -/
theorem Node.typeTextThen_append :
    (n : Node) → (a b : Text) → n.typeTextThen (a ++ b) = n.typeTextThen a ++ b
  | .mk form _ parts, a, b => by
    cases form
    case arrayType =>
      simp only [Node.typeTextThen]
      rw [← List.append_assoc, parts.typeTextThen_append]
    case listType =>
      simp only [Node.typeTextThen]
      rw [← List.append_assoc (txt "]"), parts.typeTextThen_append, List.append_assoc]
    case mapType =>
      simp only [Node.typeTextThen]
      rw [← List.append_assoc (txt "]"), parts.typeTextThen_append .key,
        ← List.append_assoc (txt "["), parts.typeTextThen_append .value]
    case funcType =>
      simp only [Node.typeTextThen]
      rw [parts.typeTextThen_append .result, ← List.append_assoc (txt ")"),
        parts.typeTextsThen_append, List.append_assoc]
    case intersectionType =>
      simp only [Node.typeTextThen]
      rw [parts.typeTextsThen_append]
    all_goals simp [Node.typeTextThen]

theorem Parts.typeTextThen_append (role : Role) :
    (parts : Parts) → (a b : Text) →
      parts.typeTextThen role (a ++ b) = parts.typeTextThen role a ++ b
  | .nil, _, _ => by simp [Parts.typeTextThen]
  | .cons r node rest, a, b => by
    simp only [Parts.typeTextThen]
    split
    · rw [node.typeTextThen_append]
    · rw [rest.typeTextThen_append]

theorem Parts.typeTextsThen_append (sep : Text) (role : Role) :
    (parts : Parts) → (a b : Text) →
      parts.typeTextsThen sep role (a ++ b) = parts.typeTextsThen sep role a ++ b
  | .nil, _, _ => by simp [Parts.typeTextsThen]
  | .cons r node rest, a, b => by
    simp only [Parts.typeTextsThen]
    split
    · rw [rest.typeTextsThen_append]
    · split
      · rw [node.typeTextThen_append]
      · rw [rest.typeTextsThen_append, ← List.append_assoc, node.typeTextThen_append]

end

theorem Node.typeTextThen_eq (n : Node) (s : Text) : n.typeTextThen s = n.typeText ++ s := by
  have h := n.typeTextThen_append [] s
  rwa [List.nil_append] at h

/-- The spellings of several parts are those of each part, joined. -/
theorem Parts.typeTextsThen_eq (sep : Text) (role : Role) :
    (parts : Parts) → (s : Text) →
      parts.typeTextsThen sep role s
        = Text.join sep ((parts.all role).map Node.typeText) ++ s
  | .nil, _ => by simp [Parts.typeTextsThen, Parts.all, Text.join]
  | .cons r node rest, s => by
    simp only [Parts.typeTextsThen, Parts.all]
    by_cases h : r = role
    · have ih := rest.typeTextsThen_eq sep role s
      cases hall : rest.all role with
      | nil => simp [h, Text.join, Node.typeTextThen_eq]
      | cons m ms =>
        rw [hall] at ih
        simp [h, Text.join, Node.typeTextThen_eq, ih]
    · simp [h, rest.typeTextsThen_eq sep role s]

namespace Parts

/-- The name a construct declares, as its name part spells it. -/
def nameText (parts : Parts) : Text :=
  match parts.get? .name with
  | some n => n.identName
  | none => txt "<missing>"

/-- A type written after `as`, or nothing. -/
def asText (parts : Parts) (role : Role) : Text :=
  match parts.get? role with
  | some t => txt " as " ++ t.typeText
  | none => []

end Parts

namespace Node

/-- Where a node starts, as the end of a line shows it. -/
def atText (p : Place) : Text :=
  txt " @" ++ Text.ofNat p.line ++ txt ":" ++ Text.ofNat p.column

/-- What a node's line says. -/
def headline (form : Form) (start : Place) (parts : Parts) : Text :=
  match form with
  | .file => txt "File"
  | .importDecl path =>
    txt "Import: " ++ Text.join (txt ".") path
      ++ (match parts.get? .localName with
        | some a => txt " as " ++ a.identName
        | none => [])
  | .varDecl keyword =>
    txt "VarDecl: " ++ keyword.name ++ txt " " ++ parts.nameText ++ parts.asText .type
      ++ atText start
  | .param => txt "Param: " ++ parts.nameText ++ parts.asText .type
  | .funcDecl isStatic =>
    txt "Function: " ++ parts.nameText ++ (if isStatic then txt " (static)" else [])
      ++ parts.asText .result ++ atText start
  | .expandFuncDecl =>
    txt "Expand: " ++ parts.typeTextThen .target [] ++ txt "$" ++ parts.nameText
      ++ parts.asText .result ++ atText start
  | .classDecl =>
    let supers := (parts.all .super).map typeText
    txt "Class: " ++ parts.nameText
      ++ (if supers.isEmpty then [] else txt " extends " ++ Text.join (txt ", ") supers)
      ++ atText start
  | .constructorDecl => txt "Constructor" ++ atText start
  | .operatorDecl literal =>
    txt "Operator: " ++ literal ++ parts.asText .result ++ atText start
  | .block => txt "Block"
  | .exprStmt => txt "ExprStmt"
  | .returnStmt => txt "Return"
  | .ifStmt => txt "If"
  | .foreachStmt =>
    txt "Foreach: " ++ Text.join (txt ", ") ((parts.all .loopVar).map identName)
  | .whileStmt => txt "While"
  | .breakStmt => txt "Break"
  | .continueStmt => txt "Continue"
  | .badStmt => txt "BadStmt" ++ atText start
  | .ident name => txt "Ident: " ++ name
  | .basicLit kind value => txt "Literal(" ++ kind.name ++ txt "): " ++ value
  | .thisExpr => txt "This"
  | .parenExpr => txt "Paren"
  | .arrayLit => txt "Array[" ++ Text.ofNat parts.length ++ txt "]"
  | .mapLit => txt "Map\x7b" ++ Text.ofNat parts.length ++ txt "\x7d"
  | .mapEntry => txt "Entry"
  | .bracketHandler raw => txt "Bracket: <" ++ raw ++ txt ">"
  | .funcLit => txt "Lambda" ++ parts.asText .result
  | .memberExpr => txt "Member: ." ++ parts.nameText
  | .indexExpr => txt "Index"
  | .callExpr => txt "Call(" ++ Text.ofNat (parts.all .argument).length ++ txt ")"
  | .unaryExpr op => txt "Unary: " ++ op.name
  | .binaryExpr op => txt "Binary: " ++ op.name
  | .rangeExpr => txt "Range"
  | .instanceOfExpr => txt "InstanceOf: " ++ parts.typeTextThen .type []
  | .castExpr => txt "Cast: " ++ parts.typeTextThen .type []
  | .ternaryExpr => txt "Ternary"
  | .assignExpr op => txt "Assign: " ++ op.name
  | .badExpr => txt "BadExpr" ++ atText start
  | .primitiveType _ | .namedType _ | .arrayType | .listType | .mapType | .funcType
  | .intersectionType | .badType => txt "Type: " ++ (mk form ⟨start, start⟩ parts).typeText

/-- Does the form list its parameters under a heading of their own? -/
def listsParams : Form → Bool
  | .funcDecl _ | .expandFuncDecl | .constructorDecl | .operatorDecl _ | .funcLit => true
  | _ => false

/-- Does a part with this role get lines of its own below a node of this form? -/
def drawsPart : Form → Role → Bool
  | .importDecl _, _ => false
  | .varDecl _, role => role == .value
  | .param, role => role == .fallback
  | .funcDecl _, role | .expandFuncDecl, role | .constructorDecl, role
  | .operatorDecl _, role | .funcLit, role => role == .body
  | .classDecl, role => role == .member
  | .foreachStmt, role => role == .iterated || role == .body
  | .memberExpr, role | .instanceOfExpr, role | .castExpr, role => role == .operand
  | form, _ => !form.isType

end Node

/-- A line of a drawing: how deep it stands, and what it says. -/
structure Line where
  depth : Nat
  text : Text
  deriving DecidableEq, Repr, Inhabited

/-- The line with two blanks for each level before it. -/
def Line.render (l : Line) : Text :=
  (List.replicate l.depth (txt "  ")).flatten ++ l.text ++ txt "\n"

mutual

/-- The lines of a tree that stands `depth` levels deep. -/
def Node.linesAt (depth : Nat) : Node → List Line
  | .mk form span parts =>
    ⟨depth, Node.headline form span.start parts⟩ ::
      ((if Node.listsParams form then
          ⟨depth + 1, if (parts.all .param).isEmpty then txt "Params: none" else txt "Params:"⟩ ::
            parts.linesAt (depth + 2) (· == .param)
        else [])
      ++ parts.linesAt (depth + 1) (Node.drawsPart form))

/-- The lines of the parts whose role is wanted. -/
def Parts.linesAt (depth : Nat) (wanted : Role → Bool) : Parts → List Line
  | .nil => []
  | .cons role node rest =>
    (if wanted role then node.linesAt depth else []) ++ rest.linesAt depth wanted

end

/-- The drawing of a tree. -/
def Node.print (n : Node) : Text := (n.linesAt 0).flatMap Line.render

end Zensight
