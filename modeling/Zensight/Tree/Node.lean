import Zensight.Token

/-!
# The tree of a script

Reading a script never fails, so a tree has to stand for broken scripts too:
every part of a construct may be missing, and placeholders stand where nothing
fits. A `Node` therefore has one shape: its `Form`, which holds what it says by
itself, its `Span`, and its labelled `Parts` in source order. Whether a
function has a body is whether it has a part with the role `body`.
-/

namespace Zensight

/-- A stretch of a script, its end excluded. -/
structure Span where
  start : Place
  stop : Place
  deriving DecidableEq, Repr, Inhabited

namespace Span

/-- Does the place lie in the span? Places in questions may be any integers. -/
def contains (s : Span) (line column : Int) : Bool :=
  !(line < s.start.line || (line == s.start.line && column < s.start.column))
    && !(line > s.stop.line || (line == s.stop.line && column ≥ s.stop.column))

end Span

/-- What a node is, with all it says apart from its parts. -/
inductive Form where
  | file
  | importDecl (path : List Text)
  | varDecl (keyword : Token.Kind)
  | param
  | funcDecl (isStatic : Bool)
  | expandFuncDecl
  | classDecl
  | constructorDecl
  | operatorDecl (literal : Text)
  | block | exprStmt | returnStmt | ifStmt | foreachStmt | whileStmt
  | breakStmt | continueStmt | badStmt
  | ident (name : Text)
  | basicLit (kind : Token.Kind) (value : Text)
  | thisExpr | parenExpr | arrayLit | mapLit | mapEntry
  | bracketHandler (raw : Text)
  | funcLit | memberExpr | indexExpr | callExpr
  | unaryExpr (op : Token.Kind)
  | binaryExpr (op : Token.Kind)
  | rangeExpr | instanceOfExpr | castExpr | ternaryExpr
  | assignExpr (op : Token.Kind)
  | badExpr
  | primitiveType (kind : Token.Kind)
  | namedType (parts : List Text)
  | arrayType | listType | mapType | funcType | intersectionType | badType
  deriving DecidableEq, Repr, Inhabited

namespace Form

/-- The name of a form, without what it says. -/
def title : Form → String
  | file => "File"
  | importDecl _ => "ImportDecl"
  | varDecl _ => "VarDecl"
  | param => "Param"
  | funcDecl _ => "FuncDecl"
  | expandFuncDecl => "ExpandFuncDecl"
  | classDecl => "ClassDecl"
  | constructorDecl => "ConstructorDecl"
  | operatorDecl _ => "OperatorDecl"
  | block => "Block"
  | exprStmt => "ExprStmt"
  | returnStmt => "ReturnStmt"
  | ifStmt => "IfStmt"
  | foreachStmt => "ForeachStmt"
  | whileStmt => "WhileStmt"
  | breakStmt => "BreakStmt"
  | continueStmt => "ContinueStmt"
  | badStmt => "BadStmt"
  | ident _ => "Ident"
  | basicLit _ _ => "BasicLit"
  | thisExpr => "ThisExpr"
  | parenExpr => "ParenExpr"
  | arrayLit => "ArrayLit"
  | mapLit => "MapLit"
  | mapEntry => "MapEntry"
  | bracketHandler _ => "BracketHandler"
  | funcLit => "FuncLit"
  | memberExpr => "MemberExpr"
  | indexExpr => "IndexExpr"
  | callExpr => "CallExpr"
  | unaryExpr _ => "UnaryExpr"
  | binaryExpr _ => "BinaryExpr"
  | rangeExpr => "RangeExpr"
  | instanceOfExpr => "InstanceOfExpr"
  | castExpr => "CastExpr"
  | ternaryExpr => "TernaryExpr"
  | assignExpr _ => "AssignExpr"
  | badExpr => "BadExpr"
  | primitiveType _ => "PrimitiveType"
  | namedType _ => "NamedType"
  | arrayType => "ArrayTypeExpr"
  | listType => "ListTypeExpr"
  | mapType => "MapTypeExpr"
  | funcType => "FuncTypeExpr"
  | intersectionType => "IntersectionTypeExpr"
  | badType => "BadType"

/-- Does the form stand for a type written in a script? -/
def isType : Form → Bool
  | primitiveType _ | namedType _ | arrayType | listType | mapType | funcType
  | intersectionType | badType => true
  | _ => false

end Form

/-- What a part is to the node it belongs to. -/
inductive Role where
  | importing | statement | localName | name | type | value | fallback
  | param | result | body | target | super | member
  | condition | thenBranch | elseBranch | loopVar | iterated
  | operand | element | entry | key | index | callee | argument
  | left | right | lower | upper | constituent
  deriving DecidableEq, Repr, Inhabited

mutual

/-- A node of a script's tree. -/
inductive Node where
  | mk (form : Form) (span : Span) (parts : Parts)

/-- The labelled parts of a node, in the order they are listed. -/
inductive Parts where
  | nil
  | cons (role : Role) (node : Node) (rest : Parts)

end

instance : Inhabited Node := ⟨.mk .badStmt default .nil⟩

instance : Inhabited Parts := ⟨.nil⟩

namespace Parts

def toList : Parts → List (Role × Node)
  | nil => []
  | cons role node rest => (role, node) :: rest.toList

def ofList : List (Role × Node) → Parts
  | [] => nil
  | (role, node) :: rest => cons role node (ofList rest)

/-- Number of parts. -/
def length : Parts → Nat
  | nil => 0
  | cons _ _ rest => rest.length + 1

/-- The nodes that play a role, in order. -/
def all (role : Role) : Parts → List Node
  | nil => []
  | cons r node rest => if r = role then node :: rest.all role else rest.all role

/-- The first node that plays a role. -/
def get? (parts : Parts) (role : Role) : Option Node := (parts.all role).head?

end Parts

namespace Node

def form : Node → Form
  | mk form _ _ => form

def span : Node → Span
  | mk _ span _ => span

def parts : Node → Parts
  | mk _ _ parts => parts

/-- A node from a list of its parts. -/
def of (form : Form) (span : Span) (parts : List (Role × Node)) : Node :=
  mk form span (.ofList parts)

/-- A node without parts. -/
def leaf (form : Form) (span : Span) : Node := mk form span .nil

/-- The name an identifier spells; empty for every other node. -/
def identName (n : Node) : Text :=
  match n.form with
  | .ident name => name
  | _ => []

end Node

mutual

/-- Number of nodes of a tree. -/
def Node.size : Node → Nat
  | .mk _ _ parts => parts.size + 1

/-- Number of nodes of all the trees together. -/
def Parts.size : Parts → Nat
  | .nil => 0
  | .cons _ node rest => node.size + rest.size

end

end Zensight
