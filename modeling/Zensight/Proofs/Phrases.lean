import Zensight.Grammar
import Zensight.Tree.Outline
import Zensight.Proofs.Scanning

/-!
# The phrases of the language

`Reads` is the grammar as a relation: which tokens make which kind of phrase,
and the nodes they stand for. It knows nothing of readers, of what comes next or
of faults. The rules of reading are related to it in `Proofs/Parsing.lean`; what
holds of every tree of a script without faults is proved here by induction over
its phrases.

A phrase stands for a list of nodes: one for most, none or one for an optional
part, several for a list. Lists grow at their end, as the rules build them.

The operands of a binary operator are where the relation is more than a grammar
of tokens: a left operand must bind at least as tightly as its operator, unless
it is an `instanceof`, which may stand to the left of every operator.
-/

namespace Zensight

/-- How tightly an expression binds: assignments least, then choices, the binary
operators by their level, unary operators, casts, accesses, and all else. -/
def Form.tightness : Form → Nat
  | assignExpr _ => 0
  | ternaryExpr => 1
  | binaryExpr op => op.level + 1
  | instanceOfExpr => 7
  | rangeExpr => 8
  | unaryExpr _ => 11
  | castExpr => 12
  | memberExpr | indexExpr | callExpr => 13
  | _ => 14

/-- May the node be the left operand of an operator of this level? -/
def Node.Admits (n : Node) (level : Nat) : Prop :=
  n.form = .instanceOfExpr ∨ level < n.form.tightness

/-- The span that a run of tokens covers. -/
def Span.ofTokens : List Token → Span
  | [] => default
  | t :: rest => .reaching t.place t.stop (rest.getLast?.getD t).stop

theorem Span.start_reaching (start stop last : Place) :
    (Span.reaching start stop last).start = start := by
  rw [Span.reaching]
  split <;> rfl

/-- The node of a name that is one token. -/
def Token.nameNode (t : Token) : Node := .leaf (.ident t.literal) (.ofTokens [t])

theorem Token.stop_nameNode (t : Token) : t.nameNode.span.stop = t.stop := by
  simp only [nameNode, Node.leaf, Node.span, Span.ofTokens, Span.reaching]
  split <;> rfl

/-- May the token be a name behind this dot? -/
def Token.IsNameAfter (t dot : Token) : Prop :=
  t.kind = .ident ∨ (t.kind.isKeyword ∧ ¬ t.kind.resumes ∧ t.place.line = dot.place.line)

/-- Is it the kind of a literal? -/
def Token.Kind.isLiteral : Token.Kind → Bool
  | .intLit | .longLit | .floatLit | .doubleLit | .stringLit | .kwTrue | .kwFalse
  | .kwNull => true
  | _ => false

/-- Is it the kind of a unary operator? -/
def Token.Kind.isUnary : Token.Kind → Bool
  | .bang | .minus | .plus => true
  | _ => false

/-- Is it a keyword that declares a variable? -/
def Token.Kind.declaresVar : Token.Kind → Bool
  | .kwVar | .kwVal | .kwGlobal | .kwStatic => true
  | _ => false

/-- Does the token end a bracket handler, in one way or another? -/
def Token.Kind.endsHandler : Token.Kind → Bool
  | .greater | .eof | .semicolon => true
  | _ => false

theorem Token.Kind.endsHandler_eq_false {k : Token.Kind} (hgreater : k ≠ .greater)
    (heof : k ≠ .eof) (hsemi : k ≠ .semicolon) : k.endsHandler = false := by
  revert k
  decide

/-- Is it a declaration that may stand in a class as well as outside? -/
def Form.isMember : Form → Bool
  | varDecl _ | funcDecl _ => true
  | _ => false

/-- Identifiers with dots between them, and the segments they make. -/
inductive Dotted : List Token → List Text → Prop where
  | one {t : Token} : t.kind = .ident → Dotted [t] [t.literal]
  | more {ts : List Token} {path : List Text} {dot t : Token} :
      Dotted ts path → dot.kind = .dot → t.kind = .ident →
      Dotted (ts ++ [dot, t]) (path ++ [t.literal])

/-- The path of an import: keywords may stand behind its dots. -/
inductive ImportPath : List Token → List Text → Prop where
  | one {t : Token} : t.kind = .ident → ImportPath [t] [t.literal]
  | more {ts : List Token} {path : List Text} {dot t : Token} :
      ImportPath ts path → dot.kind = .dot → t.IsNameAfter dot →
      ImportPath (ts ++ [dot, t]) (path ++ [t.literal])

/-- The tokens that make the sign of an operator function. -/
inductive OperatorSign : List Token → Text → Prop where
  | index {lb rb : Token} : lb.kind = .lbracket → rb.kind = .rbracket →
      OperatorSign [lb, rb] (txt "[]")
  | indexSet {lb rb eq : Token} : lb.kind = .lbracket → rb.kind = .rbracket →
      eq.kind = .assign → OperatorSign [lb, rb, eq] (txt "[]=")
  | member {dot : Token} : dot.kind = .dot → OperatorSign [dot] (txt ".")
  | memberSet {dot eq : Token} : dot.kind = .dot → eq.kind = .assign →
      OperatorSign [dot, eq] (txt ".=")
  | plain {t : Token} : Rule.isOperatorSign t.kind = true → OperatorSign [t] t.literal

/-- The kinds of phrases. -/
inductive Phrase where
  /-- An identifier. -/
  | name
  | namedType | typeAtom | type
  | primary | suffixed | cast | unary
  /-- Operators of at least this level. -/
  | binary (least : Nat)
  | ternary | expression
  /-- An expression, or nothing. -/
  | value
  | entry | param
  /-- Parameters in their parentheses. -/
  | params
  | block | statement | branch
  /-- A block, or a semicolon in its place. -/
  | body
  | member | importing
  /-- The classes behind `extends`, or nothing. -/
  | supers
  /-- An item behind a token of this kind, or nothing. -/
  | behind (kind : Token.Kind) (item : Phrase)
  /-- One or more with a separator between neighbours. -/
  | separated (separator : Token.Kind) (item : Phrase)
  /-- None or more with commas between neighbours, and maybe one behind the last. -/
  | commas (item : Phrase)
  /-- Any number of statements or members one after another. -/
  | many (item : Phrase)
  deriving DecidableEq

open Rule (several)

/-- The tokens of a phrase and the nodes it stands for. -/
inductive Reads : Phrase → List Token → List Node → Prop where
  | name {t : Token} : t.kind = .ident → Reads .name [t] [t.nameNode]
  -- Optional parts and lists.
  | behindNone {kind : Token.Kind} {item : Phrase} : Reads (.behind kind item) [] []
  | behindSome {kind : Token.Kind} {item : Phrase} {ts : List Token} {n : Node} {t : Token} :
      t.kind = kind → kind.isFixed = true → Reads item ts [n] →
      Reads (.behind kind item) (t :: ts) [n]
  | separatedOne {sep : Token.Kind} {item : Phrase} {ts : List Token} {n : Node} :
      Reads item ts [n] → Reads (.separated sep item) ts [n]
  | separatedMore {sep : Token.Kind} {item : Phrase} {ts us : List Token} {ns : List Node}
      {n : Node} {s : Token} :
      Reads (.separated sep item) ts ns → s.kind = sep → sep.isFixed = true → Reads item us [n] →
      Reads (.separated sep item) (ts ++ s :: us) (ns ++ [n])
  | commasNone {item : Phrase} : Reads (.commas item) [] []
  | commasSome {item : Phrase} {ts : List Token} {ns : List Node} :
      Reads (.separated .comma item) ts ns → Reads (.commas item) ts ns
  | commasTrailing {item : Phrase} {ts : List Token} {ns : List Node} {comma : Token} :
      Reads (.separated .comma item) ts ns → comma.kind = .comma →
      Reads (.commas item) (ts ++ [comma]) ns
  | manyNone {item : Phrase} : Reads (.many item) [] []
  | manyMore {item : Phrase} {ts us : List Token} {ns ms : List Node} :
      item = .statement ∨ item = .member → Reads (.many item) ts ns → Reads item us ms →
      Reads (.many item) (ts ++ us) (ns ++ ms)
  -- Types.
  | namedType {ts : List Token} {path : List Text} :
      Dotted ts path → Reads .namedType ts [.leaf (.namedType path) (.ofTokens ts)]
  | primitiveType {t : Token} : t.kind.isPrimitive = true →
      Reads .typeAtom [t] [.leaf (.primitiveType t.kind) (.ofTokens [t])]
  | typeName {ts : List Token} {n : Node} : Reads .namedType ts [n] → Reads .typeAtom ts [n]
  | listType {ts : List Token} {e : Node} {lb rb : Token} :
      lb.kind = .lbracket → Reads .type ts [e] → rb.kind = .rbracket →
      Reads .typeAtom (lb :: ts ++ [rb])
        [.of .listType (.ofTokens (lb :: ts ++ [rb])) [(.element, e)]]
  | funcType {ts us : List Token} {ps : List Node} {res : Node} {fn lp rp : Token} :
      fn.kind = .kwFunction → lp.kind = .lparen → Reads (.commas .type) ts ps →
      rp.kind = .rparen → Reads .typeAtom us [res] →
      Reads .typeAtom (fn :: lp :: ts ++ rp :: us)
        [.of .funcType (.ofTokens (fn :: lp :: ts ++ rp :: us))
          (several .param ps ++ [(.result, res)])]
  | arrayType {ts : List Token} {e : Node} {lb rb : Token} :
      Reads .typeAtom ts [e] → lb.kind = .lbracket → rb.kind = .rbracket →
      Reads .typeAtom (ts ++ [lb, rb])
        [.of .arrayType (.ofTokens (ts ++ [lb, rb])) [(.element, e)]]
  | mapType {ts us : List Token} {v k : Node} {lb rb : Token} :
      Reads .typeAtom ts [v] → lb.kind = .lbracket → Reads .type us [k] →
      rb.kind = .rbracket →
      Reads .typeAtom (ts ++ lb :: us ++ [rb])
        [.of .mapType (.ofTokens (ts ++ lb :: us ++ [rb])) [(.value, v), (.key, k)]]
  | typeOne {ts : List Token} {n : Node} : Reads .typeAtom ts [n] → Reads .type ts [n]
  | intersection {ts : List Token} {first second : Node} {rest : List Node} :
      Reads (.separated .amp .typeAtom) ts (first :: second :: rest) →
      Reads .type ts
        [.of .intersectionType
          (.between first ((first :: second :: rest).getLast?.getD first))
          (several .constituent (first :: second :: rest))]
  -- Expressions that no operator takes apart.
  | literal {t : Token} : t.kind.isLiteral = true →
      Reads .primary [t] [.leaf (.basicLit t.kind t.literal) (.ofTokens [t])]
  | ident {t : Token} : t.kind = .ident → Reads .primary [t] [t.nameNode]
  | this {t : Token} : t.kind = .kwThis → Reads .primary [t] [.leaf .thisExpr (.ofTokens [t])]
  | paren {ts : List Token} {e : Node} {lp rp : Token} :
      lp.kind = .lparen → Reads .expression ts [e] → rp.kind = .rparen →
      Reads .primary (lp :: ts ++ [rp])
        [.of .parenExpr (.ofTokens (lp :: ts ++ [rp])) [(.operand, e)]]
  | arrayLit {ts : List Token} {es : List Node} {lb rb : Token} :
      lb.kind = .lbracket → Reads (.commas .expression) ts es → rb.kind = .rbracket →
      Reads .primary (lb :: ts ++ [rb])
        [.of .arrayLit (.ofTokens (lb :: ts ++ [rb])) (several .element es)]
  | entry {ts us : List Token} {k v : Node} {colon : Token} :
      Reads .ternary ts [k] → colon.kind = .colon → Reads .ternary us [v] →
      Reads .entry (ts ++ colon :: us)
        [.of .mapEntry (.between k v) [(.key, k), (.value, v)]]
  | mapLit {ts : List Token} {es : List Node} {lb rb : Token} :
      lb.kind = .lbrace → Reads (.commas .entry) ts es → rb.kind = .rbrace →
      Reads .primary (lb :: ts ++ [rb])
        [.of .mapLit (.ofTokens (lb :: ts ++ [rb])) (several .entry es)]
  | funcLit {ps as bs : List Token} {params result : List Node} {body : Node} {fn : Token} :
      fn.kind = .kwFunction → Reads .params ps params → Reads (.behind .kwAs .type) as result →
      Reads .block bs [body] →
      Reads .primary (fn :: ps ++ as ++ bs)
        [.of .funcLit (.ofTokens (fn :: ps ++ as ++ bs))
          (several .param params ++ several .result result ++ [(.body, body)])]
  | handler {ts : List Token} {less greater : Token} :
      less.kind = .less → (∀ t ∈ ts, t.kind.endsHandler = false) →
      greater.kind = .greater →
      Reads .primary (less :: ts ++ [greater])
        [.leaf (.bracketHandler (ts.flatMap (·.literal)))
          (.ofTokens (less :: ts ++ [greater]))]
  -- Expressions that operators build.
  | suffixedNone {ts : List Token} {e : Node} :
      Reads .primary ts [e] → Reads .suffixed ts [e]
  | access {ts : List Token} {e : Node} {dot t : Token} :
      Reads .suffixed ts [e] → dot.kind = .dot → t.IsNameAfter dot →
      Reads .suffixed (ts ++ [dot, t])
        [.of .memberExpr ⟨e.span.start, t.nameNode.span.stop⟩
          [(.operand, e), (.name, t.nameNode)]]
  | index {ts us : List Token} {e i : Node} {lb rb : Token} :
      Reads .suffixed ts [e] → lb.kind = .lbracket → Reads .expression us [i] →
      rb.kind = .rbracket →
      Reads .suffixed (ts ++ lb :: us ++ [rb])
        [.of .indexExpr (.reaching e.span.start e.span.start rb.stop)
          [(.operand, e), (.index, i)]]
  | call {ts : List Token} {e : Node} {lp rp : Token} :
      Reads .suffixed ts [e] → lp.kind = .lparen → rp.kind = .rparen →
      Reads .suffixed (ts ++ [lp, rp])
        [.of .callExpr (.reaching e.span.start e.span.start rp.stop) [(.callee, e)]]
  | callWith {ts us : List Token} {e : Node} {args : List Node} {lp rp : Token} :
      Reads .suffixed ts [e] → lp.kind = .lparen →
      Reads (.separated .comma .expression) us args → rp.kind = .rparen →
      Reads .suffixed (ts ++ lp :: us ++ [rp])
        [.of .callExpr (.reaching e.span.start e.span.start rp.stop)
          ([(.callee, e)] ++ several .argument args)]
  | castNone {ts : List Token} {e : Node} : Reads .suffixed ts [e] → Reads .cast ts [e]
  | cast {ts us : List Token} {e t : Node} {as : Token} :
      Reads .cast ts [e] → as.kind = .kwAs → Reads .typeAtom us [t] →
      Reads .cast (ts ++ as :: us)
        [.of .castExpr (.between e t) [(.operand, e), (.type, t)]]
  | unaryNone {ts : List Token} {e : Node} : Reads .cast ts [e] → Reads .unary ts [e]
  | unary {ts : List Token} {e : Node} {op : Token} :
      op.kind.isUnary = true → Reads .unary ts [e] →
      Reads .unary (op :: ts)
        [.of (.unaryExpr op.kind) (.ofTokens (op :: ts)) [(.operand, e)]]
  | binaryNone {least : Nat} {ts : List Token} {e : Node} :
      Reads .unary ts [e] → Reads (.binary least) ts [e]
  | binary {least : Nat} {ts us : List Token} {l r : Node} {op : Token} :
      Reads (.binary least) ts [l] → l.Admits op.kind.level →
      0 < op.kind.level → least ≤ op.kind.level →
      op.kind ≠ .kwInstanceof → op.kind ≠ .dotDot → op.kind ≠ .kwTo →
      Reads (.binary (op.kind.level + 1)) us [r] →
      Reads (.binary least) (ts ++ op :: us)
        [.of (.binaryExpr op.kind) (.between l r) [(.left, l), (.right, r)]]
  | range {least : Nat} {ts us : List Token} {l r : Node} {op : Token} :
      Reads (.binary least) ts [l] → l.Admits op.kind.level →
      op.kind = .dotDot ∨ op.kind = .kwTo → least ≤ 7 →
      Reads (.binary 8) us [r] →
      Reads (.binary least) (ts ++ op :: us)
        [.of .rangeExpr (.between l r) [(.lower, l), (.upper, r)]]
  | instanceOf {least : Nat} {ts us : List Token} {e t : Node} {op : Token} :
      Reads (.binary least) ts [e] → e.Admits op.kind.level → op.kind = .kwInstanceof →
      least ≤ 6 → Reads .typeAtom us [t] →
      Reads (.binary least) (ts ++ op :: us)
        [.of .instanceOfExpr (.between e t) [(.operand, e), (.type, t)]]
  | ternaryNone {ts : List Token} {e : Node} :
      Reads (.binary 1) ts [e] → Reads .ternary ts [e]
  | ternary {cs ys ns : List Token} {c y n : Node} {mark colon : Token} :
      Reads (.binary 1) cs [c] → mark.kind = .question → Reads .ternary ys [y] →
      colon.kind = .colon → Reads .ternary ns [n] →
      Reads .ternary (cs ++ mark :: ys ++ colon :: ns)
        [.of .ternaryExpr (.between c n)
          [(.condition, c), (.thenBranch, y), (.elseBranch, n)]]
  | expressionNone {ts : List Token} {e : Node} :
      Reads .ternary ts [e] → Reads .expression ts [e]
  | assign {ts us : List Token} {l r : Node} {op : Token} :
      Reads .ternary ts [l] → op.kind.isAssignment = true → Reads .expression us [r] →
      Reads .expression (ts ++ op :: us)
        [.of (.assignExpr op.kind) (.between l r) [(.left, l), (.right, r)]]
  | valueNone : Reads .value [] []
  | valueSome {ts : List Token} {e : Node} : Reads .expression ts [e] → Reads .value ts [e]
  -- Parameters.
  | param {as fs : List Token} {type fallback : List Node} {t : Token} :
      t.kind = .ident → Reads (.behind .kwAs .type) as type →
      Reads (.behind .assign .ternary) fs fallback →
      Reads .param (t :: as ++ fs)
        [.of .param (.ofTokens (t :: as ++ fs))
          ([(.name, t.nameNode)] ++ several .type type ++ several .fallback fallback)]
  | params {ts : List Token} {ps : List Node} {lp rp : Token} :
      lp.kind = .lparen → Reads (.commas .param) ts ps → rp.kind = .rparen →
      Reads .params (lp :: ts ++ [rp]) ps
  -- Statements.
  | block {ts : List Token} {ss : List Node} {lb rb : Token} :
      lb.kind = .lbrace → Reads (.many .statement) ts ss → rb.kind = .rbrace →
      Reads .block (lb :: ts ++ [rb])
        [.of .block (.ofTokens (lb :: ts ++ [rb])) (several .statement ss)]
  | stray {semi : Token} : semi.kind = .semicolon → Reads .statement [semi] []
  | varDecl {as vs : List Token} {type value : List Node} {kw t semi : Token} :
      kw.kind.declaresVar = true → t.kind = .ident → Reads (.behind .kwAs .type) as type →
      Reads (.behind .assign .expression) vs value → semi.kind = .semicolon →
      Reads .statement (kw :: t :: as ++ vs ++ [semi])
        [.of (.varDecl kw.kind) (.ofTokens (kw :: t :: as ++ vs ++ [semi]))
          ([(.name, t.nameNode)] ++ several .type type ++ several .value value)]
  | bodyNone {semi : Token} : semi.kind = .semicolon → Reads .body [semi] []
  | bodySome {ts : List Token} {b : Node} : Reads .block ts [b] → Reads .body ts [b]
  | funcDecl {ps as bs : List Token} {params result body : List Node} {fn t : Token} :
      fn.kind = .kwFunction → t.kind = .ident → Reads .params ps params →
      Reads (.behind .kwAs .type) as result → Reads .body bs body →
      Reads .statement (fn :: t :: ps ++ as ++ bs)
        [.of (.funcDecl false) (.ofTokens (fn :: t :: ps ++ as ++ bs))
          ((.name, t.nameNode) ::
            (several .param params ++ several .result result ++ several .body body))]
  | staticFuncDecl {ps as bs : List Token} {params result body : List Node}
      {st fn t : Token} :
      st.kind = .kwStatic → fn.kind = .kwFunction → t.kind = .ident →
      Reads .params ps params → Reads (.behind .kwAs .type) as result → Reads .body bs body →
      Reads .statement (st :: fn :: t :: ps ++ as ++ bs)
        [.of (.funcDecl true) (.ofTokens (st :: fn :: t :: ps ++ as ++ bs))
          ((.name, t.nameNode) ::
            (several .param params ++ several .result result ++ several .body body))]
  | expandFuncDecl {ts ps as bs : List Token} {params result body : List Node}
      {target : Node} {d₁ ex d₂ t : Token} :
      d₁.kind = .dollar → ex.kind = .kwExpand → Reads .type ts [target] →
      d₂.kind = .dollar → t.kind = .ident → Reads .params ps params →
      Reads (.behind .kwAs .type) as result → Reads .body bs body →
      Reads .statement (d₁ :: ex :: ts ++ d₂ :: t :: ps ++ as ++ bs)
        [.of .expandFuncDecl (.ofTokens (d₁ :: ex :: ts ++ d₂ :: t :: ps ++ as ++ bs))
          ([(.target, target), (.name, t.nameNode)] ++
            (several .param params ++ several .result result ++ several .body body))]
  | blockStmt {ts : List Token} {b : Node} : Reads .block ts [b] → Reads .statement ts [b]
  | returnStmt {vs : List Token} {value : List Node} {kw semi : Token} :
      kw.kind = .kwReturn → Reads .value vs value → semi.kind = .semicolon →
      Reads .statement (kw :: vs ++ [semi])
        [.of .returnStmt (.ofTokens (kw :: vs ++ [semi])) (several .value value)]
  | branchSome {ts : List Token} {s : Node} : Reads .statement ts [s] → Reads .branch ts [s]
  | branchNone {ts : List Token} :
      Reads .statement ts [] → Reads .branch ts [.leaf .block (.ofTokens ts)]
  | ifStmt {cs ys ns : List Token} {c y : Node} {no : List Node} {kw : Token} :
      kw.kind = .kwIf → Reads .expression cs [c] → Reads .branch ys [y] →
      Reads (.behind .kwElse .branch) ns no →
      Reads .statement (kw :: cs ++ ys ++ ns)
        [.of .ifStmt (.ofTokens (kw :: cs ++ ys ++ ns))
          ([(.condition, c), (.thenBranch, y)] ++ several .elseBranch no)]
  | foreachStmt {vs is bs : List Token} {vars : List Node} {iterated body : Node}
      {kw kwIn : Token} :
      kw.kind = .kwFor → Reads (.separated .comma .name) vs vars → kwIn.kind = .kwIn →
      Reads .expression is [iterated] → Reads .block bs [body] →
      Reads .statement (kw :: vs ++ kwIn :: is ++ bs)
        [.of .foreachStmt (.ofTokens (kw :: vs ++ kwIn :: is ++ bs))
          (several .loopVar vars ++ [(.iterated, iterated), (.body, body)])]
  | whileStmt {cs bs : List Token} {c body : Node} {kw : Token} :
      kw.kind = .kwWhile → Reads .expression cs [c] → Reads .block bs [body] →
      Reads .statement (kw :: cs ++ bs)
        [.of .whileStmt (.ofTokens (kw :: cs ++ bs)) [(.condition, c), (.body, body)]]
  | breakStmt {kw semi : Token} : kw.kind = .kwBreak → semi.kind = .semicolon →
      Reads .statement [kw, semi] [.leaf .breakStmt (.ofTokens [kw, semi])]
  | continueStmt {kw semi : Token} : kw.kind = .kwContinue → semi.kind = .semicolon →
      Reads .statement [kw, semi] [.leaf .continueStmt (.ofTokens [kw, semi])]
  | exprStmt {ts : List Token} {e : Node} {semi : Token} :
      Reads .expression ts [e] → semi.kind = .semicolon →
      Reads .statement (ts ++ [semi])
        [.of .exprStmt (.ofTokens (ts ++ [semi])) [(.operand, e)]]
  -- Classes.
  | supersNone : Reads .supers [] []
  | supersSome {ts : List Token} {ns : List Node} {kw : Token} :
      kw.kind = .kwExtends → Reads (.separated .comma .namedType) ts ns →
      Reads .supers (kw :: ts) ns
  | classDecl {ss ms : List Token} {supers members : List Node} {kw t lb rb : Token} :
      kw.kind = .kwZenClass → t.kind = .ident ∨ t.kind.isPrimitive = true →
      Reads .supers ss supers → lb.kind = .lbrace → Reads (.many .member) ms members →
      rb.kind = .rbrace →
      Reads .statement (kw :: t :: ss ++ lb :: ms ++ [rb])
        [.of .classDecl (.ofTokens (kw :: t :: ss ++ lb :: ms ++ [rb]))
          ([(.name, t.nameNode)] ++ several .super supers ++ several .member members)]
  | memberStatement {ts : List Token} {ns : List Node} :
      Reads .statement ts ns → (∀ n ∈ ns, n.form.isMember = true) → Reads .member ts ns
  | constructorDecl {ps bs : List Token} {params body : List Node} {kw : Token} :
      kw.kind = .kwZenConstructor → Reads .params ps params → Reads .body bs body →
      Reads .member (kw :: ps ++ bs)
        [.of .constructorDecl (.ofTokens (kw :: ps ++ bs))
          (several .param params ++ several .body body)]
  | operatorDecl {os ps as bs : List Token} {sign : Text}
      {params result body : List Node} {kw : Token} :
      kw.kind = .kwOperator → OperatorSign os sign → Reads .params ps params →
      Reads (.behind .kwAs .type) as result → Reads .body bs body →
      Reads .member (kw :: os ++ ps ++ as ++ bs)
        [.of (.operatorDecl sign) (.ofTokens (kw :: os ++ ps ++ as ++ bs))
          (several .param params ++ several .result result ++ several .body body)]
  -- Imports.
  | importing {ps ls : List Token} {path : List Text} {localName : List Node}
      {kw semi : Token} :
      kw.kind = .kwImport → ImportPath ps path → Reads (.behind .kwAs .name) ls localName →
      semi.kind = .semicolon →
      Reads .importing (kw :: ps ++ ls ++ [semi])
        [.of (.importDecl path) (.ofTokens (kw :: ps ++ ls ++ [semi]))
          (several .localName localName)]

/-- What stands at the top level of a script: its tokens, its imports and its
statements. -/
inductive ReadsTopLevel : List Token → List Node → List Node → Prop where
  | nil : ReadsTopLevel [] [] []
  | importing {ts us : List Token} {imports stmts : List Node} {n : Node} :
      ReadsTopLevel ts imports stmts → Reads .importing us [n] →
      ReadsTopLevel (ts ++ us) (imports ++ [n]) stmts
  | statement {ts us : List Token} {imports stmts ns : List Node} :
      ReadsTopLevel ts imports stmts → Reads .statement us ns →
      ReadsTopLevel (ts ++ us) imports (stmts ++ ns)

/-- What holds of all nodes of phrases that make up a script. -/
theorem ReadsTopLevel.forall_mem {Q : Node → Prop} {ts : List Token} {imports stmts : List Node}
    (h : ReadsTopLevel ts imports stmts)
    (hQ : ∀ {p us ns}, Reads p us ns → us ⊆ ts → ∀ n ∈ ns, Q n) :
    ∀ n ∈ imports ++ stmts, Q n := by
  induction h with
  | nil => simp
  | @importing ts us _ _ _ _ hn ih =>
      have hold := ih fun hp hsub => hQ hp (List.Subset.trans hsub (List.subset_append_left ts us))
      have hnew := hQ hn (List.subset_append_right ts us)
      simp_all [or_imp, forall_and]
  | @statement ts us _ _ _ _ hns ih =>
      have hold := ih fun hp hsub => hQ hp (List.Subset.trans hsub (List.subset_append_left ts us))
      have hnew := hQ hns (List.subset_append_right ts us)
      simp_all [or_imp, forall_and]

/-! ## Phrases that are never empty -/

/-- Does the phrase take at least one token? -/
def Phrase.nonempty : Phrase → Bool
  | value | supers | behind _ _ | commas _ | many _ => false
  | separated _ item => item.nonempty
  | _ => true

theorem Dotted.ne_nil {ts : List Token} {path : List Text} (h : Dotted ts path) : ts ≠ [] := by
  cases h <;> simp

theorem Reads.ne_nil {p : Phrase} {ts : List Token} {ns : List Node} (h : Reads p ts ns) :
    p.nonempty = true → ts ≠ [] := by
  induction h with
  | separatedOne _ ih => exact ih
  | separatedMore => intro _; simp
  | namedType hd => intro _; exact hd.ne_nil
  | typeName _ ih | typeOne _ ih | suffixedNone _ ih | castNone _ ih | unaryNone _ ih
  | binaryNone _ ih | ternaryNone _ ih | expressionNone _ ih | bodySome _ ih
  | blockStmt _ ih | branchSome _ ih | branchNone _ ih | memberStatement _ _ ih =>
      intro _; exact ih rfl
  | intersection _ ih => intro _; exact ih rfl
  | behindNone | behindSome | commasNone | commasSome | commasTrailing | manyNone | manyMore
  | valueNone | valueSome | supersNone | supersSome =>
      intro hp; cases hp
  | _ => intro _; simp

/-! ## How tightly a phrase binds -/

theorem Token.Kind.level_le (kind : Token.Kind) : kind.level ≤ 9 := by
  revert kind
  decide

/-- How tightly the expression of a phrase binds at least. -/
def Phrase.tightness : Phrase → Nat
  | primary => 14
  | suffixed => 13
  | cast => 12
  | unary => 11
  | binary least => min least 10 + 1
  | ternary => 1
  | behind _ item => item.tightness
  | _ => 0

theorem Reads.tightness_le {p : Phrase} {ts : List Token} {ns : List Node} (h : Reads p ts ns) :
    ∀ n ∈ ns, p.tightness ≤ n.form.tightness := by
  have hweaken : ∀ {p q : Phrase} {e : Node}, q.tightness ≤ p.tightness →
      (∀ n ∈ [e], p.tightness ≤ n.form.tightness) → ∀ n ∈ [e], q.tightness ≤ n.form.tightness :=
    fun hpq h n hn => Nat.le_trans hpq (h n hn)
  induction h with
  | behindNone => intro n hn; cases hn
  | behindSome _ _ _ ih => exact ih
  | suffixedNone _ ih | castNone _ ih | unaryNone _ ih => exact hweaken (by decide) ih
  | binaryNone _ ih => exact hweaken (by simp only [Phrase.tightness]; omega) ih
  | ternaryNone _ ih => exact hweaken (by decide) ih
  | binary _ _ _ hleast =>
      intro n hn
      obtain rfl := List.mem_singleton.mp hn
      simp only [Phrase.tightness, Node.of, Node.form, Form.tightness]
      omega
  | range _ _ _ hleast | instanceOf _ _ _ hleast =>
      intro n hn
      obtain rfl := List.mem_singleton.mp hn
      simp only [Phrase.tightness, Node.of, Node.form, Form.tightness]
      omega
  | literal | ident | this | paren | arrayLit | mapLit | funcLit | handler | access | index
  | call | callWith | cast | unary | ternary =>
      intro n hn
      obtain rfl := List.mem_singleton.mp hn
      exact Nat.le_refl _
  | _ => exact fun n _ => Nat.zero_le _

/-! ## All nodes of a tree -/

/-- Holds of the node and of all nodes below it. -/
def Node.All (P : Node → Prop) (n : Node) : Prop := ∀ m ∈ n.preorder, P m

theorem Node.All.self {P : Node → Prop} {n : Node} (h : n.All P) : P n :=
  h n (by cases n; exact List.mem_cons_self)

section

variable {P : Node → Prop} {form : Form} {span : Span} {parts : List (Role × Node)}

theorem Parts.mem_preorder_ofList {m : Node} :
    m ∈ (Parts.ofList parts).preorder ↔ ∃ part ∈ parts, m ∈ part.2.preorder := by
  induction parts with
  | nil => simp [Parts.ofList, Parts.preorder]
  | cons part parts ih => simp [Parts.ofList, Parts.preorder, ih]

@[simp] theorem Node.all_of : (Node.of form span parts).All P ↔
    P (.of form span parts) ∧ ∀ part ∈ parts, part.2.All P := by
  simp only [Node.All, Node.of, Node.preorder, List.mem_cons, Parts.mem_preorder_ofList]
  constructor
  · intro h
    exact ⟨h _ (.inl rfl), fun part hpart m hm => h m (.inr ⟨part, hpart, hm⟩)⟩
  · rintro ⟨hself, hparts⟩ m (rfl | ⟨part, hpart, hm⟩)
    · exact hself
    · exact hparts part hpart m hm

@[simp] theorem Node.all_leaf : (Node.leaf form span).All P ↔ P (.leaf form span) := by
  simp [Node.All, Node.leaf, Node.preorder, Parts.preorder]

theorem Rule.forall_mem_several {role : Role} {ns : List Node} {Q : Role × Node → Prop} :
    (∀ part ∈ several role ns, Q part) ↔ ∀ n ∈ ns, Q (role, n) :=
  List.forall_mem_map

@[simp] theorem Rule.mem_several {role other : Role} {n : Node} {ns : List Node} :
    (other, n) ∈ Rule.several role ns ↔ other = role ∧ n ∈ ns := by
  simp only [Rule.several, List.mem_map, Prod.mk.injEq]
  constructor
  · rintro ⟨m, hm, rfl, rfl⟩
    exact ⟨rfl, hm⟩
  · rintro ⟨rfl, hn⟩
    exact ⟨n, hn, rfl, rfl⟩

end

end Zensight
