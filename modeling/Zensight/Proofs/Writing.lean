import Zensight.Proofs.Parsing

/-!
# Writing a tree back

A tree determines the tokens it was read from, except for four things it does
not record: semicolons that stand alone, a comma behind the last item of a list,
which of its two signs a range has, and where the tokens inside a bracket
handler end. `Node.written` is what a tree determines, as a list of pieces, and
`Fits` says which tokens such a list allows.

That a script without faults fits the pieces of its own tree is proved in
`Proofs/Faithful.lean`.
-/

namespace Zensight

/-! ## Pieces -/

/-- A piece of what a tree is written as: a token, or something that the tree
leaves open. -/
inductive Piece where
  | token (kind : Token.Kind) (text : Text)
  /-- Any number of semicolons. -/
  | strays
  /-- A comma or nothing. -/
  | lastComma
  /-- `..` or `to`. -/
  | rangeSign
  /-- Tokens of a bracket handler that have this text together. -/
  | raw (text : Text)
  /-- A branch that does nothing: a semicolon, or braces around nothing. -/
  | emptyBranch
  deriving DecidableEq, Repr

/-- The tokens that a piece allows. -/
inductive Piece.Fits : Piece → List Token → Prop where
  | token {t : Token} : Fits (.token t.kind t.literal) [t]
  | strays {ts : List Token} : (∀ t ∈ ts, t.kind = .semicolon) → Fits .strays ts
  | noComma : Fits .lastComma []
  | comma {t : Token} : t.kind = .comma → Fits .lastComma [t]
  | rangeSign {t : Token} : t.kind = .dotDot ∨ t.kind = .kwTo → Fits .rangeSign [t]
  | raw {ts : List Token} : (∀ t ∈ ts, t.kind.endsHandler = false) →
      Fits (.raw (ts.flatMap (·.literal))) ts
  | lone {t : Token} : t.kind = .semicolon → Fits .emptyBranch [t]
  | braces {ts : List Token} {lb rb : Token} : lb.kind = .lbrace →
      (∀ t ∈ ts, t.kind = .semicolon) → rb.kind = .rbrace →
      Fits .emptyBranch (lb :: ts ++ [rb])

/-- The tokens that pieces one after another allow. -/
inductive Fits : List Piece → List Token → Prop where
  | nil : Fits [] []
  | cons {p : Piece} {ps : List Piece} {ts us : List Token} :
      p.Fits ts → Fits ps us → Fits (p :: ps) (ts ++ us)

namespace Piece

/-- A token of a kind with one spelling. -/
def sign (kind : Token.Kind) : List Piece := [.token kind kind.name]

/-- A word, which may be a keyword. -/
def word (text : Text) : List Piece := [.token (.ofWord text) text]

/-- Parts with a token between neighbours. -/
def joined (separator : Token.Kind) : List (List Piece) → List Piece
  | [] => []
  | [part] => part
  | part :: rest => part ++ (sign separator ++ joined separator rest)

/-- An optional part behind its token. -/
def behind (kind : Token.Kind) : List (List Piece) → List Piece
  | [] => []
  | parts => sign kind ++ parts.flatten

/-- Items with commas between them. -/
def commas : List (List Piece) → List Piece
  | [] => []
  | items => joined .comma items ++ [.lastComma]

/-- Statements or members, with semicolons that stand alone among them. -/
def among (items : List (List Piece)) : List Piece :=
  items.flatMap (.strays :: ·) ++ [.strays]

/-- The body of a declaration; a semicolon if it has none. -/
def body : List (List Piece) → List Piece
  | [] => sign .semicolon
  | parts => parts.flatten

/-- The classes that a class extends. -/
def supers : List (List Piece) → List Piece
  | [] => []
  | classes => sign .kwExtends ++ joined .comma classes

/-- The sign of an operator function. -/
def operator (literal : Text) : List Piece :=
  if literal = txt "[]" then sign .lbracket ++ sign .rbracket
  else if literal = txt "[]=" then sign .lbracket ++ sign .rbracket ++ sign .assign
  else if literal = txt ".=" then sign .dot ++ sign .assign
  else [.token ((Token.Kind.ofSign? literal).getD (.ofWord literal)) literal]

end Piece

/-! Lists of pieces, item by item. -/

namespace Piece

variable {k : Token.Kind} {p : List Piece} {ps : List (List Piece)}

theorem joined_cons : joined k (p :: ps) = p ++ ps.flatMap (sign k ++ ·) := by
  induction ps generalizing p with
  | nil => simp [joined]
  | cons q ps ih =>
      show p ++ (sign k ++ joined k (q :: ps)) = _
      rw [ih]
      simp

theorem joined_concat (hne : ps ≠ []) : joined k (ps ++ [p]) = joined k ps ++ (sign k ++ p) := by
  obtain ⟨q, qs, rfl⟩ := List.exists_cons_of_ne_nil hne
  rw [List.cons_append, joined_cons, joined_cons]
  simp

theorem commas_cons :
    commas (p :: ps) = p ++ (ps.flatMap (sign .comma ++ ·) ++ [.lastComma]) := by
  show joined .comma (p :: ps) ++ [.lastComma] = _
  rw [joined_cons, List.append_assoc]

theorem commas_eq (hne : ps ≠ []) : commas ps = joined .comma ps ++ [.lastComma] := by
  cases ps with
  | nil => exact absurd rfl hne
  | cons => rfl

theorem supers_eq (hne : ps ≠ []) : supers ps = sign .kwExtends ++ joined .comma ps := by
  cases ps with
  | nil => exact absurd rfl hne
  | cons => rfl

end Piece

/-! ## Writing -/

/-- A node with what it is written as. -/
structure Written where
  node : Node
  pieces : List Piece

namespace Written

/-- Does one node start no later than the other? -/
def startsBy (a b : Written) : Bool := !b.node.span.start.isBefore a.node.span.start

/-- What a branch of an `if` is written as. -/
def branch (w : Written) : List Piece :=
  if w.node.form = .block ∧ w.node.parts.length = 0 then [.emptyBranch] else w.pieces

/-- The parts that play a role. -/
def playing (role : Role) (parts : List (Role × Written)) : List Written :=
  parts.filterMap fun p => if p.1 = role then some p.2 else none

/-- The pieces of all parts that play a role, each by itself. -/
def each (role : Role) (parts : List (Role × Written)) : List (List Piece) :=
  (playing role parts).map (·.pieces)

/-- The pieces of all parts that play a role. -/
def put (role : Role) (parts : List (Role × Written)) : List Piece := (each role parts).flatten

def params (parts : List (Role × Written)) : List Piece :=
  Piece.sign .lparen ++ Piece.commas (each .param parts) ++ Piece.sign .rparen

/-- The parameters, the result and the body of a declared function. -/
def executable (parts : List (Role × Written)) : List Piece :=
  params parts ++ Piece.behind .kwAs (each .result parts) ++ Piece.body (each .body parts)

end Written

open Piece Written in
/-- What a node is written as, from its form and what its parts are written as.
The parts of a script are put in the order of their places; the parts of all
other nodes are listed in that order. -/
def Form.write (form : Form) (parts : List (Role × Written)) : List Piece :=
  match form with
  | .file => among (((parts.map (·.2)).mergeSort startsBy).map (·.pieces))
  | .importDecl path =>
    sign .kwImport ++ joined .dot (path.map word) ++ behind .kwAs (each .localName parts)
      ++ sign .semicolon
  | .varDecl keyword =>
    sign keyword ++ put .name parts ++ behind .kwAs (each .type parts)
      ++ behind .assign (each .value parts) ++ sign .semicolon
  | .param =>
    put .name parts ++ behind .kwAs (each .type parts) ++ behind .assign (each .fallback parts)
  | .funcDecl isStatic =>
    (if isStatic then sign .kwStatic else []) ++ sign .kwFunction ++ put .name parts
      ++ executable parts
  | .expandFuncDecl =>
    sign .dollar ++ sign .kwExpand ++ put .target parts ++ sign .dollar ++ put .name parts
      ++ executable parts
  | .classDecl =>
    sign .kwZenClass ++ put .name parts ++ supers (each .super parts)
      ++ sign .lbrace ++ among (each .member parts) ++ sign .rbrace
  | .constructorDecl => sign .kwZenConstructor ++ params parts ++ body (each .body parts)
  | .operatorDecl literal => sign .kwOperator ++ operator literal ++ executable parts
  | .block => sign .lbrace ++ among (each .statement parts) ++ sign .rbrace
  | .exprStmt => put .operand parts ++ sign .semicolon
  | .returnStmt => sign .kwReturn ++ put .value parts ++ sign .semicolon
  | .ifStmt =>
    sign .kwIf ++ put .condition parts ++ (playing .thenBranch parts).flatMap branch
      ++ behind .kwElse ((playing .elseBranch parts).map branch)
  | .foreachStmt =>
    sign .kwFor ++ joined .comma (each .loopVar parts) ++ sign .kwIn ++ put .iterated parts
      ++ put .body parts
  | .whileStmt => sign .kwWhile ++ put .condition parts ++ put .body parts
  | .breakStmt => sign .kwBreak ++ sign .semicolon
  | .continueStmt => sign .kwContinue ++ sign .semicolon
  | .badStmt | .badExpr | .badType => []
  | .ident name => word name
  | .basicLit kind value => [.token kind value]
  | .thisExpr => sign .kwThis
  | .parenExpr => sign .lparen ++ put .operand parts ++ sign .rparen
  | .arrayLit => sign .lbracket ++ commas (each .element parts) ++ sign .rbracket
  | .mapLit => sign .lbrace ++ commas (each .entry parts) ++ sign .rbrace
  | .mapEntry => put .key parts ++ sign .colon ++ put .value parts
  | .bracketHandler text => sign .less ++ [.raw text] ++ sign .greater
  | .funcLit =>
    sign .kwFunction ++ params parts ++ behind .kwAs (each .result parts) ++ put .body parts
  | .memberExpr => put .operand parts ++ sign .dot ++ put .name parts
  | .indexExpr => put .operand parts ++ sign .lbracket ++ put .index parts ++ sign .rbracket
  | .callExpr =>
    put .callee parts ++ sign .lparen ++ joined .comma (each .argument parts) ++ sign .rparen
  | .unaryExpr op => sign op ++ put .operand parts
  | .binaryExpr op | .assignExpr op => put .left parts ++ sign op ++ put .right parts
  | .rangeExpr => put .lower parts ++ [.rangeSign] ++ put .upper parts
  | .instanceOfExpr => put .operand parts ++ sign .kwInstanceof ++ put .type parts
  | .castExpr => put .operand parts ++ sign .kwAs ++ put .type parts
  | .ternaryExpr =>
    put .condition parts ++ sign .question ++ put .thenBranch parts ++ sign .colon
      ++ put .elseBranch parts
  | .primitiveType kind => sign kind
  | .namedType path => joined .dot (path.map word)
  | .arrayType => put .element parts ++ sign .lbracket ++ sign .rbracket
  | .listType => sign .lbracket ++ put .element parts ++ sign .rbracket
  | .mapType => put .value parts ++ sign .lbracket ++ put .key parts ++ sign .rbracket
  | .funcType =>
    sign .kwFunction ++ sign .lparen ++ commas (each .param parts) ++ sign .rparen
      ++ put .result parts
  | .intersectionType => joined .amp (each .constituent parts)

mutual

/-- What a tree is written as. -/
def Node.written : Node → List Piece
  | .mk form _ parts => form.write parts.written

def Parts.written : Parts → List (Role × Written)
  | .nil => []
  | .cons role node rest => (role, ⟨node, node.written⟩) :: rest.written

end

/-! The parts of a node are looked up by role. -/

namespace Written

/-- A labelled part with what it is written as. -/
def ofPart (part : Role × Node) : Role × Written := (part.1, ⟨part.2, part.2.written⟩)

variable {role other : Role} {parts rest : List (Role × Written)} {n : Node} {ns : List Node}

@[simp] theorem playing_nil : playing role [] = [] := rfl

@[simp] theorem playing_cons : playing role (ofPart (other, n) :: parts) =
    if other = role then ⟨n, n.written⟩ :: playing role parts else playing role parts := by
  rw [playing, List.filterMap_cons, ofPart]
  split <;> simp_all [playing]

@[simp] theorem playing_append :
    playing role (parts ++ rest) = playing role parts ++ playing role rest := by
  rw [playing, List.filterMap_append]
  rfl

@[simp] theorem playing_several : playing role ((Rule.several other ns).map ofPart) =
    if other = role then ns.map (fun n => ⟨n, n.written⟩) else [] := by
  induction ns with
  | nil => split <;> rfl
  | cons n ns ih =>
      rw [Rule.several, List.map_cons, List.map_cons, playing_cons, ← Rule.several, ih]
      split <;> rfl

@[simp] theorem each_nil : each role [] = [] := rfl

@[simp] theorem each_cons : each role (ofPart (other, n) :: parts) =
    if other = role then n.written :: each role parts else each role parts := by
  rw [each, playing_cons]
  split <;> rfl

@[simp] theorem each_append : each role (parts ++ rest) = each role parts ++ each role rest := by
  rw [each, playing_append, List.map_append]
  rfl

@[simp] theorem each_several : each role ((Rule.several other ns).map ofPart) =
    if other = role then ns.map Node.written else [] := by
  rw [each, playing_several]
  split
  · rw [List.map_map]
    rfl
  · rfl

end Written

theorem Parts.written_ofList (parts : List (Role × Node)) :
    (Parts.ofList parts).written = parts.map Written.ofPart := by
  induction parts with
  | nil => rfl
  | cons part parts ih => rw [Parts.ofList, Parts.written, ih]; rfl

@[simp] theorem Node.written_of (form : Form) (span : Span) (parts : List (Role × Node)) :
    (Node.of form span parts).written = form.write (parts.map Written.ofPart) := by
  rw [Node.of, Node.written, Parts.written_ofList]

@[simp] theorem Node.written_leaf (form : Form) (span : Span) :
    (Node.leaf form span).written = form.write [] := rfl

/-! ## Fitting -/

namespace Fits

variable {p : Piece} {ps qs : List Piece} {ts us : List Token} {t : Token} {k : Token.Kind}

theorem one (h : p.Fits ts) : Fits [p] ts := by
  rw [← List.append_nil ts]
  exact .cons h .nil

theorem append (h₁ : Fits ps ts) (h₂ : Fits qs us) : Fits (ps ++ qs) (ts ++ us) := by
  induction h₁ with
  | nil => exact h₂
  | cons hp _ ih =>
      rw [List.append_assoc]
      exact .cons hp ih

theorem ofTokens (ts : List Token) :
    Fits (ts.map fun t => .token t.kind t.literal) ts := by
  induction ts with
  | nil => exact .nil
  | cons t ts ih => exact .cons .token ih

theorem exists_tokens (ps : List Piece) : ∃ ts, Fits ps ts := by
  have hpiece : ∀ p : Piece, ∃ ts, p.Fits ts := by
    intro p
    cases p with
    | token k w => exact ⟨[⟨k, w, .start⟩], @Piece.Fits.token ⟨k, w, .start⟩⟩
    | strays => exact ⟨[], .strays (List.forall_mem_nil _)⟩
    | lastComma => exact ⟨[], .noComma⟩
    | rangeSign => exact ⟨[⟨.dotDot, [], .start⟩], .rangeSign (.inl rfl)⟩
    | raw text =>
        have hraw := @Piece.Fits.raw [⟨.ident, text, .start⟩] (List.forall_mem_singleton.mpr rfl)
        rw [List.flatMap_singleton] at hraw
        exact ⟨_, hraw⟩
    | emptyBranch => exact ⟨[⟨.semicolon, [], .start⟩], .lone rfl⟩
  induction ps with
  | nil => exact ⟨[], .nil⟩
  | cons p ps ih =>
      obtain ⟨ts, hts⟩ := hpiece p
      obtain ⟨us, hus⟩ := ih
      exact ⟨ts ++ us, .cons hts hus⟩

theorem of_append (h : Fits (ps ++ qs) ts) :
    ∃ us vs, ts = us ++ vs ∧ Fits ps us ∧ Fits qs vs := by
  induction ps generalizing ts with
  | nil => exact ⟨[], ts, rfl, .nil, h⟩
  | cons p ps ih =>
      cases h with
      | cons hp hrest =>
          obtain ⟨us, vs, rfl, hus, hvs⟩ := ih hrest
          exact ⟨_, vs, (List.append_assoc ..).symm, .cons hp hus, hvs⟩

theorem of_one (h : Fits [p] ts) : p.Fits ts := by
  cases h with
  | cons hp hnil =>
      cases hnil
      rwa [List.append_nil]

theorem of_token {w : Text} (h : Fits [.token k w] ts) :
    ∃ t : Token, ts = [t] ∧ t.kind = k ∧ t.literal = w := by
  cases h.of_one
  exact ⟨_, rfl, rfl, rfl⟩

end Fits

/-- Tokens that fit the pieces if the scanner can make them. -/
def Writes (ps : List Piece) (ts : List Token) : Prop := Spelt ts → Fits ps ts

namespace Writes

variable {p : Piece} {ps qs : List Piece} {ts us : List Token} {t : Token} {k : Token.Kind}

theorem of_fits (h : Fits ps ts) : Writes ps ts := fun _ => h

theorem nil : Writes [] [] := of_fits .nil

theorem append (h₁ : Writes ps ts) (h₂ : Writes qs us) : Writes (ps ++ qs) (ts ++ us) := by
  intro hs
  refine (h₁ fun t ht => ?_).append (h₂ fun t ht => ?_)
  · exact hs t (List.mem_append_left us ht)
  · exact hs t (List.mem_append_right ts ht)

theorem noStrays : Writes [.strays] [] := by
  refine of_fits (.one (.strays fun t ht => ?_))
  cases ht

theorem token (t : Token) : Writes [.token t.kind t.literal] [t] := of_fits (.one .token)

/-- A token of a kind with one spelling. -/
theorem sign (hk : t.kind = k) (hfixed : k.isFixed = true) : Writes (Piece.sign k) [t] := by
  intro hs
  subst hk
  rw [Piece.sign, ← (hs t (List.mem_singleton_self t)).fixed hfixed]
  exact .one .token

theorem word (hk : t.kind = .ident ∨ t.kind.isKeyword = true) :
    Writes (Piece.word t.literal) [t] := by
  intro hs
  have hspells := hs t (List.mem_singleton_self t)
  have hkind : Token.Kind.ofWord t.literal = t.kind := by
    rcases hk with hident | hkeyword
    · rw [(hspells.word hident).2.2.1, hident]
    · rw [hspells.fixed (Token.Kind.isFixed_of_isKeyword hkeyword),
        Token.Kind.name_of_isKeyword hkeyword]
  rw [Piece.word, hkind]
  exact .one .token

/-- One more semicolon among those that stand alone. -/
theorem stray (h : Writes (ps ++ [.strays]) ts) (ht : t.kind = .semicolon) :
    Writes (ps ++ [.strays]) (ts ++ [t]) := by
  intro hs
  obtain ⟨us, vs, rfl, hus, hvs⟩ := (h fun u hu => hs u (List.mem_append_left _ hu)).of_append
  cases hvs.of_one with
  | strays hvs =>
      rw [List.append_assoc]
      refine hus.append (.one (.strays fun u hu => ?_))
      rcases List.mem_append.mp hu with hu | hu
      · exact hvs u hu
      · rw [List.mem_singleton.mp hu, ht]

end Writes

end Zensight
