import Zensight.Proofs.RoundTrip.Expressions

/-!
# Reading back what is written

The rules unfolded `n` times are complete up to `n` tokens, by the same count of
unfoldings against tokens that makes them sound. So a script that consists of a
well levelled expression, as a statement of its own or behind `return`, is read
as that expression and nothing is reported.

Together with `Text.parse_wellLevelled_iff` this says how far reading expressions
is the precedence grammar (`Text.parse_by_precedence`): every well levelled tree
is what its tokens are read as, and what is read is well levelled, but for an
`instanceof` to the left of an operator that binds more tightly.
-/

namespace Zensight

open Piece Read

theorem Grammar.unfold_complete {g : Grammar} {n : Nat} (hg : g.Complete n) :
    g.unfold.Complete (n + 1) where
  type := Rule.type_complete hg
  typeAtom := Rule.typeAtom_complete hg
  expression := Rule.expression_complete hg
  ternary := Rule.ternary_complete hg
  binary _ hleast hle := Rule.binary_complete hg hleast hle
  unary := Rule.unary_complete hg

theorem Grammar.upTo_complete (n : Nat) : (upTo n).Complete n := by
  induction n with
  | zero =>
      -- The token that an expression stands in front of is ahead.
      have hnone : ∀ {m : Read Node} {P : Node → Prop} {stop : Token.Kind → Prop},
          Read.Complete 0 m P stop := by
        refine ⟨fun _ _ _ _ hlen => ?_⟩
        rw [List.length_append, List.length_cons] at hlen
        omega
      exact ⟨hnone, hnone, hnone, hnone, fun _ _ _ => hnone, hnone⟩
  | succ n ih => exact unfold_complete ih

/-! ## Statements -/

namespace Rule

variable {g : Grammar} {n : Nat} {e : Node} {t semi : Token} {ts more : List Token} {r : Reader}
  {report : Report}

theorem exprStmt_gives (hg : g.Complete n) (he : e.IsOperand 0) (hfits : Fits e.written ts)
    (hsemi : semi.kind = .semicolon) (hr : r.At (ts ++ semi :: more) report)
    (hlen : (ts ++ semi :: more).length ≤ n + 1) :
    Regains (exprStmt g) r (.of .exprStmt default [(.operand, e)]) more report := by
  obtain ⟨t, us, rfl, -⟩ := he.begins ts hfits
  refine (Gives.current hr ?_).bind
  refine ((expression_complete hg).regains he hfits (by rw [hsemi]; decide) hr hlen).andThen ?_
  rintro e' s ⟨he', hs⟩
  refine (Gives.expect hs hsemi fun s₁ hs₁ => ?_).bind
  refine (Gives.spanFrom fun _ => .pure ⟨?_, hs₁⟩).bind
  simp [he']

theorem returnStmt_gives (hg : g.Complete n) (he : e.IsOperand 0) (hfits : Fits e.written ts)
    (ht : t.kind = .kwReturn) (hsemi : semi.kind = .semicolon)
    (hr : r.At (t :: (ts ++ semi :: more)) report)
    (hlen : (t :: (ts ++ semi :: more)).length ≤ n + 1) :
    Regains (returnStmt g) r (.of .returnStmt default [(.value, e)]) more report := by
  obtain ⟨u, us, rfl, hu⟩ := he.begins ts hfits
  refine (Gives.expect hr ht fun s hs => ?_).bind
  have hvalue : Gives (returnValue g) s fun value s' =>
      value.map Node.bare = some e.bare ∧ s'.At (semi :: more) report := by
    refine (Gives.check hs ?_).bind
    refine (Gives.check hs ?_).bind
    have hnone : u.kind ≠ .semicolon ∧ u.kind ≠ .rbrace :=
      ⟨Token.Kind.ne_of_beginsExpression hu rfl, Token.Kind.ne_of_beginsExpression hu rfl⟩
    rw [if_neg (by simp [hnone])]
    refine ((expression_complete hg).regains he hfits (by rw [hsemi]; decide) hs
      (Nat.le_of_succ_le hlen)).andThen ?_
    rintro e' s' ⟨he', hs'⟩
    exact .pure ⟨congrArg some he', hs'⟩
  refine hvalue.andThen ?_
  rintro value s₁ ⟨hvalue, hs₁⟩
  obtain ⟨e', rfl, he'⟩ := Option.map_eq_some_iff.mp hvalue
  refine (Gives.expect hs₁ hsemi fun s₂ hs₂ => ?_).bind
  refine (Gives.spanFrom fun _ => .pure ⟨?_, hs₂⟩).bind
  simp [optional, he']

/-- The rule for statements gives this statement. -/
def RegainsStatement (g : Grammar) (r : Reader) (stmt : Node) (rest : List Token)
    (report : Report) : Prop :=
  Gives (statement g) r fun stmt' s => stmt'.map Node.bare = some stmt.bare ∧ s.At rest report

/-- An expression is a statement of its own unless it looks like a block. -/
theorem statement_of_expression (hg : g.Complete n) (he : e.IsOperand 0)
    (hfits : Fits e.written (t :: ts)) (ht : t.kind ≠ .lbrace) (hsemi : semi.kind = .semicolon)
    (hr : r.At (t :: (ts ++ semi :: more)) report)
    (hlen : (t :: (ts ++ semi :: more)).length ≤ n + 1) :
    RegainsStatement g r (.of .exprStmt default [(.operand, e)]) more report := by
  obtain ⟨u, us, hus, hbegin⟩ := he.begins (t :: ts) hfits
  cases hus
  have hread : Gives (exprStmt g >>= fun stmt => pure (some stmt)) r fun stmt' s =>
      stmt'.map Node.bare = some (Node.of .exprStmt default [(.operand, e)]).bare ∧
        s.At more report := by
    refine (exprStmt_gives hg he hfits hsemi hr hlen).andThen ?_
    rintro stmt s ⟨hstmt, hs⟩
    exact .pure ⟨congrArg some hstmt, hs⟩
  refine (Gives.current hr ?_).bind
  split
  iterate 18 next hk => rw [hk] at hbegin ht; first | exact absurd rfl ht | cases hbegin
  exact hread

theorem statement_of_return (hg : g.Complete n) (he : e.IsOperand 0) (hfits : Fits e.written ts)
    (ht : t.kind = .kwReturn) (hsemi : semi.kind = .semicolon)
    (hr : r.At (t :: (ts ++ semi :: more)) report)
    (hlen : (t :: (ts ++ semi :: more)).length ≤ n + 1) :
    RegainsStatement g r (.of .returnStmt default [(.value, e)]) more report := by
  refine (Gives.current hr ?_).bind
  rw [ht]
  refine (returnStmt_gives hg he hfits ht hsemi hr hlen).andThen ?_
  rintro stmt s ⟨hstmt, hs⟩
  exact .pure ⟨congrArg some hstmt, hs⟩

end Rule

/-! ## Scripts of one statement -/

theorem Rule.advancing_gives {α : Type} {item : Read α} {r : Reader} {Q : α → Reader → Prop}
    (h : Gives item r fun a s => s.ahead.length < r.ahead.length ∧ Q a s) :
    Gives (advancing item) r Q := by
  refine (Gives.get ?_).bind
  refine h.andThen ?_
  rintro a s ⟨hlt, hq⟩
  refine (Gives.get ?_).bind
  rw [if_neg (Nat.ne_of_lt hlt)]
  exact .pure hq

/-- A script of one statement, without places. -/
def Node.script (stmt : Node) : Node :=
  .of .file default [(.statement, stmt.bare)]

theorem Grammar.file_gives {g : Grammar} {r : Reader} {stmt : Node} {t eof : Token}
    {ts : List Token} {report : Report} (ht : t.kind ≠ .eof) (himport : t.kind ≠ .kwImport)
    (heof : eof.kind = .eof) (hr : r.At (t :: (ts ++ [eof])) report)
    (hstmt : Rule.RegainsStatement g r stmt [eof] report) :
    Gives (file g) r fun tree s => tree.bare = stmt.script ∧ s.report = report := by
  have hitem : Gives (Rule.advancing (topLevelItem g)) r fun new s =>
      new.1 = [] ∧ new.2.map Node.bare = [stmt.bare] ∧ s.At [eof] report := by
    refine Rule.advancing_gives ((Gives.check hr ?_).bind)
    rw [if_neg (by simp [himport])]
    refine hstmt.andThen ?_
    rintro stmt' s ⟨hstmt', hs⟩
    obtain ⟨x, rfl, hx⟩ := Option.map_eq_some_iff.mp hstmt'
    exact .pure ⟨hr.ahead_lt hs, rfl, congrArg (· :: []) hx, hs⟩
  have htop : Gives (topLevel g) r fun items s =>
      items.1 = [] ∧ items.2.map Node.bare = [stmt.bare] ∧ s.At [eof] report := by
    refine .iterate ((Gives.check hr ?_).bind)
    rw [if_neg (by simp [ht])]
    refine hitem.andThen ?_
    rintro ⟨imports, stmts⟩ s ⟨rfl, hstmts, hs⟩
    refine .pure ⟨hr.ahead_lt hs, .iterate ((Gives.check hs ?_).bind)⟩
    rw [if_pos (by simp [heof])]
    exact .pure ⟨rfl, hstmts, hs⟩
  refine htop.andThen ?_
  rintro ⟨imports, stmts⟩ s ⟨rfl, hstmts, hs⟩
  refine (Gives.current hs (.pure ⟨?_, hs.report_eq⟩)).bind
  have hmany : (Rule.several .statement stmts).map (fun part => (part.1, part.2.bare)) =
      Rule.several .statement [stmt.bare] := by
    rw [Rule.map_bare_several]
    exact congrArg _ hstmts
  rw [Node.bare_of, List.map_append, hmany]
  rfl

/-- Is the script read as this one statement, with nothing reported? -/
def Text.IsReadAs (source : Text) (stmt : Node) : Prop :=
  source.parse.1.bare = stmt.script ∧ source.parse.2 = {}

theorem Text.isReadAs_of_regains {source : Text} {stmt : Node} {t eof : Token} {ts : List Token}
    (hscan : Token.scan source = t :: (ts ++ [eof])) (ht : t.kind ≠ .eof)
    (himport : t.kind ≠ .kwImport)
    (hstmt : Rule.RegainsStatement (.upTo (Token.scan source).length) (.ofText source) stmt [eof]
      {}) : source.IsReadAs stmt := by
  have heof : eof.kind = .eof := by
    obtain ⟨body, stop, hbody, -⟩ := Token.scan_eq source
    rw [hscan, ← List.cons_append] at hbody
    rw [(List.append_singleton_inj.mp hbody).2]
  obtain ⟨tree, s, hread, htree, hs⟩ := Grammar.file_gives ht himport heof ⟨hscan, rfl⟩ hstmt
  rw [Text.IsReadAs, Text.parse_eq hread]
  exact ⟨htree, hs⟩

theorem Node.IsOperand.isReadAs_exprStmt {source : Text} {e : Node} {ts : List Token}
    {semi eof : Token} (he : e.IsOperand 0) (hfits : Fits e.written ts)
    (hbrace : ts.head?.map Token.kind ≠ some .lbrace) (hsemi : semi.kind = .semicolon)
    (hscan : Token.scan source = ts ++ [semi, eof]) :
    source.IsReadAs (.of .exprStmt default [(.operand, e)]) := by
  obtain ⟨t, us, rfl, ht⟩ := he.begins ts hfits
  have hlast : Token.scan source = t :: (us ++ [semi] ++ [eof]) := by
    rw [hscan]
    simp
  refine Text.isReadAs_of_regains hlast (Token.Kind.ne_of_beginsExpression ht rfl)
    (Token.Kind.ne_of_beginsExpression ht rfl) ?_
  refine Rule.statement_of_expression (Grammar.upTo_complete _) he hfits (by simpa using hbrace)
    hsemi ⟨hscan, rfl⟩ ?_
  rw [hscan]
  exact Nat.le_succ _

theorem Node.IsOperand.isReadAs_returnStmt {source : Text} {e : Node} {ts : List Token}
    {ret semi eof : Token} (he : e.IsOperand 0) (hfits : Fits e.written ts)
    (hret : ret.kind = .kwReturn) (hsemi : semi.kind = .semicolon)
    (hscan : Token.scan source = ret :: (ts ++ [semi, eof])) :
    source.IsReadAs (.of .returnStmt default [(.value, e)]) := by
  have hlast : Token.scan source = ret :: (ts ++ [semi] ++ [eof]) := by
    rw [hscan]
    simp
  refine Text.isReadAs_of_regains hlast (by rw [hret]; decide) (by rw [hret]; decide) ?_
  refine Rule.statement_of_return (Grammar.upTo_complete _) he hfits hret hsemi ⟨hscan, rfl⟩ ?_
  rw [hscan]
  exact Nat.le_succ _

/-! ## The precedence grammar -/

/-- Wherever the tokens stand in front of one that makes nothing of an
expression, the rule for expressions reads them as this tree, stops there and
reports nothing. -/
def Node.IsReadFrom (e : Node) (ts : List Token) : Prop :=
  ∀ (n : Nat) (r : Reader) (next : Token) (more : List Token),
    r.ahead = ts ++ next :: more → next.kind.grip = 0 → r.ahead.length ≤ n →
    ∃ e' s, (Grammar.upTo n).expression r = some (e', s) ∧ e'.bare = e.bare ∧
      s.ahead = next :: more ∧ s.report = r.report

theorem Node.IsOperand.isReadFrom {e : Node} {ts : List Token} (he : e.IsOperand 0)
    (hfits : Fits e.written ts) : e.IsReadFrom ts := by
  intro n r next more hahead hnext hlen
  have hread := (Grammar.upTo_complete n).expression.regains he hfits (Nat.le_of_eq hnext)
    ⟨hahead, rfl⟩ (hahead ▸ hlen)
  obtain ⟨e', s, heq, he', hs⟩ := hread
  exact ⟨e', s, heq, he', hs.ahead_eq, hs.report_eq⟩

/-- Reading expressions follows the levels of the operators. In a script without
faults a node is well levelled unless it is an operator above the level of
`instanceof` with an `instanceof` to its left. And every well levelled
expression is what the tokens it is written as are read as: inside a script, as
a statement of its own unless it begins like a block, and behind `return`. -/
theorem Text.parse_by_precedence (source : Text) (e : Node) :
    (source.parse.2.hasErrors = false →
      ∀ n ∈ source.parse.1.preorder, n.WellLevelled ↔ ¬ n.Oversteps) ∧
    (IsExpression e → e.All Node.WellLevelled →
      (∃ ts, Fits e.written ts) ∧
      ∀ ts, Fits e.written ts →
        e.IsReadFrom ts ∧
        (∀ semi eof, semi.kind = .semicolon → Token.scan source = ts ++ [semi, eof] →
          (ts.head?.map Token.kind ≠ some .lbrace) →
          source.IsReadAs (.of .exprStmt default [(.operand, e)])) ∧
        ∀ ret semi eof, ret.kind = .kwReturn → semi.kind = .semicolon →
          Token.scan source = ret :: (ts ++ [semi, eof]) →
          source.IsReadAs (.of .returnStmt default [(.value, e)])) := by
  refine ⟨fun h n hn => Text.parse_wellLevelled_iff h hn, fun hexpr hlev => ?_⟩
  have he : e.IsOperand 0 := ⟨hexpr, hlev, Nat.zero_le _⟩
  refine ⟨Fits.exists_tokens e.written, fun ts hfits => ⟨he.isReadFrom hfits, ?_, ?_⟩⟩
  · intro semi eof hsemi hscan hbrace
    exact he.isReadAs_exprStmt hfits hbrace hsemi hscan
  · intro ret semi eof hret hsemi hscan
    exact he.isReadAs_returnStmt hfits hret hsemi hscan

/-- `x = -a.b as int * c == d ? this : e` -/
def mixedExpression : Node :=
  let name (s : Text) : Node := .leaf (.ident s) default
  let access : Node := .of .memberExpr default
    [(.operand, name (txt "a")), (.name, name (txt "b"))]
  let cast : Node := .of .castExpr default
    [(.operand, access), (.type, .leaf (.primitiveType .kwInt) default)]
  let product : Node := .of (.binaryExpr .star) default
    [(.left, .of (.unaryExpr .minus) default [(.operand, cast)]), (.right, name (txt "c"))]
  let equation : Node := .of (.binaryExpr .eqEq) default
    [(.left, product), (.right, name (txt "d"))]
  .of (.assignExpr .assign) default [(.left, name (txt "x")),
    (.right, .of .ternaryExpr default [(.condition, equation),
      (.thenBranch, .leaf .thisExpr default), (.elseBranch, name (txt "e"))])]

theorem mixedExpression_isExpression : IsExpression mixedExpression := by
  refine .assign (by decide) (.ident (by decide)) (.ternary ?_ .this (.ident (by decide)))
  refine .binary (by decide) (by decide) (by decide) (by decide) ?_ (.ident (by decide))
  refine .binary (by decide) (by decide) (by decide) (by decide) ?_ (.ident (by decide))
  exact .unary (by decide)
    (.cast (.member (.ident (by decide)) (by decide)) (.primitive (by decide)) rfl)

theorem mixedExpression_wellLevelled : mixedExpression.All Node.WellLevelled := by
  simp [mixedExpression, Node.wellLevelled_leaf]
  decide

/-- A sum with an `instanceof` to its left is read without a fault and is not well
levelled; the expression above is read from its tokens. -/
theorem mixedExpression_by_precedence :
    ((txt "a instanceof T + b;").parse.2.hasErrors = false ∧
      ∃ n ∈ (txt "a instanceof T + b;").parse.1.preorder, n.Oversteps ∧ ¬ n.WellLevelled) ∧
    (txt "x = -a.b as int * c == d ? this : e;").IsReadAs
      (.of .exprStmt default [(.operand, mixedExpression)]) := by
  constructor
  · have hclean : (txt "a instanceof T + b;").parse.2.hasErrors = false := by decide +kernel
    have hsum : ∃ n ∈ (txt "a instanceof T + b;").parse.1.preorder,
        n.form = .binaryExpr .plus ∧
          ∃ left ∈ n.parts.all .left, left.form = .instanceOfExpr := by decide +kernel
    obtain ⟨n, hn, hform, hleft⟩ := hsum
    have hover : n.Oversteps := .inl ⟨.plus, hform, by decide, hleft⟩
    have hlevels := (Text.parse_by_precedence _ mixedExpression).1 hclean n hn
    exact ⟨hclean, n, hn, hover, fun hwell => hlevels.mp hwell hover⟩
  · have hread := (Text.parse_by_precedence (txt "x = -a.b as int * c == d ? this : e;") _).2
      mixedExpression_isExpression mixedExpression_wellLevelled
    have hfits := Fits.ofTokens (Token.scan (txt "x = -a.b as int * c == d ? this : e")).dropLast
    rw [show List.map _ _ = mixedExpression.written by decide +kernel] at hfits
    exact (hread.2 _ hfits).2.1 ⟨.semicolon, txt ";", ⟨1, 36⟩⟩ ⟨.eof, [], ⟨1, 37⟩⟩ rfl
      (by decide +kernel) (by decide +kernel)

end Zensight
