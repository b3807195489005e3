import Mathlib.Data.List.Pairwise
import Zensight.Proofs.Writing

/-!
# A tree keeps every token

In a script without faults every token is in the tree or is one of the few that
a tree does not record, and the tree holds nothing that is not in the tokens.
Two inductions over phrases carry this: the tokens of a phrase fit what its nodes
are written as (`Reads.writes`), and no node of a phrase is a placeholder
(`Reads.genuine`).

At the top level imports and statements may be mixed, while the tree lists all
imports first. Items start where their first token stands and tokens stand in
order, so sorting by place brings the items back into the order of the script
(`mergeSort_startsBy`).
-/

namespace Zensight

open Piece Written

/-- What a phrase is written as. -/
def Phrase.write : Phrase → List Node → List Piece
  | behind kind item, ns => Piece.behind kind (ns.map fun n => item.write [n])
  | separated sep item, ns => joined sep (ns.map fun n => item.write [n])
  | commas item, ns => Piece.commas (ns.map fun n => item.write [n])
  | many _, ns => among (ns.map Node.written)
  | params, ns => sign .lparen ++ Piece.commas (ns.map Node.written) ++ sign .rparen
  | body, ns => Piece.body (ns.map Node.written)
  | supers, ns => Piece.supers (ns.map Node.written)
  | branch, ns => ns.flatMap fun n => Written.branch ⟨n, n.written⟩
  | statement, [] | member, [] => sign .semicolon
  | _, ns => (ns.map Node.written).flatten

namespace Token.Kind

theorem isFixed_of_level_pos {k : Kind} (h : 0 < k.level) : k.isFixed = true := by
  revert k
  decide

theorem isFixed_of_isAssignment {k : Kind} (h : k.isAssignment = true) : k.isFixed = true := by
  revert k
  decide

theorem isFixed_of_isUnary {k : Kind} (h : k.isUnary = true) : k.isFixed = true := by
  revert k
  decide

theorem isFixed_of_declaresVar {k : Kind} (h : k.declaresVar = true) : k.isFixed = true := by
  revert k
  decide

end Token.Kind

/-! ## Names with dots and signs of operators -/

theorem Token.IsNameAfter.isWord {t dot : Token} (h : t.IsNameAfter dot) :
    t.kind = .ident ∨ t.kind.isKeyword = true :=
  h.imp_right And.left

theorem ImportPath.ne_nil {ts : List Token} {path : List Text} (h : ImportPath ts path) :
    path ≠ [] := by
  cases h <;> simp

theorem Dotted.importPath {ts : List Token} {path : List Text} (h : Dotted ts path) :
    ImportPath ts path := by
  induction h with
  | one hk => exact .one hk
  | more _ hdot hk ih => exact .more ih hdot (.inl hk)

theorem ImportPath.writes {ts : List Token} {path : List Text} (h : ImportPath ts path) :
    Writes (joined .dot (path.map word)) ts := by
  induction h with
  | one hk => exact .word (.inl hk)
  | more hpath hdot hname ih =>
      have hne := hpath.ne_nil
      rw [List.map_append, List.map_cons, List.map_nil, joined_concat (by simpa using hne)]
      exact ih.append ((Writes.sign hdot rfl).append (.word hname.isWord))

theorem OperatorSign.isFixed_plain {k : Token.Kind} (h : Rule.isOperatorSign k = true) :
    k.isFixed = true := by
  revert k
  decide

theorem OperatorSign.operator_plain {k : Token.Kind} (h : Rule.isOperatorSign k = true) :
    operator k.name = sign k := by
  revert k
  decide

theorem OperatorSign.writes {ts : List Token} {literal : Text} (h : OperatorSign ts literal) :
    Writes (operator literal) ts := by
  cases h with
  | index hlb hrb => exact (Writes.sign hlb rfl).append (.sign hrb rfl)
  | indexSet hlb hrb heq =>
      exact ((Writes.sign hlb rfl).append (.sign hrb rfl)).append (.sign heq rfl)
  | member hdot => exact .sign hdot rfl
  | memberSet hdot heq => exact (Writes.sign hdot rfl).append (.sign heq rfl)
  | @plain t hsign =>
      intro hs
      have hfixed := isFixed_plain hsign
      have hliteral := (hs t (List.mem_singleton_self t)).fixed hfixed
      rw [hliteral, operator_plain hsign]
      exact Writes.sign rfl hfixed hs

/-! ## Phrases -/

theorem Reads.separated_ne_nil {sep : Token.Kind} {item : Phrase} {ts : List Token}
    {ns : List Node} (h : Reads (.separated sep item) ts ns) : ns ≠ [] := by
  cases h <;> simp

theorem Reads.statement_nodes {p : Phrase} {ts : List Token} {ns : List Node}
    (hp : p = .statement ∨ p = .member) (h : Reads p ts ns) :
    (∃ n, ns = [n]) ∨ ns = [] ∧ ∃ semi : Token, ts = [semi] ∧ semi.kind = .semicolon := by
  have hstatement : ∀ {ts ns}, Reads .statement ts ns →
      (∃ n, ns = [n]) ∨ ns = [] ∧ ∃ semi : Token, ts = [semi] ∧ semi.kind = .semicolon := by
    intro ts ns h
    cases h with
    | stray hsemi => exact .inr ⟨rfl, _, rfl, hsemi⟩
    | _ => exact .inl ⟨_, rfl⟩
  rcases hp with rfl | rfl
  · exact hstatement h
  · cases h with
    | memberStatement h => exact hstatement h
    | _ => exact .inl ⟨_, rfl⟩

/-- Braces around nothing but semicolons are an empty branch. -/
theorem Writes.emptyBranch {ts : List Token}
    (h : Writes (Piece.sign .lbrace ++ [.strays] ++ Piece.sign .rbrace) ts) :
    Writes [.emptyBranch] ts := by
  intro hs
  obtain ⟨us, vs, rfl, hus, hvs⟩ := (h hs).of_append
  obtain ⟨ws, xs, rfl, hws, hxs⟩ := hus.of_append
  obtain ⟨lb, rfl, hlb, -⟩ := hws.of_token
  obtain ⟨rb, rfl, hrb, -⟩ := hvs.of_token
  cases hxs.of_one with
  | strays hxs => exact .one (.braces hlb hxs hrb)

theorem Writes.branch {ts : List Token} {n : Node} (h : Writes n.written ts) :
    Writes (Written.branch ⟨n, n.written⟩) ts := by
  rw [Written.branch]
  split
  next hempty =>
    obtain ⟨form, span, parts⟩ := n
    obtain ⟨rfl, hparts⟩ : form = .block ∧ parts.length = 0 := hempty
    cases parts with
    | nil => exact .emptyBranch h
    | cons => cases hparts
  next => exact h

/-- The tokens of every phrase fit what its nodes are written as. -/
theorem Reads.writes {p : Phrase} {ts : List Token} {ns : List Node} (h : Reads p ts ns) :
    Writes (p.write ns) ts := by
  induction h with
  | name hk | ident hk =>
      simpa [Phrase.write, Token.nameNode, Form.write] using Writes.word (.inl hk)
  | behindNone | commasNone | valueNone | supersNone => exact .nil
  | behindSome hk hfixed _ ih =>
      simpa [Phrase.write, behind] using (Writes.sign hk hfixed).append ih
  | separatedOne _ ih => exact ih
  | separatedMore hns hsep hfixed _ ih₁ ih₂ =>
      have hne := hns.separated_ne_nil
      simp only [Phrase.write, List.map_append, List.map_cons, List.map_nil]
      rw [joined_concat (by simpa using hne)]
      exact ih₁.append ((Writes.sign hsep hfixed).append ih₂)
  | commasSome hns ih =>
      have hne := hns.separated_ne_nil
      rw [Phrase.write, commas_eq (by simpa using hne)]
      simpa [Phrase.write] using ih.append (.of_fits (.one .noComma))
  | commasTrailing hns hcomma ih =>
      have hne := hns.separated_ne_nil
      rw [Phrase.write, commas_eq (by simpa using hne)]
      exact ih.append (.of_fits (.one (.comma hcomma)))
  | manyNone => exact .noStrays
  | @manyMore _ _ us _ _ hitem _ hms ih₁ ih₂ =>
      rcases hms.statement_nodes hitem with ⟨n, rfl⟩ | ⟨rfl, semi, rfl, hsemi⟩
      · have hn : Writes n.written us := by
          rcases hitem with rfl | rfl <;> simpa [Phrase.write] using ih₂
        simpa [Phrase.write, among] using (ih₁.append hn).append .noStrays
      · simpa [Phrase.write, among] using ih₁.stray hsemi
  | namedType hpath =>
      simpa [Phrase.write, Form.write] using hpath.importPath.writes
  | primitiveType hk =>
      have hfixed := Token.Kind.isFixed_of_isKeyword (Token.Kind.isKeyword_of_isPrimitive hk)
      simpa [Phrase.write, Form.write] using Writes.sign rfl hfixed
  | typeName _ ih | typeOne _ ih | suffixedNone _ ih | castNone _ ih | unaryNone _ ih
  | binaryNone _ ih | ternaryNone _ ih | expressionNone _ ih | valueSome _ ih
  | blockStmt _ ih => simpa [Phrase.write] using ih
  | bodySome _ ih => simpa [Phrase.write, body] using ih
  | listType hlb _ hrb ih | paren hlb _ hrb ih =>
      simpa [Phrase.write, Form.write, put] using
        ((Writes.sign hlb rfl).append ih).append (.sign hrb rfl)
  | funcType hfn hlp _ hrp _ ih₁ ih₂ =>
      simpa [Phrase.write, Form.write, put] using
        ((((Writes.sign hfn rfl).append (.sign hlp rfl)).append ih₁).append
          (.sign hrp rfl)).append ih₂
  | arrayType _ hlb hrb ih =>
      simpa [Phrase.write, Form.write, put] using
        (ih.append (.sign hlb rfl)).append (.sign hrb rfl)
  | mapType _ hlb _ hrb ih₁ ih₂ | index _ hlb _ hrb ih₁ ih₂ =>
      simpa [Phrase.write, Form.write, put] using
        ((ih₁.append (.sign hlb rfl)).append ih₂).append (.sign hrb rfl)
  | intersection _ ih => simpa [Phrase.write, Form.write] using ih
  | literal => simpa [Phrase.write, Form.write] using Writes.token _
  | this hk => simpa [Phrase.write, Form.write] using Writes.sign hk rfl
  | arrayLit hlb _ hrb ih | mapLit hlb _ hrb ih =>
      simpa [Phrase.write, Form.write] using
        ((Writes.sign hlb rfl).append ih).append (.sign hrb rfl)
  | entry _ hcolon _ ih₁ ih₂ =>
      simpa [Phrase.write, Form.write, put] using
        (ih₁.append (.sign hcolon rfl)).append ih₂
  | funcLit hfn _ _ _ ih₁ ih₂ ih₃ =>
      simpa [Phrase.write, Form.write, put, Written.params] using
        (((Writes.sign hfn rfl).append ih₁).append ih₂).append ih₃
  | handler hless hraw hgreater =>
      simpa [Phrase.write, Form.write] using
        ((Writes.sign hless rfl).append (.of_fits (.one (.raw hraw)))).append
          (.sign hgreater rfl)
  | access _ hdot hname ih =>
      simpa [Phrase.write, Form.write, put, Token.nameNode] using
        (ih.append (.sign hdot rfl)).append (.word hname.isWord)
  | call _ hlp hrp ih =>
      simpa [Phrase.write, Form.write, put, joined] using
        (ih.append (.sign hlp rfl)).append (.sign hrp rfl)
  | callWith _ hlp _ hrp ih₁ ih₂ =>
      simpa [Phrase.write, Form.write, put] using
        ((ih₁.append (.sign hlp rfl)).append ih₂).append (.sign hrp rfl)
  | cast _ has _ ih₁ ih₂ =>
      simpa [Phrase.write, Form.write, put] using (ih₁.append (.sign has rfl)).append ih₂
  | unary hop _ ih =>
      simpa [Phrase.write, Form.write, put] using
        (Writes.sign rfl (Token.Kind.isFixed_of_isUnary hop)).append ih
  | binary _ _ hpos _ _ _ _ _ ih₁ ih₂ =>
      simpa [Phrase.write, Form.write, put] using
        (ih₁.append (.sign rfl (Token.Kind.isFixed_of_level_pos hpos))).append ih₂
  | range _ _ hop _ _ ih₁ ih₂ =>
      simpa [Phrase.write, Form.write, put] using
        (ih₁.append (.of_fits (.one (.rangeSign hop)))).append ih₂
  | instanceOf _ _ hop _ _ ih₁ ih₂ =>
      simpa [Phrase.write, Form.write, put] using (ih₁.append (.sign hop rfl)).append ih₂
  | ternary _ hmark _ hcolon _ ih₁ ih₂ ih₃ =>
      simpa [Phrase.write, Form.write, put] using
        (((ih₁.append (.sign hmark rfl)).append ih₂).append (.sign hcolon rfl)).append ih₃
  | assign _ hop _ ih₁ ih₂ =>
      simpa [Phrase.write, Form.write, put] using
        (ih₁.append (.sign rfl (Token.Kind.isFixed_of_isAssignment hop))).append ih₂
  | param ht _ _ ih₁ ih₂ =>
      simpa [Phrase.write, Form.write, put, Token.nameNode] using
        ((Writes.word (.inl ht)).append ih₁).append ih₂
  | params hlp _ hrp ih =>
      simpa [Phrase.write] using ((Writes.sign hlp rfl).append ih).append (.sign hrp rfl)
  | block hlb _ hrb ih =>
      simpa [Phrase.write, Form.write] using
        ((Writes.sign hlb rfl).append ih).append (.sign hrb rfl)
  | stray hsemi | bodyNone hsemi => exact .sign hsemi rfl
  | varDecl hkw ht _ _ hsemi ih₁ ih₂ =>
      simpa [Phrase.write, Form.write, put, Token.nameNode] using
        ((((Writes.sign rfl (Token.Kind.isFixed_of_declaresVar hkw)).append
          (.word (.inl ht))).append ih₁).append ih₂).append (.sign hsemi rfl)
  | funcDecl hfn ht _ _ _ ih₁ ih₂ ih₃ =>
      simpa [Phrase.write, Form.write, put, Token.nameNode, executable, Written.params] using
        ((((Writes.sign hfn rfl).append (.word (.inl ht))).append ih₁).append ih₂).append ih₃
  | staticFuncDecl hst hfn ht _ _ _ ih₁ ih₂ ih₃ =>
      simpa [Phrase.write, Form.write, put, Token.nameNode, executable, Written.params] using
        (((((Writes.sign hst rfl).append (.sign hfn rfl)).append (.word (.inl ht))).append
          ih₁).append ih₂).append ih₃
  | expandFuncDecl hd hex _ hd' ht _ _ _ ih ih₁ ih₂ ih₃ =>
      simpa [Phrase.write, Form.write, put, Token.nameNode, executable, Written.params] using
        (((((((Writes.sign hd rfl).append (.sign hex rfl)).append ih).append
          (.sign hd' rfl)).append (.word (.inl ht))).append ih₁).append ih₂).append ih₃
  | returnStmt hkw _ hsemi ih =>
      simpa [Phrase.write, Form.write, put] using
        ((Writes.sign hkw rfl).append ih).append (.sign hsemi rfl)
  | branchSome _ ih => simpa [Phrase.write] using Writes.branch (by simpa [Phrase.write] using ih)
  | branchNone h =>
      rcases h.statement_nodes (.inl rfl) with ⟨n, hn⟩ | ⟨-, semi, rfl, hsemi⟩
      · cases hn
      · exact .of_fits (.one (.lone hsemi))
  | ifStmt hkw _ _ _ ih₁ ih₂ ih₃ =>
      simpa [Phrase.write, Form.write, put, Function.comp_def] using
        (((Writes.sign hkw rfl).append ih₁).append ih₂).append ih₃
  | foreachStmt hkw _ hin _ _ ih₁ ih₂ ih₃ =>
      simpa [Phrase.write, Form.write, put] using
        ((((Writes.sign hkw rfl).append ih₁).append (.sign hin rfl)).append ih₂).append ih₃
  | whileStmt hkw _ _ ih₁ ih₂ =>
      simpa [Phrase.write, Form.write, put] using ((Writes.sign hkw rfl).append ih₁).append ih₂
  | breakStmt hkw hsemi | continueStmt hkw hsemi =>
      simpa [Phrase.write, Form.write] using (Writes.sign hkw rfl).append (.sign hsemi rfl)
  | exprStmt _ hsemi ih =>
      simpa [Phrase.write, Form.write, put] using ih.append (.sign hsemi rfl)
  | supersSome hkw hns ih =>
      have hne := hns.separated_ne_nil
      rw [Phrase.write, supers_eq (by simpa using hne)]
      simpa [Phrase.write] using (Writes.sign hkw rfl).append ih
  | classDecl hkw ht _ hlb _ hrb ih₁ ih₂ =>
      have hword := ht.imp_right Token.Kind.isKeyword_of_isPrimitive
      simpa [Phrase.write, Form.write, put, Token.nameNode] using
        (((((Writes.sign hkw rfl).append (.word hword)).append ih₁).append
          (.sign hlb rfl)).append ih₂).append (.sign hrb rfl)
  | memberStatement h _ ih =>
      rcases h.statement_nodes (.inl rfl) with ⟨n, rfl⟩ | ⟨rfl, -⟩
      · simpa [Phrase.write] using ih
      · exact ih
  | constructorDecl hkw _ _ ih₁ ih₂ =>
      simpa [Phrase.write, Form.write, Written.params] using
        ((Writes.sign hkw rfl).append ih₁).append ih₂
  | operatorDecl hkw hsign _ _ _ ih₁ ih₂ ih₃ =>
      simpa [Phrase.write, Form.write, executable, Written.params] using
        ((((Writes.sign hkw rfl).append hsign.writes).append ih₁).append ih₂).append ih₃
  | importing hkw hpath _ hsemi ih =>
      simpa [Phrase.write, Form.write] using
        (((Writes.sign hkw rfl).append hpath.writes).append ih).append (.sign hsemi rfl)

/-! ## Whole scripts -/

theorem Reads.span_eq {p : Phrase} {ts : List Token} {n : Node}
    (hp : p = .statement ∨ p = .importing) (h : Reads p ts [n]) : n.span = .ofTokens ts := by
  rcases hp with rfl | rfl
  · cases h with
    | blockStmt h => cases h; rfl
    | _ => rfl
  · cases h; rfl

/-- An item of a script starts where its first token stands. -/
theorem Reads.start_eq {p : Phrase} {ts : List Token} {n : Node}
    (hp : p = .statement ∨ p = .importing) (h : Reads p ts [n]) :
    ∃ t ∈ ts, n.span.start = t.place := by
  have hne : ts ≠ [] := h.ne_nil (by rcases hp with rfl | rfl <;> rfl)
  obtain ⟨t, rest, rfl⟩ := List.exists_cons_of_ne_nil hne
  refine ⟨t, List.mem_cons_self, ?_⟩
  rw [h.span_eq hp]
  exact Span.start_reaching ..

/-- Items in the order in which they stand in a script: their tokens fit, and
each starts at a token, behind the start of the one before it. -/
structure InOrder (ts : List Token) (items : List Node) : Prop where
  writes : Writes (among (items.map Node.written)) ts
  starts : ∀ n ∈ items, ∃ t ∈ ts, n.span.start = t.place
  sorted : items.Pairwise fun m n => m.span.start.isBefore n.span.start = true

namespace InOrder

variable {ts us : List Token} {items : List Node} {n : Node} {p : Phrase}

theorem nil : InOrder [] [] := ⟨.noStrays, by simp, .nil⟩

theorem stray {semi : Token} (h : InOrder ts items) (hsemi : semi.kind = .semicolon) :
    InOrder (ts ++ [semi]) items := by
  refine ⟨h.writes.stray hsemi, fun m hm => ?_, h.sorted⟩
  obtain ⟨t, ht, hmt⟩ := h.starts m hm
  exact ⟨t, List.mem_append_left _ ht, hmt⟩

theorem snoc (h : InOrder ts items) (hp : p = .statement ∨ p = .importing) (hn : Reads p us [n])
    (hlater : ∀ t ∈ ts, ∀ u ∈ us, t.place.isBefore u.place = true) :
    InOrder (ts ++ us) (items ++ [n]) := by
  obtain ⟨u, hu, hstart⟩ := hn.start_eq hp
  have hwrites : Writes n.written us := by
    rcases hp with rfl | rfl <;> simpa [Phrase.write] using hn.writes
  refine ⟨?_, fun m hm => ?_, ?_⟩
  · simpa [among] using (h.writes.append hwrites).append .noStrays
  · rcases List.mem_append.mp hm with hm | hm
    · obtain ⟨t, ht, hmt⟩ := h.starts m hm
      exact ⟨t, List.mem_append_left us ht, hmt⟩
    · rw [List.mem_singleton.mp hm]
      exact ⟨u, List.mem_append_right ts hu, hstart⟩
  · refine List.pairwise_append.mpr
      ⟨h.sorted, List.pairwise_singleton _ _, fun m hm m' hm' => ?_⟩
    obtain ⟨t, ht, hmt⟩ := h.starts m hm
    rw [List.mem_singleton.mp hm', hmt, hstart]
    exact hlater t ht u hu

/-- Items that start at one place are the same. -/
theorem eq_of_start (h : InOrder ts items) {m n : Node} (hm : m ∈ items) (hn : n ∈ items)
    (hstart : m.span.start = n.span.start) : m = n := by
  let R (m n : Node) : Prop := m.span.start = n.span.start → m = n
  have hR : Std.Symm R := ⟨fun m n hmn heq => (hmn heq.symm).symm⟩
  have hdistinct : items.Pairwise R := by
    refine h.sorted.imp fun {m n} hmn heq => ?_
    rw [heq] at hmn
    exact absurd hmn (Place.isBefore_asymm hmn)
  exact hdistinct.forall_of_forall (fun m _ _ => rfl) hm hn hstart

end InOrder

open scoped List in
/-- The imports and the statements of a script can be put in order. -/
theorem ReadsTopLevel.ordered {ts : List Token} {imports stmts : List Node}
    (h : ReadsTopLevel ts imports stmts)
    (hplaces : ts.Pairwise fun t u => t.place.isBefore u.place = true) :
    ∃ items : List Node, items.Perm (imports ++ stmts) ∧ InOrder ts items := by
  induction h with
  | nil => exact ⟨[], .nil, .nil⟩
  | @importing ts us imports stmts n _ hn ih =>
      obtain ⟨hts, -, hlater⟩ := List.pairwise_append.mp hplaces
      obtain ⟨items, hperm, hitems⟩ := ih hts
      refine ⟨items ++ [n], ?_, hitems.snoc (.inr rfl) hn hlater⟩
      calc items ++ [n]
        _ ~ (imports ++ stmts) ++ [n] := hperm.append_right [n]
        _ = imports ++ (stmts ++ [n]) := List.append_assoc ..
        _ ~ imports ++ ([n] ++ stmts) := List.perm_append_comm.append_left imports
        _ = imports ++ [n] ++ stmts := (List.append_assoc ..).symm
  | @statement ts us imports stmts ns _ hns ih =>
      obtain ⟨hts, -, hlater⟩ := List.pairwise_append.mp hplaces
      obtain ⟨items, hperm, hitems⟩ := ih hts
      rcases hns.statement_nodes (.inl rfl) with ⟨n, rfl⟩ | ⟨rfl, semi, rfl, hsemi⟩
      · refine ⟨items ++ [n], ?_, hitems.snoc (.inl rfl) hns hlater⟩
        rw [← List.append_assoc]
        exact hperm.append_right [n]
      · exact ⟨items, by simpa using hperm, hitems.stray hsemi⟩

/-- A node with what it is written as. -/
def Node.withPieces (n : Node) : Written := ⟨n, n.written⟩

/-- Sorting by place restores the order of a script. -/
theorem mergeSort_startsBy {ts : List Token} {items nodes : List Node} (h : InOrder ts items)
    (hperm : items.Perm nodes) :
    (nodes.map Node.withPieces).mergeSort startsBy = items.map Node.withPieces := by
  have hle : ∀ a b : Written, startsBy a b = true ↔
      ¬ b.node.span.start.isBefore a.node.span.start = true := by
    intro a b
    rw [startsBy, Bool.not_eq_true', Bool.not_eq_true]
  refine @List.Perm.eq_of_pairwise _ (fun a b => startsBy a b = true) _ _ ?_
    (List.pairwise_mergeSort ?_ ?_ _) ?_ ?_
  · -- Two items that start at one place are the same item.
    intro a b ha hb hab hba
    obtain ⟨m, hm, rfl⟩ := List.mem_map.mp
      ((hperm.map Node.withPieces).symm.mem_iff.mp ((List.mergeSort_perm _ _).mem_iff.mp ha))
    obtain ⟨n, hn, rfl⟩ := List.mem_map.mp hb
    rw [hle] at hab hba
    refine congrArg Node.withPieces (h.eq_of_start hm hn ?_)
    exact Place.eq_of_not_isBefore hba hab
  · intro a b c hab hbc
    rw [hle, Place.isBefore_iff] at *
    omega
  · intro a b
    rw [Bool.or_eq_true, hle, hle, Place.isBefore_iff, Place.isBefore_iff]
    omega
  · refine List.pairwise_map.mpr (h.sorted.imp fun {m n} hmn => ?_)
    rw [hle]
    exact Place.isBefore_asymm hmn
  · exact (List.mergeSort_perm _ _).trans (hperm.symm.map _)

theorem ReadsFile.writes {ts : List Token} {eof : Token} {tree : Node}
    (h : ReadsFile ts eof tree)
    (hplaces : ts.Pairwise fun t u => t.place.isBefore u.place = true) :
    Writes tree.written ts := by
  cases h with
  | @intro imports stmts _ htop =>
      obtain ⟨items, hperm, hitems⟩ := htop.ordered hplaces
      have hparts : ((Rule.several .importing imports ++ Rule.several .statement stmts).map
          ofPart).map (·.2) = (imports ++ stmts).map Node.withPieces := by
        simp only [Rule.several, List.map_append, List.map_map]
        rfl
      rw [Node.written_of, Form.write, hparts, mergeSort_startsBy hitems hperm, List.map_map]
      exact hitems.writes

/-! ## Placeholders -/

/-- Does a node of this form only stand for something that is missing? -/
def Form.isPlaceholder : Form → Bool
  | badExpr | badStmt | badType => true
  | ident name => Rule.isPlaceholder name
  | namedType path | importDecl path => path.isEmpty
  | operatorDecl literal => literal.isEmpty
  | _ => false

/-- Stands for something that was there. -/
def Node.IsGenuine (n : Node) : Prop := n.form.isPlaceholder = false

@[simp] theorem Node.isGenuine_of {form : Form} {span : Span} {parts : List (Role × Node)} :
    (Node.of form span parts).IsGenuine ↔ form.isPlaceholder = false := Iff.rfl

@[simp] theorem Node.isGenuine_leaf {form : Form} {span : Span} :
    (Node.leaf form span).IsGenuine ↔ form.isPlaceholder = false := Iff.rfl

theorem Token.Kind.name_genuine (k : Token.Kind) : Rule.isPlaceholder k.name = false := by
  revert k
  decide

theorem Token.nameNode_genuine {t : Token} (hs : t.kind.Spells t.literal)
    (hk : t.kind = .ident ∨ t.kind.isKeyword = true) : t.nameNode.All Node.IsGenuine := by
  rw [nameNode, Node.all_leaf, Node.isGenuine_leaf, Form.isPlaceholder]
  rcases hk with hident | hkeyword
  · obtain ⟨hne, hletters, -⟩ := hs.word hident
    rw [Rule.isPlaceholder, Bool.or_eq_false_iff, beq_eq_false_iff_ne, beq_eq_false_iff_ne]
    refine ⟨hne, fun herror => ?_⟩
    have hless := hletters (byte '<') (by rw [herror]; decide)
    revert hless
    decide
  · rw [hs.fixed (Token.Kind.isFixed_of_isKeyword hkeyword)]
    exact Token.Kind.name_genuine _

theorem OperatorSign.ne_nil {ts : List Token} {literal : Text} (h : OperatorSign ts literal)
    (hs : Spelt ts) : literal ≠ [] := by
  cases h with
  | @plain t hsign =>
      rw [(hs t (List.mem_singleton_self t)).fixed (isFixed_plain hsign)]
      intro hnil
      have hname := t.kind.name_genuine
      rw [hnil] at hname
      cases hname
  | _ => decide

theorem Reads.genuine {p : Phrase} {ts : List Token} {ns : List Node} (h : Reads p ts ns) :
    Spelt ts → ∀ n ∈ ns, n.All Node.IsGenuine := by
  induction h with
  | name hk | ident hk =>
      intro hs n hn
      rw [List.mem_singleton.mp hn]
      exact Token.nameNode_genuine (spelt_cons.mp hs).1 (.inl hk)
  | access _ _ hname =>
      have hword := hname.isWord
      simp_all [Form.isPlaceholder, Token.nameNode_genuine]
  | classDecl _ ht =>
      have hword := ht.imp_right Token.Kind.isKeyword_of_isPrimitive
      simp_all [Form.isPlaceholder, Token.nameNode_genuine, or_imp, forall_and]
  | param | varDecl | funcDecl | staticFuncDecl | expandFuncDecl =>
      simp_all [Form.isPlaceholder, Token.nameNode_genuine, or_imp, forall_and]
  | namedType hpath =>
      simp [Form.isPlaceholder, hpath.importPath.ne_nil]
  | importing _ hpath =>
      simp_all [Form.isPlaceholder, hpath.ne_nil]
  | operatorDecl _ hsign =>
      intro hs
      have hne := hsign.ne_nil (by simp_all)
      simp_all [Form.isPlaceholder, or_imp, forall_and]
  | _ => simp_all [Form.isPlaceholder, or_imp, forall_and]

theorem ReadsFile.genuine {ts : List Token} {eof : Token} {tree : Node}
    (h : ReadsFile ts eof tree) (hs : Spelt ts) : tree.All Node.IsGenuine :=
  h.all (fun _ _ => rfl) fun hp hsub => hp.genuine fun t ht => hs t (hsub ht)

/-! ## Scripts without faults -/

/-- The tree of a script without faults has no placeholder in it, and the tokens
of the script up to its end are those that the tree is written as, apart from
what it does not record. -/
theorem Text.parse_faithful (source : Text) (h : source.parse.2.hasErrors = false) :
    (∀ n ∈ source.parse.1.preorder, n.form.isPlaceholder = false) ∧
      ∃ body eof, Token.scan source = body ++ [eof] ∧ eof.kind = .eof ∧
        Fits source.parse.1.written body := by
  obtain ⟨body, eof, hscan, heof, hspelt, hplaces, htree⟩ := Text.parse_reads h
  exact ⟨htree.genuine hspelt, body, eof, hscan, heof, htree.writes hplaces hspelt⟩

/-- A script with empty branches, a trailing comma, stray semicolons and an import
behind a statement. -/
def mixedScript : Text := txt "if a ; else \x7b ; \x7d f([1, 2,], b to c); ; import x.in as y;"

theorem mixedScript_faithful :
    mixedScript.parse.2.hasErrors = false ∧
      (∀ n ∈ mixedScript.parse.1.preorder, n.form.isPlaceholder = false) ∧
      ∃ body eof, Token.scan mixedScript = body ++ [eof] ∧ eof.kind = .eof ∧
        Fits mixedScript.parse.1.written body :=
  ⟨by decide +kernel, Text.parse_faithful mixedScript (by decide +kernel)⟩

end Zensight
