import Zensight.Proofs.Faithful
import Zensight.Proofs.Spans.Runs

/-!
# The spans of phrases

The tokens of every phrase hold its nodes in a row (`Reads.lays`). A node of most
phrases takes all the tokens of its phrase, which is what its own span and that
of a node around it are made from: an operator spans from the start of its left
operand to the end of its right one.
-/

namespace Zensight

namespace Token

theorem IsNameAfter.ne_illegal {t dot : Token} (h : t.IsNameAfter dot) : t.kind ≠ .illegal := by
  intro hillegal
  rcases h with hk | ⟨hk, -⟩ <;> rw [hillegal] at hk <;> cases hk

/-- A class may also have the name of a builtin type. -/
theorem ne_illegal_of_className {t : Token} (h : t.kind = .ident ∨ t.kind.isPrimitive = true) :
    t.kind ≠ .illegal := by
  intro hillegal
  rcases h with hk | hk <;> rw [hillegal] at hk <;> cases hk

theorem ne_illegal_of_isFixed {t : Token} (h : t.kind.isFixed = true) : t.kind ≠ .illegal := by
  intro hillegal
  rw [hillegal] at h
  cases h

end Token

/-! Names with dots and signs of operators are tokens that no node stands for. -/

theorem ImportPath.row {ts : List Token} {path : List Text} (h : ImportPath ts path) :
    Row ts [] := by
  induction h with
  | one hk => exact .token (by simp [hk])
  | more _ hdot hname ih =>
      exact ih.append ((Row.sign hdot rfl).append (.token hname.ne_illegal))

theorem OperatorSign.row {ts : List Token} {sign : Text} (h : OperatorSign ts sign) :
    Row ts [] := by
  cases h with
  | index hlb hrb => exact (Row.sign hlb rfl).append (.sign hrb rfl)
  | indexSet hlb hrb heq =>
      exact (Row.sign hlb rfl).append ((Row.sign hrb rfl).append (.sign heq rfl))
  | member hdot => exact .sign hdot rfl
  | memberSet hdot heq => exact (Row.sign hdot rfl).append (.sign heq rfl)
  | plain hsign => exact .token (Token.ne_illegal_of_isFixed (isFixed_plain hsign))

/-- Do the nodes of the phrase reach from its first token to its last? -/
def Phrase.isTight : Phrase → Bool
  | params | supers | behind _ _ | commas _ | many _ => false
  | separated _ item => item.isTight
  | _ => true

/-- The tokens of a phrase hold its nodes, and the nodes of a tight one take all
of them. -/
structure Phrase.Lays (p : Phrase) (ts : List Token) (ns : List Node) : Prop where
  row : Lined ts ns
  tight : p.isTight = true → Laid ts → ∀ a ∈ ns.head?, ∀ b ∈ ns.getLast?,
    (Span.between a b).Covers ts

namespace Phrase.Lays

variable {p q : Phrase} {ts us : List Token} {ns : List Node} {m n : Node}

theorem loose (hp : p.isTight = false) (h : Lined ts ns) : p.Lays ts ns :=
  ⟨h, fun htight => by rw [hp] at htight; cases htight⟩

theorem none (h : Lined ts []) : p.Lays ts [] := ⟨h, by simp⟩

/-- A phrase that is one of another kind. -/
theorem retype (h : p.Lays ts ns) (hpq : q.isTight = true → p.isTight = true) : q.Lays ts ns :=
  ⟨h.row, fun hq => h.tight (hpq hq)⟩

theorem covers (h : p.Lays ts [n]) (hp : p.isTight = true) (hl : Laid ts) : n.span.Covers ts :=
  h.tight hp hl n rfl n rfl

variable {form : Form} {span : Span} {parts : List (Role × Node)}

theorem node (h : Lined ts (parts.map (·.2))) (hstands : Node.StandsOn ts (.of form span parts))
    (hform : form ≠ .file) (hspan : Laid ts → span.Covers ts) :
    p.Lays ts [.of form span parts] := by
  refine ⟨⟨h.node hform hspan, h.made.node hstands⟩, fun _ hl a ha b hb => ?_⟩
  obtain rfl : Node.of form span parts = a := by simpa using ha
  obtain rfl : Node.of form span parts = b := by simpa using hb
  exact hspan hl

theorem ofTokens (h : Lined ts (parts.map (·.2)))
    (hstands : Node.StandsOn ts (.of form (.ofTokens ts) parts)) (hne : ts ≠ [])
    (hform : form ≠ .file) : p.Lays ts [.of form (.ofTokens ts) parts] :=
  node h hstands hform fun hl => .ofTokens hl h.firm hne

theorem plain (h : Lined ts (parts.map (·.2))) (hne : ts ≠ []) (hplain : form.isPlain = true)
    (hform : form ≠ .file) : p.Lays ts [.of form (.ofTokens ts) parts] :=
  ofTokens h (.plain hplain) hne hform

/-- A declaration, behind the token that it begins with. -/
theorem led {t : Token} (hled : form.isLed = true) (ht : t.kind ≠ .illegal)
    (h : Lined ts (parts.map (·.2))) :
    p.Lays (t :: ts) [.of form (.ofTokens (t :: ts)) parts] := by
  refine ofTokens ((Lined.token ht).append h) (.led hled ht h.toRow) (by simp) ?_
  rintro rfl
  cases hled

theorem leaf (h : Row ts []) (hstands : Node.StandsOn ts (.leaf form (.ofTokens ts)))
    (hne : ts ≠ []) (hform : form ≠ .file) : p.Lays ts [.leaf form (.ofTokens ts)] := by
  have hparts : Lined ts (([] : List (Role × Node)).map (·.2)) := .ofRow h
  exact ofTokens hparts hstands hne hform

theorem plainLeaf (h : Row ts []) (hne : ts ≠ []) (hplain : form.isPlain = true)
    (hform : form ≠ .file) : p.Lays ts [.leaf form (.ofTokens ts)] := by
  have hstands : Node.StandsOn ts (.of form (.ofTokens ts) []) := .plain hplain
  exact leaf h hstands hne hform

theorem name {t : Token} (h : t.kind ≠ .illegal) : p.Lays [t] [t.nameNode] :=
  plainLeaf (.token h) (by simp) rfl nofun

/-- A node that spans from one operand to another, with one token between them. -/
theorem between {op : Token} (hm : p.Lays ts [m]) (hop : op.kind ≠ .illegal) (hn : q.Lays us [n])
    (hp : p.isTight = true) (hq : q.isTight = true) {p' : Phrase} {role role' : Role}
    (hplain : form.isPlain = true) (hform : form ≠ .file) :
    p'.Lays (ts ++ op :: us) [.of form (.between m n) [(role, m), (role', n)]] := by
  refine node ?_ (.plain hplain) hform fun hl => ?_
  · simpa using (hm.row.append (.token hop)).append hn.row
  · rw [List.append_cons] at hl ⊢
    exact (hm.covers hp hl.left.left).between (hn.covers hq hl.right)

/-- A node that reaches from its first part to a closing token. -/
theorem closed {mid : List Token} {rb : Token} (hm : p.Lays ts [m])
    (hrow : Lined (mid ++ [rb]) ns) (hrb : rb.kind ≠ .illegal) (hp : p.isTight = true)
    {p' : Phrase} (hparts : parts.map (·.2) = m :: ns) (hplain : form.isPlain = true)
    (hform : form ≠ .file) :
    p'.Lays (ts ++ mid ++ [rb])
      [.of form (.reaching m.span.start m.span.start rb.stop) parts] := by
  refine node ?_ (.plain hplain) hform fun hl => ?_
  · rw [hparts, List.append_assoc]
    exact hm.row.append hrow
  · exact (hm.covers hp hl.left.left).reaching hrb hl

end Phrase.Lays

/-- A list of one item or more; its nodes take all tokens if those of the items
do. -/
theorem Phrase.Lays.snoc {sep : Token.Kind} {item : Phrase} {ts us : List Token}
    {ns : List Node} {n : Node} {s : Token} (hns : (separated sep item).Lays ts ns)
    (hne : ns ≠ []) (hs : s.kind ≠ .illegal) (hn : item.Lays us [n]) :
    (separated sep item).Lays (ts ++ s :: us) (ns ++ [n]) := by
  refine ⟨?_, fun htight hl a ha b hb => ?_⟩
  · simpa using (hns.row.append (.token hs)).append hn.row
  · obtain ⟨first, rest, rfl⟩ := List.exists_cons_of_ne_nil hne
    obtain rfl : first = a := by simpa using ha
    obtain rfl : n = b := by
      rw [List.getLast?_concat] at hb
      simpa using hb
    rw [List.append_cons] at hl ⊢
    have hleft := hns.tight htight hl.left.left first rfl (rest.getLast?.getD first)
      List.getLast?_cons
    exact hleft.between (hn.covers htight hl.right)

/-- The tokens of every phrase hold its nodes. -/
theorem Reads.lays {p : Phrase} {ts : List Token} {ns : List Node} (h : Reads p ts ns) :
    p.Lays ts ns := by
  induction h with
  | name hk | ident hk => exact .name (by simp [hk])
  | behindNone | commasNone | manyNone | valueNone | supersNone => exact .none .nil
  | behindSome hk hfixed _ ih => exact .loose rfl ((Lined.sign hk hfixed).append ih.row)
  | separatedOne _ ih => exact ih.retype fun h => h
  | separatedMore hns hsep hfixed _ ih₁ ih₂ =>
      exact ih₁.snoc hns.separated_ne_nil (Token.ne_illegal_of_isFixed (hsep ▸ hfixed)) ih₂
  | commasSome _ ih => exact .loose rfl ih.row
  | commasTrailing _ hcomma ih =>
      exact .loose rfl (by simpa using ih.row.append (.sign hcomma rfl))
  | manyMore _ _ _ ih₁ ih₂ => exact .loose rfl (ih₁.row.append ih₂.row)
  | namedType hpath => exact .plainLeaf hpath.importPath.row hpath.ne_nil rfl nofun
  | primitiveType hk =>
      have hfixed := Token.Kind.isFixed_of_isKeyword (Token.Kind.isKeyword_of_isPrimitive hk)
      exact .plainLeaf (.token (Token.ne_illegal_of_isFixed hfixed)) (by simp) rfl nofun
  | typeName _ ih | typeOne _ ih | suffixedNone _ ih | castNone _ ih | unaryNone _ ih
  | binaryNone _ ih | ternaryNone _ ih | expressionNone _ ih | valueSome _ ih
  | bodySome _ ih | blockStmt _ ih | branchSome _ ih | memberStatement _ _ ih =>
      exact ih.retype fun _ => rfl
  | listType hlb _ hrb ih | paren hlb _ hrb ih | arrayLit hlb _ hrb ih | mapLit hlb _ hrb ih
  | block hlb _ hrb ih =>
      refine .plain ?_ (by simp) rfl nofun
      simpa using ((Lined.sign hlb rfl).append ih.row).append (.sign hrb rfl)
  | funcType hfn hlp _ hrp _ ih₁ ih₂ =>
      refine .plain ?_ (by simp) rfl nofun
      simpa using ((((Lined.sign hfn rfl).append (.sign hlp rfl)).append ih₁.row).append
        (.sign hrp rfl)).append ih₂.row
  | arrayType _ hlb hrb ih =>
      refine .plain ?_ (by simp) rfl nofun
      simpa using (ih.row.append (.sign hlb rfl)).append (.sign hrb rfl)
  | mapType _ hlb _ hrb ih₁ ih₂ =>
      refine .plain ?_ (by simp) rfl nofun
      simpa using ((ih₁.row.append (.sign hlb rfl)).append ih₂.row).append (.sign hrb rfl)
  | @intersection ts first second rest _ ih =>
      refine .node (by simpa using ih.row) (.plain rfl) nofun fun hl => ?_
      refine ih.tight rfl hl first rfl _ ?_
      simp [List.getLast?_cons]
  | literal hk =>
      refine .plainLeaf (.token fun hillegal => ?_) (by simp) rfl nofun
      rw [hillegal] at hk
      cases hk
  | this hk => exact .plainLeaf (.sign hk rfl) (by simp) rfl nofun
  | entry _ hcolon _ ih₁ ih₂ => exact ih₁.between (by simp [hcolon]) ih₂ rfl rfl rfl nofun
  | funcLit hfn _ _ _ ih₁ ih₂ ih₃ =>
      refine .plain ?_ (by simp) rfl nofun
      simpa using (((Lined.sign hfn rfl).append ih₁.row).append ih₂.row).append ih₃.row
  | handler hless hinner hgreater =>
      refine .leaf ⟨fun t ht => ?_, fun _ => .nil⟩ (.handler hless hinner hgreater) (by simp) nofun
      rw [List.getLast?_concat] at ht
      obtain rfl : _ = t := by simpa using ht
      simp [hgreater]
  | @access _ _ _ t _ hdot hname ih =>
      have hn : Phrase.name.Lays [t] [t.nameNode] := .name hname.ne_illegal
      exact ih.between (by simp [hdot]) hn rfl rfl rfl nofun
  | index _ hlb _ hrb ih₁ ih₂ =>
      refine ih₁.closed ?_ (by simp [hrb]) rfl rfl rfl nofun
      simpa using ((Lined.sign hlb rfl).append ih₂.row).append (.sign hrb rfl)
  | call _ hlp hrp ih =>
      rw [List.append_cons]
      have hrow := (Lined.sign hlp rfl).append (.sign hrp rfl)
      exact ih.closed hrow (by simp [hrp]) rfl rfl rfl nofun
  | callWith _ hlp _ hrp ih₁ ih₂ =>
      have hrow := ((Lined.sign hlp rfl).append ih₂.row).append (.sign hrp rfl)
      exact ih₁.closed (by simpa using hrow) (by simp [hrp]) rfl (by simp) rfl nofun
  | cast _ has _ ih₁ ih₂ => exact ih₁.between (by simp [has]) ih₂ rfl rfl rfl nofun
  | unary hop _ ih =>
      refine .plain ?_ (by simp) rfl nofun
      simpa using (Lined.sign rfl (Token.Kind.isFixed_of_isUnary hop)).append ih.row
  | binary _ _ hpos _ _ _ _ _ ih₁ ih₂ =>
      have hop := Token.ne_illegal_of_isFixed (Token.Kind.isFixed_of_level_pos hpos)
      exact ih₁.between hop ih₂ rfl rfl rfl nofun
  | range _ _ hop _ _ ih₁ ih₂ =>
      exact ih₁.between (by rcases hop with hop | hop <;> simp [hop]) ih₂ rfl rfl rfl nofun
  | instanceOf _ _ hop _ _ ih₁ ih₂ => exact ih₁.between (by simp [hop]) ih₂ rfl rfl rfl nofun
  | @ternary cs _ _ _ _ _ _ _ _ hmark _ hcolon _ ih₁ ih₂ ih₃ =>
      refine .node ?_ (.plain rfl) nofun fun hl => ?_
      · simpa using (((ih₁.row.append (.sign hmark rfl)).append ih₂.row).append
          (.sign hcolon rfl)).append ih₃.row
      · rw [List.append_cons, List.append_assoc cs] at hl ⊢
        exact (ih₁.covers rfl hl.left.left).between (ih₃.covers rfl hl.right)
  | assign _ hop _ ih₁ ih₂ =>
      have hop := Token.ne_illegal_of_isFixed (Token.Kind.isFixed_of_isAssignment hop)
      exact ih₁.between hop ih₂ rfl rfl rfl nofun
  | param ht _ _ ih₁ ih₂ =>
      have hrest := ih₁.row.append ih₂.row
      refine .ofTokens ?_ (.param (by simp [ht]) (by simpa using hrest.toRow)) (by simp) nofun
      simpa using (Lined.name (by simp [ht])).append hrest
  | params hlp _ hrp ih =>
      refine .loose rfl ?_
      simpa using ((Lined.sign hlp rfl).append ih.row).append (.sign hrp rfl)
  | stray hsemi | bodyNone hsemi => exact .none (.sign hsemi rfl)
  | varDecl hkw ht _ _ hsemi ih₁ ih₂ =>
      refine .led rfl (Token.ne_illegal_of_isFixed (Token.Kind.isFixed_of_declaresVar hkw)) ?_
      simpa using (((Lined.name (by simp [ht])).append ih₁.row).append ih₂.row).append
        (.sign hsemi rfl)
  | funcDecl hfn ht _ _ _ ih₁ ih₂ ih₃ =>
      refine .led rfl (by simp [hfn]) ?_
      simpa using (((Lined.name (by simp [ht])).append ih₁.row).append ih₂.row).append ih₃.row
  | staticFuncDecl hst hfn ht _ _ _ ih₁ ih₂ ih₃ =>
      refine .led rfl (by simp [hst]) ?_
      simpa using ((((Lined.sign hfn rfl).append (.name (by simp [ht]))).append ih₁.row).append
        ih₂.row).append ih₃.row
  | expandFuncDecl hd hex _ hd' ht _ _ _ ih ih₁ ih₂ ih₃ =>
      refine .led rfl (by simp [hd]) ?_
      simpa using ((((((Lined.sign hex rfl).append ih.row).append (.sign hd' rfl)).append
        (.name (by simp [ht]))).append ih₁.row).append ih₂.row).append ih₃.row
  | returnStmt hkw _ hsemi ih =>
      refine .plain ?_ (by simp) rfl nofun
      simpa using ((Lined.sign hkw rfl).append ih.row).append (.sign hsemi rfl)
  | branchNone hs ih => exact .plainLeaf ih.row.toRow (hs.ne_nil rfl) rfl nofun
  | ifStmt hkw _ _ _ ih₁ ih₂ ih₃ =>
      refine .plain ?_ (by simp) rfl nofun
      simpa using (((Lined.sign hkw rfl).append ih₁.row).append ih₂.row).append ih₃.row
  | foreachStmt hkw _ hin _ _ ih₁ ih₂ ih₃ =>
      refine .plain ?_ (by simp) rfl nofun
      simpa using ((((Lined.sign hkw rfl).append ih₁.row).append (.sign hin rfl)).append
        ih₂.row).append ih₃.row
  | whileStmt hkw _ _ ih₁ ih₂ =>
      refine .plain ?_ (by simp) rfl nofun
      simpa using ((Lined.sign hkw rfl).append ih₁.row).append ih₂.row
  | breakStmt hkw hsemi | continueStmt hkw hsemi =>
      exact .plainLeaf ((Row.sign hkw rfl).append (.sign hsemi rfl)) (by simp) rfl nofun
  | exprStmt _ hsemi ih =>
      refine .plain ?_ (by simp) rfl nofun
      simpa using ih.row.append (.sign hsemi rfl)
  | supersSome hkw _ ih => exact .loose rfl ((Lined.sign hkw rfl).append ih.row)
  | classDecl hkw ht _ hlb _ hrb ih₁ ih₂ =>
      refine .led rfl (by simp [hkw]) ?_
      simpa using ((((Lined.name (Token.ne_illegal_of_className ht)).append ih₁.row).append
        (.sign hlb rfl)).append ih₂.row).append (.sign hrb rfl)
  | constructorDecl hkw _ _ ih₁ ih₂ =>
      refine .led rfl (by simp [hkw]) ?_
      simpa using ih₁.row.append ih₂.row
  | operatorDecl hkw hsign _ _ _ ih₁ ih₂ ih₃ =>
      refine .led rfl (by simp [hkw]) ?_
      simpa using (((Lined.ofRow hsign.row).append ih₁.row).append ih₂.row).append ih₃.row
  | importing hkw hpath _ hsemi ih =>
      refine .led rfl (by simp [hkw]) ?_
      simpa using ((Lined.ofRow hpath.row).append ih.row).append (.sign hsemi rfl)

theorem ReadsTopLevel.made {ts : List Token} {imports stmts : List Node}
    (h : ReadsTopLevel ts imports stmts) : Makes ts imports ∧ Makes ts stmts := by
  induction h with
  | nil => exact ⟨.nil, .nil⟩
  | importing _ hn ih =>
      exact ⟨ih.1.append hn.lays.row.made, ih.2.mono (List.prefix_append _ _).isInfix⟩
  | statement _ hns ih =>
      exact ⟨ih.1.mono (List.prefix_append _ _).isInfix, ih.2.append hns.lays.row.made⟩

/-- The tokens of a script without faults make all its nodes. -/
theorem ReadsFile.made {body : List Token} {eof : Token} {tree : Node}
    (h : ReadsFile body eof tree) : Makes body [tree] := by
  cases h with
  | intro htop =>
      obtain ⟨himports, hstmts⟩ := htop.made
      refine .plain ?_ rfl
      rw [List.map_append, Rule.map_snd_several, Rule.map_snd_several]
      exact List.forall_mem_append.mpr ⟨himports, hstmts⟩

end Zensight
