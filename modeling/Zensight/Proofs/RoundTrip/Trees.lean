import Zensight.Proofs.Levels
import Zensight.Proofs.RoundTrip.Readers

/-!
# Trees that can be written

The trees that reading gives back: types, and expressions built from names,
literals, `this`, parentheses, array and map literals and all operators. Their
names are no keywords and their operators are of the right kind; how tightly
their parts bind is a matter of `Node.WellLevelled`.

What can stand behind an expression decides where reading it ends. A token that
takes the expression before it as an operand makes something of a certain
tightness of it, and `Token.Kind.grip` is one more than that: a rule for
expressions of tightness `k` and above stops in front of exactly the tokens
whose grip is `k` at most.
-/

namespace Zensight

open Rule (several)

/-- Is it the form of a type that may stand where an intersection may not? -/
def Form.isAtom : Form → Bool
  | intersectionType => false
  | _ => true

/-- May a suffix follow a type of this form? Behind a function type it would
belong to the result. -/
def Form.takesSuffix : Form → Bool
  | intersectionType | funcType => false
  | _ => true

theorem Form.atom_of_takesSuffix {form : Form} (h : form.takesSuffix = true) :
    form.isAtom = true ∧ form ≠ .funcType := by
  constructor
  · cases form <;> first | rfl | cases h
  · rintro rfl
    cases h

/-- The trees of types. -/
inductive IsType : Node → Prop where
  | primitive {kind : Token.Kind} {span : Span} : kind.isPrimitive = true →
      IsType (.leaf (.primitiveType kind) span)
  | named {path : List Text} {span : Span} : path ≠ [] →
      (∀ segment ∈ path, Token.Kind.ofWord segment = .ident) →
      IsType (.leaf (.namedType path) span)
  | list {e : Node} {span : Span} : IsType e → IsType (.of .listType span [(.element, e)])
  | func {params : List Node} {result : Node} {span : Span} :
      (∀ p ∈ params, IsType p) → IsType result → result.form.isAtom = true →
      IsType (.of .funcType span (several .param params ++ [(.result, result)]))
  | array {e : Node} {span : Span} : IsType e → e.form.takesSuffix = true →
      IsType (.of .arrayType span [(.element, e)])
  | map {v k : Node} {span : Span} : IsType v → v.form.takesSuffix = true → IsType k →
      IsType (.of .mapType span [(.value, v), (.key, k)])
  | intersection {first second : Node} {rest : List Node} {span : Span} :
      (∀ t ∈ first :: second :: rest, IsType t) →
      (∀ t ∈ first :: second :: rest, t.form.isAtom = true) →
      IsType (.of .intersectionType span (several .constituent (first :: second :: rest)))

/-- An entry of a map literal. -/
def Node.entry (span : Span) (key value : Node) : Node :=
  .of .mapEntry span [(.key, key), (.value, value)]

/-- The trees of expressions without function literals and bracket handlers. -/
inductive IsExpression : Node → Prop where
  | ident {name : Text} {span : Span} : Token.Kind.ofWord name = .ident →
      IsExpression (.leaf (.ident name) span)
  | literal {kind : Token.Kind} {text : Text} {span : Span} : kind.isLiteral = true →
      IsExpression (.leaf (.basicLit kind text) span)
  | this {span : Span} : IsExpression (.leaf .thisExpr span)
  | paren {e : Node} {span : Span} : IsExpression e →
      IsExpression (.of .parenExpr span [(.operand, e)])
  | array {es : List Node} {span : Span} : (∀ e ∈ es, IsExpression e) →
      IsExpression (.of .arrayLit span (several .element es))
  | map {entries : List (Span × Node × Node)} {span : Span} :
      (∀ x ∈ entries, IsExpression x.2.1) → (∀ x ∈ entries, IsExpression x.2.2) →
      IsExpression (.of .mapLit span
        (several .entry (entries.map fun x => .entry x.1 x.2.1 x.2.2)))
  | member {e : Node} {name : Text} {span span' : Span} : IsExpression e →
      Token.Kind.ofWord name = .ident →
      IsExpression (.of .memberExpr span [(.operand, e), (.name, .leaf (.ident name) span')])
  | index {e i : Node} {span : Span} : IsExpression e → IsExpression i →
      IsExpression (.of .indexExpr span [(.operand, e), (.index, i)])
  | call {e : Node} {args : List Node} {span : Span} : IsExpression e →
      (∀ a ∈ args, IsExpression a) →
      IsExpression (.of .callExpr span ([(.callee, e)] ++ several .argument args))
  | cast {e t : Node} {span : Span} : IsExpression e → IsType t → t.form.isAtom = true →
      IsExpression (.of .castExpr span [(.operand, e), (.type, t)])
  | unary {op : Token.Kind} {e : Node} {span : Span} : op.isUnary = true → IsExpression e →
      IsExpression (.of (.unaryExpr op) span [(.operand, e)])
  | binary {op : Token.Kind} {l r : Node} {span : Span} : 0 < op.level → op ≠ .kwInstanceof →
      op ≠ .dotDot → op ≠ .kwTo → IsExpression l → IsExpression r →
      IsExpression (.of (.binaryExpr op) span [(.left, l), (.right, r)])
  | range {l r : Node} {span : Span} : IsExpression l → IsExpression r →
      IsExpression (.of .rangeExpr span [(.lower, l), (.upper, r)])
  | instanceOf {e t : Node} {span : Span} : IsExpression e → IsType t → t.form.isAtom = true →
      IsExpression (.of .instanceOfExpr span [(.operand, e), (.type, t)])
  | ternary {c y n : Node} {span : Span} : IsExpression c → IsExpression y → IsExpression n →
      IsExpression (.of .ternaryExpr span
        [(.condition, c), (.thenBranch, y), (.elseBranch, n)])
  | assign {op : Token.Kind} {l r : Node} {span : Span} : op.isAssignment = true →
      IsExpression l → IsExpression r →
      IsExpression (.of (.assignExpr op) span [(.left, l), (.right, r)])

/-! ## How they are written -/

namespace Node

open Piece Written

variable {span span' : Span} {e i t l r c y n k v : Node} {es : List Node} {op : Token.Kind}
  {name : Text}

theorem written_listType : (Node.of .listType span [(.element, e)]).written =
    sign .lbracket ++ (e.written ++ sign .rbracket) := by
  simp [Form.write, put]

theorem written_funcType : (Node.of .funcType span (several .param es ++ [(.result, t)])).written =
    sign .kwFunction ++
      (sign .lparen ++ (commas (es.map written) ++ (sign .rparen ++ t.written))) := by
  simp [Form.write, put]

theorem written_arrayType : (Node.of .arrayType span [(.element, e)]).written =
    e.written ++ (sign .lbracket ++ sign .rbracket) := by
  simp [Form.write, put]

theorem written_mapType : (Node.of .mapType span [(.value, v), (.key, k)]).written =
    v.written ++ (sign .lbracket ++ (k.written ++ sign .rbracket)) := by
  simp [Form.write, put]

theorem written_intersectionType :
    (Node.of .intersectionType span (several .constituent (e :: es))).written =
      e.written ++ (es.map written).flatMap (sign .amp ++ ·) := by
  rw [written_of, Form.write, each_several, if_pos rfl, List.map_cons, joined_cons]

theorem written_parenExpr : (Node.of .parenExpr span [(.operand, e)]).written =
    sign .lparen ++ (e.written ++ sign .rparen) := by
  simp [Form.write, put]

theorem written_arrayLit : (Node.of .arrayLit span (several .element es)).written =
    sign .lbracket ++ (commas (es.map written) ++ sign .rbracket) := by
  simp [Form.write]

theorem written_mapLit : (Node.of .mapLit span (several .entry es)).written =
    sign .lbrace ++ (commas (es.map written) ++ sign .rbrace) := by
  simp [Form.write]

theorem written_entry : (Node.entry span k v).written =
    k.written ++ (sign .colon ++ v.written) := by
  simp [Node.entry, Form.write, put]

theorem written_memberExpr :
    (Node.of .memberExpr span [(.operand, e), (.name, .leaf (.ident name) span')]).written =
      e.written ++ (sign .dot ++ word name) := by
  simp [Form.write, put]

theorem written_indexExpr : (Node.of .indexExpr span [(.operand, e), (.index, i)]).written =
    e.written ++ (sign .lbracket ++ (i.written ++ sign .rbracket)) := by
  simp [Form.write, put]

theorem written_callExpr :
    (Node.of .callExpr span ([(.callee, e)] ++ several .argument es)).written =
      e.written ++ (sign .lparen ++ (joined .comma (es.map written) ++ sign .rparen)) := by
  simp [Form.write, put]

theorem written_castExpr : (Node.of .castExpr span [(.operand, e), (.type, t)]).written =
    e.written ++ (sign .kwAs ++ t.written) := by
  simp [Form.write, put]

theorem written_unaryExpr : (Node.of (.unaryExpr op) span [(.operand, e)]).written =
    sign op ++ e.written := by
  simp [Form.write, put]

theorem written_binaryExpr : (Node.of (.binaryExpr op) span [(.left, l), (.right, r)]).written =
    l.written ++ (sign op ++ r.written) := by
  simp [Form.write, put]

theorem written_rangeExpr : (Node.of .rangeExpr span [(.lower, l), (.upper, r)]).written =
    l.written ++ ([.rangeSign] ++ r.written) := by
  simp [Form.write, put]

theorem written_instanceOfExpr :
    (Node.of .instanceOfExpr span [(.operand, e), (.type, t)]).written =
      e.written ++ (sign .kwInstanceof ++ t.written) := by
  simp [Form.write, put]

theorem written_ternaryExpr :
    (Node.of .ternaryExpr span [(.condition, c), (.thenBranch, y), (.elseBranch, n)]).written =
      c.written ++ (sign .question ++ (y.written ++ (sign .colon ++ n.written))) := by
  simp [Form.write, put]

theorem written_assignExpr : (Node.of (.assignExpr op) span [(.left, l), (.right, r)]).written =
    l.written ++ (sign op ++ r.written) := by
  simp [Form.write, put]

end Node

/-- One more than the tightness of what a token makes of the expression before
it; 0 if it makes nothing of it. -/
def Token.Kind.grip (kind : Token.Kind) : Nat :=
  match kind with
  | .dot | .lbracket | .lparen => 14
  | .kwAs => 13
  | .question => 2
  | _ => if kind.isAssignment then 1 else if kind.level = 0 then 0 else kind.level + 2

namespace Token.Kind

variable {k : Kind}

theorem level_ne {m : Nat} (h : 9 < m) : k.level ≠ m :=
  Nat.ne_of_lt (Nat.lt_of_le_of_lt k.level_le h)

theorem grip_of_level_pos (h : 0 < k.level) : k.grip = k.level + 2 := by
  revert k
  decide

theorem grip_of_isAssignment (h : k.isAssignment = true) : k.grip = 1 := by
  revert k
  decide

theorem ne_of_grip_le_thirteen (h : k.grip ≤ 13) : k ≠ .dot ∧ k ≠ .lbracket ∧ k ≠ .lparen := by
  refine ⟨?_, ?_, ?_⟩ <;> rintro rfl <;> exact absurd h (by decide)

theorem ne_of_grip_le_twelve (h : k.grip ≤ 12) : k ≠ .kwAs := by
  rintro rfl
  exact absurd h (by decide)

theorem ne_of_grip_le_one (h : k.grip ≤ 1) : k ≠ .question := by
  rintro rfl
  exact absurd h (by decide)

theorem level_of_grip_le {least : Nat} (h : k.grip ≤ least + 1) :
    k.level = 0 ∨ k.level < least := by
  by_cases hpos : 0 < k.level
  · rw [grip_of_level_pos hpos] at h
    omega
  · omega

theorem not_isAssignment_of_grip_eq_zero (h : k.grip ≤ 0) : ¬ k.isAssignment = true := by
  intro hassign
  rw [grip_of_isAssignment hassign] at h
  omega

end Token.Kind

end Zensight
