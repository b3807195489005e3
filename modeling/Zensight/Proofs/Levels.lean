import Zensight.Proofs.Parsing

/-!
# Precedence

An expression is well levelled when each of its parts binds as tightly as its
place demands: a right operand more tightly than its operator, a left operand at
least as tightly, a receiver like an access, and so on. `Form.bound` is the table
of these demands.

The rules of reading meet all of them but one. Behind the type of an
`instanceof` they go on with operators of every level, since nothing is left to
read at the level of its right side. So an `instanceof` may end up as the left
operand of an operator that binds more tightly: `a instanceof T + b` is read as
a sum. `Text.parse_wellLevelled_iff` says that this is the only way in which a
script without faults holds a node that is not well levelled.
-/

namespace Zensight

/-- How tightly a part of a node has to bind at least, by the role it plays. -/
def Form.bound (form : Form) (role : Role) : Nat :=
  match form, role with
  | .binaryExpr _, .left | .rangeExpr, .lower | .instanceOfExpr, .operand
  | .unaryExpr _, .operand | .castExpr, .operand
  | .memberExpr, .operand | .indexExpr, .operand | .callExpr, .callee => form.tightness
  | .binaryExpr _, .right | .rangeExpr, .upper => form.tightness + 1
  | .ternaryExpr, .condition => Form.ternaryExpr.tightness + 1
  | .ternaryExpr, .thenBranch | .ternaryExpr, .elseBranch | .mapEntry, .key | .mapEntry, .value
  | .param, .fallback | .assignExpr _, .left => Form.ternaryExpr.tightness
  | _, _ => 0

/-- Does a node of this form demand anything of its parts? -/
def Form.demands : Form → Bool
  | binaryExpr _ | rangeExpr | instanceOfExpr | unaryExpr _ | castExpr | memberExpr | indexExpr
  | callExpr | ternaryExpr | mapEntry | param | assignExpr _ => true
  | _ => false

theorem Form.bound_eq_zero {form : Form} (h : ¬ form.demands) (role : Role) :
    form.bound role = 0 := by
  cases form <;> first | rfl | exact absurd rfl h

namespace Node

/-- Do the parts of the node bind as tightly as their places demand? -/
def WellLevelled (n : Node) : Prop :=
  ∀ role, ∀ part ∈ n.parts.all role, n.form.bound role ≤ part.form.tightness

/-- Is the node an operator above the level of `instanceof` with an `instanceof`
as its left operand? -/
def Oversteps (n : Node) : Prop :=
  (∃ op, n.form = .binaryExpr op ∧ Token.Kind.kwInstanceof.level < op.level ∧
    ∃ left ∈ n.parts.all .left, left.form = .instanceOfExpr) ∨
  (n.form = .rangeExpr ∧ ∃ left ∈ n.parts.all .lower, left.form = .instanceOfExpr)

end Node

section

variable {form : Form} {span : Span} {parts : List (Role × Node)}

@[simp] theorem Parts.mem_all_ofList {role : Role} {n : Node} :
    n ∈ (Parts.ofList parts).all role ↔ (role, n) ∈ parts := by
  induction parts with
  | nil => simp [Parts.ofList, Parts.all]
  | cons part parts ih =>
      obtain ⟨other, m⟩ := part
      rw [Parts.ofList, Parts.all]
      by_cases h : other = role
      · simp [h, ih]
      · simp [h, ih, Ne.symm h]

@[simp] theorem Node.wellLevelled_of : (Node.of form span parts).WellLevelled ↔
    ∀ part ∈ parts, form.bound part.1 ≤ part.2.form.tightness := by
  simp only [WellLevelled, of, Node.parts, Node.form, Parts.mem_all_ofList, Prod.forall]

theorem Node.wellLevelled_leaf : (Node.leaf form span).WellLevelled := by
  intro role part hpart
  cases hpart

theorem Node.wellLevelled_of_demands (h : ¬ form.demands) :
    (Node.of form span parts).WellLevelled := by
  intro role part _
  exact Nat.le_trans (Nat.le_of_eq (Form.bound_eq_zero h role)) (Nat.zero_le _)

/-- Only an operator whose left operand binds too loosely oversteps. -/
theorem Node.WellLevelled.not_oversteps {n : Node} (h : n.WellLevelled) : ¬ n.Oversteps := by
  rintro (⟨op, hform, hlevel, left, hleft, hinstance⟩ | ⟨hform, left, hleft, hinstance⟩)
  · have hbound := h .left left hleft
    rw [hform, hinstance] at hbound
    exact absurd hlevel (Nat.not_lt_of_le (Nat.le_of_succ_le_succ hbound))
  · have hbound := h .lower left hleft
    rw [hform, hinstance] at hbound
    exact absurd hbound (by decide)

end

/-- A node as reading leaves it: well levelled unless it oversteps. -/
structure Node.Settled (n : Node) : Prop where
  wellLevelled_iff : n.WellLevelled ↔ ¬ n.Oversteps

namespace Node

variable {form : Form} {span : Span} {parts : List (Role × Node)} {l r : Node}

theorem WellLevelled.settled {n : Node} (h : n.WellLevelled) : n.Settled :=
  ⟨fun _ => h.not_oversteps, fun _ => h⟩

theorem settled_leaf : (Node.leaf form span).Settled := wellLevelled_leaf.settled

theorem settled_of_demands (h : ¬ form.demands) : (Node.of form span parts).Settled :=
  (wellLevelled_of_demands h).settled

/-- A node whose parts bind as tightly as they have to, by what is known of its
parts. -/
theorem all_settled (hbounds : ∀ part ∈ parts, form.bound part.1 ≤ part.2.form.tightness)
    (hparts : ∀ part ∈ parts, part.2.All Settled) :
    ∀ n ∈ [Node.of form span parts], n.All Settled :=
  List.forall_mem_singleton.mpr (all_of.mpr ⟨(wellLevelled_of.mpr hbounds).settled, hparts⟩)

theorem settled_binary {op : Token.Kind} (hl : l.Admits op.level)
    (hr : op.level + 2 ≤ r.form.tightness) :
    (Node.of (.binaryExpr op) span [(.left, l), (.right, r)]).Settled := by
  by_cases hleft : op.level < l.form.tightness
  · refine WellLevelled.settled (wellLevelled_of.mpr ?_)
    exact List.forall_mem_cons.mpr ⟨hleft, List.forall_mem_singleton.mpr hr⟩
  · have hinstance : l.form = .instanceOfExpr := hl.resolve_right hleft
    have hover : (Node.of (.binaryExpr op) span [(.left, l), (.right, r)]).Oversteps := by
      refine .inl ⟨op, rfl, ?_, l, by simp [of, Node.parts], hinstance⟩
      rw [hinstance] at hleft
      exact Nat.lt_of_succ_le (Nat.le_of_not_lt hleft)
    exact ⟨fun h => h.not_oversteps, fun h => absurd hover h⟩

theorem settled_range (hl : l.Admits 7) (hr : 9 ≤ r.form.tightness) :
    (Node.of .rangeExpr span [(.lower, l), (.upper, r)]).Settled := by
  by_cases hleft : 7 < l.form.tightness
  · refine WellLevelled.settled (wellLevelled_of.mpr ?_)
    exact List.forall_mem_cons.mpr ⟨hleft, List.forall_mem_singleton.mpr hr⟩
  · have hinstance : l.form = .instanceOfExpr := hl.resolve_right hleft
    have hover : (Node.of .rangeExpr span [(.lower, l), (.upper, r)]).Oversteps :=
      .inr ⟨rfl, l, by simp [of, Node.parts], hinstance⟩
    exact ⟨fun h => h.not_oversteps, fun h => absurd hover h⟩

end Node

/-! ## What reading settles -/

theorem Reads.tight {p : Phrase} {ts : List Token} {n : Node} (h : Reads p ts [n]) :
    p.tightness ≤ n.form.tightness :=
  h.tightness_le n (List.mem_singleton_self n)

/-- Every node of every phrase is well levelled unless it oversteps. -/
theorem Reads.settled {p : Phrase} {ts : List Token} {ns : List Node} (h : Reads p ts ns) :
    ∀ n ∈ ns, n.All Node.Settled := by
  induction h with
  | @binary _ _ _ _ _ op _ hl _ _ _ _ _ h₂ =>
      have hr := h₂.tight
      have hlevel := op.kind.level_le
      rw [Phrase.tightness, Nat.min_eq_left (by omega)] at hr
      simp_all [Node.settled_binary hl hr]
  | range _ hl hop _ h₂ =>
      have hlevel : ∀ {k : Token.Kind}, k = .dotDot ∨ k = .kwTo → k.level = 7 := by
        rintro k (rfl | rfl) <;> rfl
      rw [hlevel hop] at hl
      simp_all [Node.settled_range hl h₂.tight]
  | instanceOf _ hl hop =>
      -- An `instanceof` may be the operand of another: they are of one level.
      have hoperand := hl.elim (fun h => Nat.le_of_eq (congrArg Form.tightness h).symm) (hop ▸ id)
      exact Node.all_settled (List.forall_mem_cons.mpr ⟨hoperand, by simp [Form.bound]⟩)
        (by simp_all)
  | entry h₁ _ h₂ =>
      refine Node.all_settled (List.forall_mem_cons.mpr ⟨h₁.tight, ?_⟩) (by simp_all)
      exact List.forall_mem_singleton.mpr h₂.tight
  | ternary h₁ _ h₂ _ h₃ =>
      refine Node.all_settled (List.forall_mem_cons.mpr ⟨h₁.tight, ?_⟩) (by simp_all)
      exact List.forall_mem_cons.mpr ⟨h₂.tight, List.forall_mem_singleton.mpr h₃.tight⟩
  | access h₁ | index h₁ | call h₁ | cast h₁ | assign h₁ | unary _ h₁ =>
      refine Node.all_settled (List.forall_mem_cons.mpr ⟨h₁.tight, by simp [Form.bound]⟩) ?_
      simp_all [Node.settled_leaf, Token.nameNode]
  | callWith h₁ =>
      refine Node.all_settled (List.forall_mem_cons.mpr ⟨h₁.tight, ?_⟩) (by simp_all)
      exact Rule.forall_mem_several.mpr fun _ _ => Nat.zero_le _
  | param _ _ hf =>
      refine Node.all_settled (List.forall_mem_append.mpr ⟨?_, ?_⟩) ?_
      · exact List.forall_mem_cons.mpr
          ⟨Nat.zero_le _, Rule.forall_mem_several.mpr fun _ _ => Nat.zero_le _⟩
      · exact Rule.forall_mem_several.mpr hf.tightness_le
      · simp_all [Node.settled_leaf, Token.nameNode, or_imp, forall_and]
  | _ =>
      simp_all [Node.settled_leaf, Node.settled_of_demands, Form.demands, Token.nameNode, or_imp,
        forall_and]

theorem ReadsFile.settled {ts : List Token} {eof : Token} {tree : Node}
    (h : ReadsFile ts eof tree) : tree.All Node.Settled :=
  h.all (fun _ _ => Node.settled_of_demands (by decide)) fun hp _ => hp.settled

/-- In a script without faults a node is well levelled unless it is an operator
that binds more tightly than the `instanceof` to its left. -/
theorem Text.parse_wellLevelled_iff {source : Text} {n : Node}
    (h : source.parse.2.hasErrors = false) (hn : n ∈ source.parse.1.preorder) : n.WellLevelled ↔ ¬ n.Oversteps := by
  obtain ⟨body, eof, -, -, -, -, htree⟩ := Text.parse_reads h
  exact (htree.settled n hn).wellLevelled_iff

end Zensight
