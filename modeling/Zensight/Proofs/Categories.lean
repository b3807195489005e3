import Zensight.Proofs.Shapes
import Zensight.Query.Hover

/-!
# Syntactic categories

Which forms can stand in which role. A member of a class is a field, a function, a constructor or
an operator, an operand is an expression, and so on; the role and the form of the node around it
tell the category that a part belongs to (`Form.expects`). It makes no difference whether the
script has faults: a placeholder belongs to the category of what is missing. A category of names
also tells how they are spelled.

A rule returns a phrase of its category (`Node.IsA`): its tree is sorted, it has the shape that the
forms of its nodes ask for, and none of them ends before it starts.
-/

namespace Zensight

/-- The kinds of phrases that parts stand for. -/
inductive Category where
  | importing | statement | member | expression | type
  | name | className | memberName
  | param | block | entry
  deriving DecidableEq, Repr

namespace Form

def isStatement : Form → Bool
  | varDecl _ | funcDecl _ | expandFuncDecl | classDecl | block | exprStmt | returnStmt | ifStmt
  | foreachStmt | whileStmt | breakStmt | continueStmt | badStmt => true
  | _ => false

/-- May it stand in the body of a class? -/
def isClassMember : Form → Bool
  | varDecl _ | funcDecl _ | constructorDecl | operatorDecl _ | badStmt => true
  | _ => false

/-- The category of a part by its role. -/
def expects (owner : Form) : Role → Category
  | .importing => .importing
  | .statement => .statement
  | .localName | .loopVar => .name
  | .name =>
    match owner with
    | memberExpr => .memberName
    | classDecl => .className
    | _ => .name
  | .type | .target | .result | .super | .constituent => .type
  | .param =>
    match owner with
    | funcType => .type
    | _ => .param
  | .value | .key | .element =>
    match owner with
    | arrayType | listType | mapType => .type
    | _ => .expression
  | .thenBranch | .elseBranch =>
    match owner with
    | ifStmt => .statement
    | _ => .expression
  | .body => .block
  | .member => .member
  | .entry => .entry
  | .fallback | .condition | .iterated | .operand | .index | .callee | .argument | .left | .right
  | .lower | .upper => .expression

end Form

/-- A name that a script gives: an identifier, or the placeholder for a missing one. -/
def Text.IsGiven (w : Text) : Prop := Token.Kind.ident.Spells w ∨ w = Rule.missingName

/-- The forms of a category. -/
def Form.BelongsTo (form : Form) : Category → Prop
  | .importing => ∃ path, form = importDecl path
  | .statement => form.isStatement = true
  | .member => form.isClassMember = true
  | .expression => form.isExpression = true ∧ ∀ w, form = ident w → Token.Kind.ident.Spells w
  | .type => form.isType = true
  | .name => ∃ w, form = ident w ∧ w.IsGiven
  | .className => ∃ w, form = ident w ∧
    (w.IsGiven ∨ ∃ k : Token.Kind, k.isPrimitive = true ∧ w = k.name)
  | .memberName => ∃ w, form = ident w
  | .param => form = param
  | .block => form = block
  | .entry => form = mapEntry

theorem Form.BelongsTo.exists_ident {form owner : Form} {role : Role}
    (h : form.BelongsTo (owner.expects role)) (hrole : role = .name ∨ role = .localName) :
    ∃ w, form = .ident w := by
  rcases hrole with rfl | rfl
  · cases owner with
    | memberExpr => exact h
    | _ =>
        obtain ⟨w, hw, -⟩ := h
        exact ⟨w, hw⟩
  · obtain ⟨w, hw, -⟩ := h
    exact ⟨w, hw⟩

/-- Imports and members are what the roles of that name are for. -/
theorem Form.role_of_expects {owner : Form} {role : Role} :
    (owner.expects role = .importing → role = .importing) ∧
    (owner.expects role = .member → role = .member) := by
  cases role with
  | importing | member => simp [expects]
  | name | param | value | key | element | thenBranch | elseBranch =>
      simp only [expects]
      split <;> simp
  | _ => simp [expects]

theorem Form.eq_file {form : Form} (h : form.admits .importing = true) : form = .file := by
  cases form with
  | file => rfl
  | _ => simp [Form.admits, Form.roles] at h

theorem Form.eq_classDecl {form : Form} (h : form.admits .member = true) : form = .classDecl := by
  cases form with
  | classDecl => rfl
  | _ => simp [Form.admits, Form.roles] at h

theorem Form.BelongsTo.eq_importing {path : List Text} {c : Category}
    (h : (importDecl path).BelongsTo c) : c = .importing := by
  cases c with
  | importing => rfl
  | expression => cases h.1
  | name | className =>
      obtain ⟨w, hw, -⟩ := h
      cases hw
  | memberName =>
      obtain ⟨w, hw⟩ := h
      cases hw
  | _ => cases h

/-- Constructors and operator functions stand in the bodies of classes alone. -/
theorem Form.BelongsTo.eq_member {form : Form} {c : Category} (h : form.BelongsTo c)
    (hform : form = .constructorDecl ∨ ∃ sign, form = .operatorDecl sign) : c = .member := by
  rcases hform with rfl | ⟨sign, rfl⟩ <;> cases c with
  | member => rfl
  | expression => cases h.1
  | name | className =>
      obtain ⟨w, hw, -⟩ := h
      cases hw
  | memberName | importing =>
      obtain ⟨w, hw⟩ := h
      cases hw
  | _ => cases h

/-- The parts of every node of the tree belong to the categories that their roles ask for. -/
def Node.Sorted (n : Node) : Prop :=
  n.All fun m => ∀ part ∈ m.parts.toList, part.2.form.BelongsTo (m.form.expects part.1)

/-! ## Spans that do not end before they start -/

/-- Does not end before it starts. -/
def Span.IsForward (span : Span) : Prop := span.start ≤ span.stop

theorem Span.reaching_forward {start stop : Place} (h : start ≤ stop) (last : Place) :
    (Span.reaching start stop last).IsForward := by
  rw [Span.reaching]
  split
  · exact h
  · next hlater =>
      show start ≤ last
      rw [Place.le_iff]
      omega

/-- No node of the tree ends before it starts. -/
def Node.Forward (n : Node) : Prop := n.All fun m => m.span.IsForward

namespace Node

variable {form : Form} {span : Span} {parts : List (Role × Node)}

theorem forward_of : (Node.of form span parts).Forward ↔
    span.IsForward ∧ ∀ part ∈ parts, part.2.Forward := all_of

end Node

/-! ## Phrases of a category -/

/-- A phrase of the category. -/
structure Node.IsA (n : Node) (c : Category) : Prop where
  belongs : n.form.BelongsTo c
  sorted : n.Sorted
  shaped : n.Shaped
  forward : n.Forward

/-- Parts of the categories that a form asks for, in roles that it has. -/
def Filling (form : Form) (parts : List (Role × Node)) : Prop :=
  ∀ part ∈ parts, form.admits part.1 = true ∧ part.2.IsA (form.expects part.1)

namespace Filling

variable {form : Form} {role : Role} {span : Span} {parts : List (Role × Node)} {c : Category}

theorem nil : Filling form [] := by simp [Filling]

theorem cons {n : Node} (hrole : form.admits role = true) (hn : n.IsA (form.expects role))
    (h : Filling form parts) : Filling form ((role, n) :: parts) :=
  List.forall_mem_cons.mpr ⟨⟨hrole, hn⟩, h⟩

/-- A type that is made of others is made of types. -/
theorem areTypes (h : Filling form parts) (hform : form.isCompound = true) :
    ∀ part ∈ parts, part.2.form.isType = true := by
  intro part hpart
  obtain ⟨hrole, hbelongs⟩ := h part hpart
  have hexpects : form.expects part.1 = .type := by
    generalize part.1 = role at hrole
    cases form <;> cases hform <;> cases role <;> first | rfl | cases hrole
  rw [hexpects] at hbelongs
  exact hbelongs.belongs

theorem sorted_of (h : Filling form parts) : (Node.of form span parts).Sorted := by
  refine Node.all_of.mpr ⟨?_, fun part hpart => (h part hpart).2.sorted⟩
  simp only [Node.of, Node.form, Node.parts, Parts.toList_ofList]
  exact fun part hpart => (h part hpart).2.belongs

theorem forward_of (h : Filling form parts) (hspan : span.IsForward) :
    (Node.of form span parts).Forward :=
  Node.forward_of.mpr ⟨hspan, fun part hpart => (h part hpart).2.forward⟩

theorem node (h : Filling form parts) (hspan : span.IsForward) (hform : form.BelongsTo c)
    (hrequires : form.Requires parts) : (Node.of form span parts).IsA c :=
  ⟨hform, h.sorted_of, Node.shaped_of.mpr ⟨⟨fun part hpart => (h part hpart).1, hrequires⟩,
    fun part hpart => (h part hpart).2.shaped⟩, h.forward_of hspan⟩

end Filling

end Zensight
