import Zensight.Proofs.Parsing
import Zensight.Proofs.Spans.Rows

/-!
# The shapes of nodes

Whatever the faults of a script, its tree is put together by the rules of the grammar: a
node has parts in the roles of its form only, an expand function has the type it adds to,
types are made of types, and the variables of a loop are identifiers.

The result of a function type takes all brackets behind it, so none is left for the function
type itself (`Node.BearsSuffix`).
-/

namespace Zensight

/-- The roles that the parts of a node play. -/
def Form.roles : Form → List Role
  | file => [.importing, .statement]
  | importDecl _ => [.localName]
  | varDecl _ => [.name, .type, .value]
  | param => [.name, .type, .fallback]
  | funcDecl _ => [.name, .param, .result, .body]
  | expandFuncDecl => [.target, .name, .param, .result, .body]
  | classDecl => [.name, .super, .member]
  | constructorDecl => [.param, .body]
  | operatorDecl _ | funcLit => [.param, .result, .body]
  | block => [.statement]
  | exprStmt | parenExpr | unaryExpr _ => [.operand]
  | returnStmt => [.value]
  | ifStmt | ternaryExpr => [.condition, .thenBranch, .elseBranch]
  | foreachStmt => [.loopVar, .iterated, .body]
  | whileStmt => [.condition, .body]
  | arrayLit | arrayType | listType => [.element]
  | mapLit => [.entry]
  | mapEntry | mapType => [.key, .value]
  | memberExpr => [.operand, .name]
  | indexExpr => [.operand, .index]
  | callExpr => [.callee, .argument]
  | binaryExpr _ | assignExpr _ => [.left, .right]
  | rangeExpr => [.lower, .upper]
  | instanceOfExpr | castExpr => [.operand, .type]
  | funcType => [.param, .result]
  | intersectionType => [.constituent]
  | _ => []

/-- May a part of a node of this form play the role? -/
def Form.admits (form : Form) (role : Role) : Bool := form.roles.contains role

/-- Can brackets follow the type? Behind a function type they belong to its result, unless that
could not be read. -/
def Node.BearsSuffix (n : Node) : Prop :=
  n.form = .funcType → ∃ bad, (Role.result, bad) ∈ n.parts.toList ∧ bad.form = .badType

/-- What is required of single forms: which parts have to be there, and of what form. -/
def Form.Requires (parts : List (Role × Node)) : Form → Prop
  | file => False
  | expandFuncDecl => ∃ target rest, parts = (Role.target, target) :: rest ∧
    target.form.isType = true
  | listType | funcType | intersectionType => ∀ part ∈ parts, part.2.form.isType = true
  | arrayType | mapType => ∀ part ∈ parts, part.2.form.isType = true ∧
    (part.1 ≠ .key → part.2.BearsSuffix)
  | foreachStmt => ∀ var, (Role.loopVar, var) ∈ parts → ∃ name, var.form = .ident name
  | _ => True

/-- Is it the form of a type that is made of others? -/
def Form.isCompound : Form → Bool
  | arrayType | listType | mapType | funcType | intersectionType => true
  | _ => false

theorem Form.isType_of_requires {form : Form} {parts : List (Role × Node)}
    (hform : form.isCompound = true) (h : form.Requires parts) :
    ∀ part ∈ parts, part.2.form.isType = true := by
  cases form with
  | listType | funcType | intersectionType => exact h
  | arrayType | mapType => exact fun part hpart => (h part hpart).1
  | _ => cases hform

/-- The parts are such as a node of this form has inside a script. -/
structure Form.Fits (form : Form) (parts : List (Role × Node)) : Prop where
  admits : ∀ part ∈ parts, form.admits part.1 = true
  requires : form.Requires parts

/-- All nodes of the tree have the parts that their forms ask for. -/
def Node.Shaped (n : Node) : Prop := n.All fun m => m.form.Fits m.parts.toList

namespace Node

variable {form : Form} {span : Span} {parts : List (Role × Node)}

theorem shaped_of : (Node.of form span parts).Shaped ↔
    form.Fits parts ∧ ∀ part ∈ parts, part.2.Shaped := by
  rw [Shaped, all_of]
  simp only [of, Node.form, Node.parts, Parts.toList_ofList]
  rfl

end Node

/-- The tree of a script is a file, and all below its root has the parts its form asks for. -/
structure Node.IsFile (tree : Node) : Prop where
  form_eq : tree.form = .file
  admits : ∀ part ∈ tree.parts.toList, Form.file.admits part.1 = true
  shaped : ∀ part ∈ tree.parts.toList, part.2.Shaped

theorem Parts.mem_preorder {m : Node} : (ps : Parts) → m ∈ ps.preorder →
    ∃ part ∈ ps.toList, m ∈ part.2.preorder
  | .nil, h => by
    rw [Parts.preorder] at h
    cases h
  | .cons role node rest, h => by
    rw [Parts.preorder, List.mem_append] at h
    rw [Parts.toList]
    rcases h with h | h
    · exact ⟨(role, node), List.mem_cons_self, h⟩
    · obtain ⟨part, hpart, hm⟩ := rest.mem_preorder h
      exact ⟨part, List.mem_cons_of_mem _ hpart, hm⟩

/-- Every node below the root has the parts its form asks for. -/
theorem Node.IsFile.fits {tree m : Node} (h : tree.IsFile) {n : Nat}
    (hm : tree.preorder[n]? = some m) (hn : n ≠ 0) : m.form.Fits m.parts.toList := by
  obtain ⟨form, span, parts⟩ := tree
  obtain ⟨n, rfl⟩ := Nat.exists_eq_succ_of_ne_zero hn
  have hmem : m ∈ parts.preorder := List.mem_of_getElem? hm
  obtain ⟨part, hpart, hm⟩ := parts.mem_preorder hmem
  exact h.shaped part hpart m hm

/-- Every node, the root among them, has its parts in the roles of its form. -/
theorem Node.IsFile.admits_part {tree m : Node} (h : tree.IsFile) {n : Nat}
    (hm : tree.preorder[n]? = some m) {part : Role × Node} (hpart : part ∈ m.parts.toList) :
    m.form.admits part.1 = true := by
  rcases Nat.eq_zero_or_pos n with rfl | hpos
  · obtain ⟨form, span, parts⟩ := tree
    cases hm
    rw [h.form_eq]
    exact h.admits part hpart
  · exact (h.fits hm (Nat.ne_of_gt hpos)).admits part hpart

theorem Node.IsFile.form_eq_file_iff {tree m : Node} (h : tree.IsFile) {n : Nat}
    (hm : tree.preorder[n]? = some m) : m.form = .file ↔ n = 0 := by
  constructor
  · intro hfile
    by_contra hn
    have hrequires := (h.fits hm hn).requires
    rw [hfile] at hrequires
    exact hrequires
  · rintro rfl
    obtain ⟨form, span, parts⟩ := tree
    cases hm
    exact h.form_eq

end Zensight
