import Zensight.Proofs.Scoping

/-!
# The symbols of nodes

The walk over a tree notes a symbol for each node that declares one, whether or not a scope holds
it too. A node is walked once, and what it declares is told by its form and its parts
(`Node.symbol?`), so afterwards the table has under the number of a node what the node declares
(`Bindings.Noted`), and nothing else.
-/

namespace Zensight

/-- The symbol that a node declares, if it plays `role` and has the number `id`. -/
def Node.symbol? (package : Text) (role : Role) (id : NodeId) : Node → Option Declaration
  | .mk form span parts =>
    match form with
    | .expandFuncDecl =>
      some
        { name := parts.declaredName, kind := .expand, node := id,
          detail := .expand ((parts.idOf? .target (id + 1)).getD id) parts.requiredParams }
    | .constructorDecl =>
      some
        { name := constructorName, kind := .constructor, node := id,
          detail := .executable parts.requiredParams }
    | form => (Node.mk form span parts).declaration? package role id

/-- What a scope holds of a node is the symbol of the node. -/
theorem Node.symbol?_of_declaration? {package : Text} {role : Role} {id : NodeId} {n : Node}
    {d : Declaration} (h : n.declaration? package role id = some d) :
    n.symbol? package role id = some d := by
  obtain ⟨form, span, parts⟩ := n
  cases form with
  | expandFuncDecl | constructorDecl => cases h
  | _ => exact h

/-- Only classes have the symbols of classes. -/
theorem Node.form_of_zenClass {package qualified : Text} {role : Role} {id : NodeId} {n : Node}
    {d : Declaration} (h : n.symbol? package role id = some d)
    (hd : d.detail = .zenClass qualified) : n.form = .classDecl ∧ d.node = id := by
  obtain ⟨form, span, parts⟩ := n
  cases form with
  | classDecl =>
      cases h
      exact ⟨rfl, rfl⟩
  | ident name =>
      have h : (if role = .loopVar then _ else none) = some d := h
      split at h
      · cases h
        cases hd
      · cases h
  | _ =>
      cases h
      try cases hd

namespace Bindings

theorem symbols_declare (b : Bindings) (scope : ScopeId) (d : Declaration) (p : Place) :
    (b.declare scope d p).symbols = b.symbols.setIfInBounds d.node (some d) := by
  rw [declare]
  split <;> rfl

theorem symbols_declareClass (b : Bindings) (scope : ScopeId) (d : Declaration) (p : Place) :
    (b.declareClass scope d p).symbols = b.symbols.setIfInBounds d.node (some d) := by
  rw [declareClass]
  split <;> exact symbols_declare b scope d p

theorem symbols_declareConstructor (b : Bindings) (scope : ScopeId) (d : Declaration) :
    (b.declareConstructor scope d).symbols = b.symbols.setIfInBounds d.node (some d) := by
  rw [declareConstructor]
  split <;> rfl

/-- When the walk comes to a node, it notes the symbol of the node. -/
theorem symbols_declareNode (b : Bindings) (role : Role) (id : NodeId) (scope : ScopeId)
    (form : Form) (span : Span) (parts : Parts) :
    (b.declareNode role id scope form span.start parts).symbols =
      match (Node.mk form span parts).symbol? b.package role id with
      | some d => b.symbols.setIfInBounds id (some d)
      | none => b.symbols := by
  cases form with
  | importDecl _ | varDecl _ | param | funcDecl _ | operatorDecl _ =>
      exact symbols_declare b scope _ _
  | classDecl => exact symbols_declareClass b scope _ _
  | constructorDecl => exact symbols_declareConstructor b scope _
  | ident name =>
      by_cases hrole : role = .loopVar
      · simp only [declareNode, Node.symbol?, Node.declaration?, if_pos hrole]
        exact symbols_declare b scope _ _
      · simp only [declareNode, Node.symbol?, Node.declaration?, if_neg hrole]
  | _ => rfl

/-- It notes no other. -/
theorem symbols_declareNode_ne (b : Bindings) (role : Role) {id c : NodeId} (hc : id ≠ c)
    (scope : ScopeId) (form : Form) (span : Span) (parts : Parts) :
    (b.declareNode role id scope form span.start parts).symbols[c]? = b.symbols[c]? := by
  rw [symbols_declareNode]
  split
  · exact Array.getElem?_setIfInBounds_ne hc
  · rfl

theorem size_symbols_declareNode (b : Bindings) (role : Role) (id : NodeId) (scope : ScopeId)
    (form : Form) (span : Span) (parts : Parts) :
    (b.declareNode role id scope form span.start parts).symbols.size = b.symbols.size := by
  rw [symbols_declareNode]
  split
  · exact Array.size_setIfInBounds
  · rfl

theorem symbols_declareThis (b : Bindings) (id : NodeId) (scope : ScopeId) (form : Form)
    (parts : Parts) : (b.declareThis id scope form parts).symbols = b.symbols := by
  cases form with
  | expandFuncDecl =>
      simp only [declareThis]
      split <;> rfl
  | _ => rfl

/-- The table has the symbols of the nodes that were visited, and none of the others. -/
structure Noted (tree : Node) (package : Text) (b : Bindings) : Prop where
  package_eq : b.package = package
  size_eq : b.symbols.size = tree.size
  /-- The root declares nothing. -/
  root : b.symbols[0]? = some none
  symbol : ∀ {c r m}, tree.Plays c r m →
    b.surroundings[c]? = some none ∧ b.symbols[c]? = some none ∨
      b.symbols[c]? = some (m.symbol? package r c)

theorem Noted.invariant {tree : Node} {package : Text}
    (hunique : ∀ {p p' c r r'}, tree.Lists p r c → tree.Lists p' r' c → r = r') :
    Invariant (Noted tree package) tree.Plays where
  node {b id role m} hplays h parent scope := by
    obtain ⟨form, span, parts⟩ := m
    obtain ⟨hm, p, hlists⟩ := hplays
    have hwalks := declareNode_walks (b.record id (some parent) scope) role id scope form span parts
    have hsymbols := symbols_declareNode (b.record id (some parent) scope) role id scope form span
      parts
    have hsize := size_symbols_declareNode (b.record id (some parent) scope) role id scope form span
      parts
    have hother {c : NodeId} (hc : id ≠ c) :=
      symbols_declareNode_ne (b.record id (some parent) scope) role hc scope form span parts
    simp only [Node.form, Node.span, Node.parts]
    generalize (b.record id (some parent) scope).declareNode role id scope form span.start parts
      = b' at hwalks hsymbols hsize hother ⊢
    rw [show (b.record id (some parent) scope).package = package from h.package_eq] at hsymbols
    refine ⟨hwalks.package_eq.trans h.package_eq, hsize.trans h.size_eq,
      (hother (Nat.ne_of_gt (Nat.zero_lt_of_lt hlists.part.1))).trans h.root, fun {c r m} hc => ?_⟩
    by_cases heq : id = c
    · -- What is noted already, if anything, is what the node declares.
      subst heq
      obtain rfl := hunique hlists hc.2.choose_spec
      cases hm.symm.trans hc.1
      refine .inr ?_
      rw [hsymbols]
      split
      · next d hd =>
          rw [hd]
          refine Array.getElem?_setIfInBounds_self_of_lt ?_
          rw [show (b.record id (some parent) scope).symbols.size = tree.size from h.size_eq,
            ← Node.length_preorder]
          exact (List.getElem?_eq_some_iff.mp hm).1
      · next hnone =>
          rcases h.symbol hc with ⟨-, hfree⟩ | hnoted
          · rw [hnone]
            exact hfree
          · exact hnoted
    · rw [hother heq, hwalks.surroundings c not_false]
      simp only [Bindings.record, Array.getElem?_setIfInBounds_ne heq]
      exact h.symbol hc
  opened {b id role m} _ h scope := by
    obtain ⟨form, span, parts⟩ := m
    have hwalks := declareThis_walks (b.openScope id (some scope)) id b.nextScope form span parts
    simp only [Node.form, Node.parts]
    refine ⟨hwalks.package_eq.trans h.package_eq, ?_, ?_, fun {c r m} hc => ?_⟩
    · rw [symbols_declareThis]
      exact h.size_eq
    · rw [symbols_declareThis]
      exact h.root
    · rw [symbols_declareThis, hwalks.surroundings c not_false]
      exact h.symbol hc
  parts hm := Node.plays_parts hm.1

end Bindings

namespace Script.Parsed

variable {s : Script} (h : s.Parsed)

include h

theorem noted : s.bindings.Noted s.tree s.package := by
  have hunique {p p' c : Nat} {r r' : Role} (hr : s.tree.Lists p r c) (hr' : s.tree.Lists p' r' c) :
      r = r' :=
    (h.listed_unique (h.isOutlined.mem_parts_iff.mpr hr) (h.isOutlined.mem_parts_iff.mpr hr')).2
  obtain ⟨path, package, source, rfl⟩ := h
  refine (Bindings.Noted.invariant hunique).ofTree ⟨rfl, Array.size_replicate, ?_,
    fun {c r m} hc => .inl ?_⟩
  · simp [Bindings.record, Bindings.openScope, Bindings.empty, Node.size_eq]
  · obtain ⟨hm, p, hlists⟩ := hc
    have hpos : 0 ≠ c := Nat.ne_of_lt (Nat.zero_lt_of_lt hlists.part.1)
    have hlt := Node.length_preorder _ ▸ (List.getElem?_eq_some_iff.mp hm).1
    rw [Bindings.record, Array.getElem?_setIfInBounds_ne hpos]
    simp [Bindings.openScope, Bindings.empty, hlt]

/-- The symbol noted for a node is the one that the node declares. -/
theorem symbolFor?_eq {n p : Nat} {r : Role} {m : Node} (hr : (r, n) ∈ (s.entry p).parts)
    (hm : s.tree.preorder[n]? = some m) : s.symbolFor? n = m.symbol? s.package r n := by
  have hlists := h.isOutlined.mem_parts_iff.mp hr
  obtain ⟨scope, hvisited⟩ := h.describes.surroundings_eq hlists
  rcases h.noted.symbol ⟨hm, p, hlists⟩ with ⟨hfree, -⟩ | hnoted
  · cases hvisited.symm.trans hfree
  · rw [symbolFor?, hnoted]
    rfl

/-- What has a symbol is a part of some node, and declares the symbol. -/
theorem listed_of_symbolFor? {n : Nat} {d : Declaration} (hd : s.symbolFor? n = some d) :
    ∃ p r m, (r, n) ∈ (s.entry p).parts ∧ s.tree.preorder[n]? = some m ∧
      m.symbol? s.package r n = some d := by
  have hpos : 0 < n := by
    refine Nat.pos_of_ne_zero fun hzero => ?_
    rw [hzero, symbolFor?, h.noted.root] at hd
    cases hd
  have hlt : n < s.tree.size := by
    refine Nat.lt_of_not_le fun hle => ?_
    rw [symbolFor?, Array.getElem?_eq_none (h.noted.size_eq ▸ hle)] at hd
    cases hd
  obtain ⟨p, r, hlists⟩ := s.tree.exists_lists hpos hlt
  have hr := h.isOutlined.mem_parts_iff.mpr hlists
  obtain ⟨-, -, m, -, hm, -⟩ := hlists.part
  exact ⟨p, r, m, hr, hm, (h.symbolFor?_eq hr hm).symm.trans hd⟩

end Script.Parsed

end Zensight
