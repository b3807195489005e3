import Mathlib.Data.List.DropRight
import Zensight.Proofs.Tables
import Zensight.Typing.View

/-!
# How many arguments a declaration needs

A parameter may have a value to fall back on, and a call may leave out those at the end that
do. How many are left is counted once, when the walk over the tree comes to the declaration,
and kept in the symbol. Here the count is tied to the outline of the script: whatever table a
declaration was entered in (`Bindings.Has`), it was introduced by the node it names
(`Bindings.introduced_of_has`), and what it needs are the parameters that this node lists,
without the run of those at the end that have a value (`Script.Parsed.required?_eq`).
-/

namespace Zensight

/-! ## Parts by their numbers -/

theorem Entry.mem_all_iff {e : Entry} {role : Role} {c : NodeId} :
    c ∈ e.all role ↔ (role, c) ∈ e.parts := by
  simp [Entry.all, List.mem_filterMap]

theorem Parts.sorted_numbered (ps : Parts) (id : Nat) :
    (ps.numbered id).Pairwise fun a b => a.2 < b.2 := by
  cases ps with
  | nil => exact .nil
  | cons _ node rest =>
      refine .cons (fun b hb => ?_) (sorted_numbered rest _)
      have hle := (Parts.mem_numbered rest hb).1
      have hsize := node.size_eq
      exact Nat.lt_of_lt_of_le (by omega) hle

/-- The numbers of the parts in a role are those of the nodes in that role. -/
theorem Parts.getElem?_all (form : Form) (span : Span) (role : Role) (ps : Parts) (id : Nat) :
    ((Entry.mk form span (ps.numbered id)).all role).map (fun c => ps.preorder[c - id]?) =
      (ps.all role).map some := by
  cases ps with
  | nil => rfl
  | cons r node rest =>
      have hlater : ∀ c ∈ (Entry.mk form span (rest.numbered (id + node.size))).all role,
          (Parts.cons r node rest).preorder[c - id]? = rest.preorder[c - (id + node.size)]? :=
        fun c hc => Parts.getElem?_later (rest.mem_numbered (Entry.mem_all_iff.mp hc)).1
      have hrest := rest.getElem?_all form span role (id + node.size)
      rw [← List.map_congr_left hlater] at hrest
      rw [Entry.all] at hrest ⊢
      rw [Parts.numbered, Parts.all, List.filterMap_cons]
      by_cases hr : r = role
      · simp only [if_pos hr, List.map_cons, Parts.getElem?_first, hrest]
      · simp only [if_neg hr, hrest]

namespace Script.IsOutlined

variable {s : Script} (h : s.IsOutlined) {p : Nat} {m : Node} (hm : s.tree.preorder[p]? = some m)

include h hm

/-- The parts of an entry in a role are the nodes in that role. -/
theorem getElem?_all (role : Role) :
    ((s.entry p).all role).map (s.tree.preorder[·]?) = (m.parts.all role).map some := by
  rw [h.entry_eq hm, ← m.parts.getElem?_all m.form m.span role (p + 1)]
  exact List.map_congr_left fun c hc => Node.getElem?_part hm (Entry.mem_all_iff.mp hc)

/-- It has a part in a role if the node does. -/
theorem isSome_get? (role : Role) :
    ((s.entry p).get? role).isSome = (m.parts.get? role).isSome := by
  have hlength := congrArg List.length (h.getElem?_all hm role)
  rw [List.length_map, List.length_map] at hlength
  rw [Entry.get?, Parts.get?, Bool.eq_iff_iff, List.isSome_head?, List.isSome_head?,
    ← List.length_pos_iff, ← List.length_pos_iff, hlength]

end Script.IsOutlined

/-- The parts in a role are in the order of their numbers. -/
theorem Script.IsOutlined.sorted_all {s : Script} (h : s.IsOutlined) (p : NodeId) (role : Role) :
    ((s.entry p).all role).Pairwise (· < ·) := by
  have hparts : (s.entry p).parts.Pairwise fun a b => a.2 < b.2 := by
    by_cases hp : p < s.size
    · obtain ⟨m, hm⟩ := h.exists_node hp
      rw [h.entry_eq hm]
      exact Parts.sorted_numbered _ _
    · rw [Script.entry, Array.getElem?_eq_none (Nat.le_of_not_lt hp)]
      exact .nil
  refine List.Pairwise.filterMap _ ?_ hparts
  rintro ⟨r, c⟩ ⟨r', c'⟩ hlt _ hc _ hc'
  obtain ⟨-, rfl⟩ : r = role ∧ c = _ := by simpa using hc
  obtain ⟨-, rfl⟩ : r' = role ∧ c' = _ := by simpa using hc'
  exact hlt

/-! ## What is in the tables -/

/-- The kind of symbol that a node of this form declares if it plays the role. -/
def Form.symbolKind? (role : Role) : Form → Option SymbolKind
  | importDecl _ => some .importing
  | varDecl _ => some .var
  | param => some .param
  | funcDecl _ => some .function
  | expandFuncDecl => some .expand
  | classDecl => some .zenClass
  | constructorDecl => some .constructor
  | operatorDecl _ => some .operator
  | ident _ => if role = .loopVar then some .var else none
  | _ => none

/-- The name under which a node declares a symbol. -/
def Node.givenName : Node → Text
  | .mk form _ parts =>
    match form with
    | .importDecl path => Form.importName path parts
    | .constructorDecl => constructorName
    | .operatorDecl sign => (Operator.ofSign sign (parts.all .param).length).name
    | .ident name => name
    | _ => parts.declaredName

theorem Operator.name_genuine (op : Operator) : Rule.isPlaceholder op.name = false := by
  cases op <;> rfl

/-- What a node that has the number `id` may introduce: `this`, or a declaration that has its name
and needs as many arguments as the node says, if it can be called at all. The target of an expand
function is a part of the node. -/
structure Node.Introduces (id : NodeId) (m : Node) (d : Declaration) : Prop where
  node_eq : d.node = id
  named : d.name = txt "this" ∨
    d.name = m.givenName ∧ ∃ role, m.form.symbolKind? role = some d.kind
  required?_eq : ∀ script, (Symbol.declared script d).required? =
    if d.kind.isExecutable then some m.parts.requiredParams else none
  target_eq : ∀ target required, d.detail = .expand target required →
    m.form = .expandFuncDecl ∧ target = (m.parts.idOf? .target (id + 1)).getD id

namespace Bindings

/-- All declarations in the tables are such. -/
structure All (P : Declaration → Prop) (b : Bindings) : Prop where
  noted : ∀ d, some d ∈ b.symbols → P d
  entered : ∀ scope ∈ b.scopes, ∀ d ∈ scope.symbols, P d
  expands : ∀ d ∈ b.expands, P d
  constructors : ∀ c d, (c, d) ∈ b.constructors → P d

namespace All

variable {P : Declaration → Prop} {b : Bindings} {d : Declaration}

theorem note (h : b.All P) (hd : P d) : (b.note d).All P :=
  { h with
    noted := fun d' hd' => by
      rcases Array.mem_or_eq_of_mem_setIfInBounds hd' with hd' | hd'
      · exact h.noted d' hd'
      · cases hd'
        exact hd }

theorem enter (h : b.All P) (hd : P d) (scope : ScopeId) : (b.enter scope d).All P :=
  { h with
    entered := fun s hs d' hd' => by
      obtain ⟨i, hi⟩ := Array.mem_iff_getElem?.mp hs
      simp only [Bindings.enter, Array.getElem?_modify] at hi
      split at hi
      · obtain ⟨old, hold, rfl⟩ := Option.map_eq_some_iff.mp hi
        rcases List.mem_append.mp hd' with hd' | hd'
        · exact h.entered old (Array.mem_of_getElem? hold) d' hd'
        · exact List.mem_singleton.mp hd' ▸ hd
      · exact h.entered s (Array.mem_of_getElem? hi) d' hd' }

theorem openScope (h : b.All P) (owner : NodeId) (parent : Option ScopeId) :
    (b.openScope owner parent).All P :=
  { h with
    entered := fun s hs d hd => by
      rcases Array.mem_push.mp hs with hs | rfl
      · exact h.entered s hs d hd
      · cases hd }

theorem declare (h : b.All P) (hd : P d) (scope : ScopeId) (p : Place) :
    (b.declare scope d p).All P := by
  have hentered := (h.note hd).enter hd scope
  rw [Bindings.declare]
  split
  · exact { hentered with }
  · exact hentered

theorem declareClass (h : b.All P) (hd : P d) (scope : ScopeId) (p : Place) :
    (b.declareClass scope d p).All P := by
  have hdeclared := h.declare hd scope p
  rw [Bindings.declareClass]
  split
  · exact { hdeclared with }
  · exact hdeclared

theorem declareExpand (h : b.All P) (hd : P d) : (b.declareExpand d).All P :=
  { h.note hd with
    expands := fun d' hd' => by
      rcases List.mem_append.mp hd' with hd' | hd'
      · exact h.expands d' hd'
      · exact List.mem_singleton.mp hd' ▸ hd }

theorem declareConstructor (h : b.All P) (hd : P d) (scope : ScopeId) :
    (b.declareConstructor scope d).All P := by
  have hnoted := h.note hd
  rw [Bindings.declareConstructor]
  split
  · refine { hnoted with constructors := fun c d' hd' => ?_ }
    rcases List.mem_append.mp hd' with hd' | hd'
    · exact h.constructors c d' hd'
    · cases List.mem_singleton.mp hd'
      exact hd
  · exact hnoted

/-- Only a node's own declaration is new when the walk comes to it. -/
theorem declareNode (h : b.All P) (role : Role) (id : NodeId) (scope : ScopeId) (form : Form)
    (span : Span) (parts : Parts) (hnode : ∀ d, (Node.mk form span parts).Introduces id d → P d) :
    (b.declareNode role id scope form span.start parts).All P := by
  cases form with
  | importDecl _ | varDecl _ | param | funcDecl _ | operatorDecl _ =>
      exact h.declare (hnode _ ⟨rfl, .inr ⟨rfl, role, rfl⟩, fun _ => rfl,
        fun _ _ h => by cases h⟩) _ _
  | classDecl =>
      exact h.declareClass (hnode _ ⟨rfl, .inr ⟨rfl, role, rfl⟩, fun _ => rfl,
        fun _ _ h => by cases h⟩) _ _
  | constructorDecl =>
      exact h.declareConstructor (hnode _ ⟨rfl, .inr ⟨rfl, role, rfl⟩, fun _ => rfl,
        fun _ _ h => by cases h⟩) _
  | expandFuncDecl =>
      refine h.declareExpand (hnode _ ⟨rfl, .inr ⟨rfl, role, rfl⟩, fun _ => rfl,
        fun target required hdetail => ?_⟩)
      cases hdetail
      exact ⟨rfl, rfl⟩
  | ident name =>
      rw [Bindings.declareNode]
      split
      · exact h.declare (hnode _ ⟨rfl, .inr ⟨rfl, .loopVar, rfl⟩, fun _ => rfl,
          fun _ _ h => by cases h⟩) _ _
      · exact h
  | _ => exact h

theorem declareThis (h : b.All P) (id : NodeId) (scope : ScopeId) (form : Form) (span : Span)
    (parts : Parts) (hnode : ∀ d, (Node.mk form span parts).Introduces id d → P d) :
    (b.declareThis id scope form parts).All P := by
  cases form with
  | classDecl =>
      exact h.enter (hnode _ ⟨rfl, .inl rfl, fun _ => rfl, fun _ _ h => by cases h⟩) _
  | expandFuncDecl =>
      rw [Bindings.declareThis]
      dsimp only
      split
      · exact h.enter (hnode _ ⟨rfl, .inl rfl, fun _ => rfl, fun _ _ h => by cases h⟩) _
      · exact h
  | _ => exact h

end All

end Bindings

/-- What the nodes introduce is all that the walk enters. -/
theorem Bindings.All.invariant {P : Declaration → Prop} {tree : Node}
    (hP : ∀ (id : Nat) (m : Node) d, tree.preorder[id]? = some m → m.Introduces id d → P d) :
    Invariant (All P) tree.Plays where
  node {b id role m} hm h parent scope := by
    have hrecorded : (b.record id (some parent) scope).All P := { h with }
    obtain ⟨form, span, parts⟩ := m
    exact hrecorded.declareNode role id scope form span parts fun d => hP id _ d hm.1
  opened {b id role m} hm h scope := by
    obtain ⟨form, span, parts⟩ := m
    exact (h.openScope id _).declareThis id _ form span parts fun d => hP id _ d hm.1
  parts hm := Node.plays_parts hm.1

/-- Every declaration in the tables of a tree was introduced by the node that it names. -/
theorem Bindings.ofTree_all (tree : Node) (package : Text) (report : Report) :
    (ofTree tree package report).All fun d =>
      ∃ m, tree.preorder[d.node]? = some m ∧ m.Introduces d.node d := by
  refine (All.invariant fun id m d hm hd => ?_).ofTree
    { All.openScope (b := empty tree.size package report) ?_ 0 none with }
  · rw [hd.node_eq]
    exact ⟨m, hm, hd⟩
  · exact ⟨fun d hd => by simp [empty] at hd, fun s hs => by simp [empty] at hs,
      fun d hd => (List.not_mem_nil hd).elim, fun c d hd => (List.not_mem_nil hd).elim⟩

/-! ## Scripts -/

namespace Script

/-- The script declares this: it is the symbol of a node, or in a scope, or an expand function
or a constructor. -/
def Knows (s : Script) (d : Declaration) : Prop :=
  some d ∈ s.bindings.symbols ∨ (∃ scope ∈ s.scopes, d ∈ scope.symbols) ∨
    d ∈ s.bindings.expands ∨ ∃ c, (c, d) ∈ s.bindings.constructors

/-- The parameters that a call may not leave out: all that the node lists but the run at the
end of those that have a value. -/
def neededParams (s : Script) (n : NodeId) : List NodeId :=
  ((s.entry n).all .param).rdropWhile fun p => ((s.entry p).get? .fallback).isSome

variable {s : Script} (h : s.Parsed)

include h

theorem Parsed.exists_introduces {d : Declaration} (hd : s.Knows d) :
    ∃ m, s.tree.preorder[d.node]? = some m ∧ m.Introduces d.node d := by
  obtain ⟨path, package, source, rfl⟩ := h
  have hall := Bindings.ofTree_all (parse path package source).tree package
    (({ file := path } : Report).merge source.parse.2)
  rcases hd with hd | ⟨scope, hscope, hd⟩ | hd | ⟨c, hd⟩
  · exact hall.noted d hd
  · exact hall.entered scope hscope d hd
  · exact hall.expands d hd
  · exact hall.constructors c d hd

theorem Parsed.isSome_fallback (n : NodeId) : ((s.entry n).get? .fallback).isSome =
    (s.tree.preorder[n]?).any fun m => (m.parts.get? .fallback).isSome := by
  cases hm : s.tree.preorder[n]? with
  | none =>
      rw [entry, h.isOutlined.getElem?_outline, hm]
      rfl
  | some m => exact h.isOutlined.isSome_get? hm .fallback

theorem Parsed.length_neededParams {n : Nat} {m : Node} (hm : s.tree.preorder[n]? = some m) :
    (s.neededParams n).length = m.parts.requiredParams := by
  have hfallback := funext h.isSome_fallback
  have hnodes := congrArg List.reverse (h.isOutlined.getElem?_all hm .param)
  rw [← List.map_reverse, ← List.map_reverse] at hnodes
  have hdropped := congrArg (fun l => (l.dropWhile fun o : Option Node =>
    o.any fun m => (m.parts.get? .fallback).isSome).length) hnodes
  rw [neededParams, List.rdropWhile, List.length_reverse, hfallback, Parts.requiredParams]
  simpa only [List.dropWhile_map, List.length_map, Function.comp_def, Option.any_some]
    using hdropped

/-- A symbol of the script needs the parameters that its node lists but the run at the end of
those that have a value. What is not called needs none. -/
theorem Parsed.required?_eq {d : Declaration} (hd : s.Knows d) (id : ScriptId) :
    (Symbol.declared id d).required? =
      if d.kind.isExecutable then some (s.neededParams d.node).length else none := by
  obtain ⟨m, hm, hintroduces⟩ := h.exists_introduces hd
  rw [hintroduces.required?_eq id, h.length_neededParams hm]

end Script

end Zensight
