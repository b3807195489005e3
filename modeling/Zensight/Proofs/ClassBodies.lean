import Zensight.Proofs.Receivers

/-!
# What classes have in their bodies

The members of a class are read off its scope when the whole class has been walked, and its
constructors are gathered apart, each with the class that the walk is in. Both lists have the
symbols of the declarations in the body of the class, in their order, and no others.

For members it is a matter of scopes: what lies in the scope of a class is a member in its body or
declares nothing (`Script.Parsed.member_or_isQuiet`), and a scope has its declarations in the order
of their nodes.

Constructors are in no scope. But in a script a constructor is always in the body of a class, and
the walk comes to it in the scope of that class. So for any class the walk gathers nothing until it
comes to the body of the class, there the constructors one by one, and nothing more afterwards
(`Script.found`, `Script.Parsed.constructorsOf_bind`).
-/

namespace Zensight

/-! ## The class that the walk is in -/

namespace Bindings

/-- The constructors gathered with the class `c`. -/
def constructorsOf (b : Bindings) (c : NodeId) : List Declaration :=
  b.constructors.filterMap fun x => if x.1 = c then some x.2 else none

/-- The symbol of the node `c` and the owners of the scopes that there were stay as they are. -/
structure Leaves (b : Bindings) (c : NodeId) (b' : Bindings) : Prop where
  size_eq : b'.symbols.size = b.symbols.size
  symbol_eq : b'.symbols[c]? = b.symbols[c]?
  owners : b.owners <+: b'.owners

theorem Leaves.refl (b : Bindings) (c : NodeId) : b.Leaves c b := ⟨rfl, rfl, List.prefix_refl _⟩

/-- A walk behind the node leaves it alone. -/
theorem Leaves.invariant (b : Bindings) (c : NodeId) :
    Invariant (b.Leaves c) fun id _ _ => c < id where
  node {b' id role m} hlt h parent scope := by
    obtain ⟨form, span, parts⟩ := m
    have howners : ((b'.record id (some parent) scope).declareNode role id scope form span.start
        parts).owners = b'.owners :=
      (owners_of_skeleton (skeleton_declareNode ..)).trans rfl
    exact ⟨(size_symbols_declareNode ..).trans h.size_eq,
      (symbols_declareNode_ne _ role (Nat.ne_of_gt hlt) ..).trans h.symbol_eq, howners ▸ h.owners⟩
  opened {b' id role m} _ h scope := by
    refine ⟨?_, ?_, ?_⟩
    · rw [symbols_declareThis]
      exact h.size_eq
    · rw [symbols_declareThis]
      exact h.symbol_eq
    · rw [owners_of_skeleton (skeleton_declareThis ..), owners_openScope]
      exact h.owners.trans (List.prefix_append _ _)
  parts {id role m} hlt _ _ _ hc _ := Nat.lt_trans hlt (m.parts.mem_numbered hc).1

/-- The scope is that of the class `c`. -/
structure IsScopeOf (b : Bindings) (scope : ScopeId) (c : NodeId) : Prop where
  owner : b.owners[scope]? = some c
  symbol : ∃ d, b.symbols[c]? = some (some d) ∧ d.kind = .zenClass

theorem IsScopeOf.leaves {b b' : Bindings} {scope : ScopeId} {c : NodeId}
    (h : b.IsScopeOf scope c) (hleaves : b.Leaves c b') : b'.IsScopeOf scope c := by
  obtain ⟨new, howners⟩ := hleaves.owners
  refine ⟨?_, hleaves.symbol_eq ▸ h.symbol⟩
  rw [← howners, List.getElem?_append_left (List.getElem?_eq_some_iff.mp h.owner).1]
  exact h.owner

theorem IsScopeOf.classOf?_eq {b : Bindings} {scope : ScopeId} {c : NodeId}
    (h : b.IsScopeOf scope c) : b.classOf? scope = some c := by
  obtain ⟨d, hd, hkind⟩ := h.symbol
  have howner := h.owner
  rw [owners, List.getElem?_map, Array.getElem?_toList] at howner
  obtain ⟨s, hs, rfl⟩ := Option.map_eq_some_iff.mp howner
  simp [classOf?, hs, hd, hkind]

/-- The scope that a class opens is its own. -/
theorem IsScopeOf.opened {b : Bindings} {id : NodeId} {d : Declaration}
    (hd : b.symbols[id]? = some (some d)) (hkind : d.kind = .zenClass) (scope : ScopeId)
    (form : Form) (parts : Parts) : ((b.openScope id (some scope)).declareThis id b.nextScope form
      parts).IsScopeOf b.nextScope id := by
  refine ⟨?_, d, ?_, hkind⟩
  · rw [owners_of_skeleton (skeleton_declareThis ..), owners_openScope]
    simp [owners, nextScope]
  · rw [symbols_declareThis]
    exact hd

theorem constructors_declareNode (b : Bindings) (role : Role) (id : NodeId) (scope : ScopeId)
    {form : Form} (hform : form ≠ .constructorDecl) (start : Place) (parts : Parts) :
    (b.declareNode role id scope form start parts).constructors = b.constructors := by
  have hdeclare (d : Declaration) (p : Place) :
      (b.declare scope d p).constructors = b.constructors := by
    rw [declare]
    split <;> rfl
  cases form with
  | constructorDecl => exact absurd rfl hform
  | importDecl _ | varDecl _ | param | funcDecl _ | operatorDecl _ => exact hdeclare _ _
  | classDecl =>
      rw [declareNode, declareClass]
      split <;> exact hdeclare _ _
  | ident name =>
      rw [declareNode]
      split
      · exact hdeclare _ _
      · rfl
  | _ => rfl

/-- In the scope of a class a constructor is gathered with the class. -/
theorem constructorsOf_declareNode {b : Bindings} {role : Role} {id parent c : Nat}
    {scope : ScopeId} {form : Form} {span : Span} {parts : Parts} {package : Text}
    {d : Option Declaration} (hlt : parent < id)
    (hclass : form = .constructorDecl → b.IsScopeOf scope parent)
    (hd : d = if form = .constructorDecl then (Node.mk form span parts).symbol? package role id
      else none) :
    (b.declareNode role id scope form span.start parts).constructorsOf c =
      b.constructorsOf c ++ if c = parent then d.toList else [] := by
  subst hd
  by_cases hform : form = .constructorDecl
  · subst hform
    have hnoted (d : Declaration) (hd : d.node = id) : (b.note d).classOf? scope = some parent := by
      have hleaves : b.Leaves parent (b.note d) := ⟨Array.size_setIfInBounds,
        Array.getElem?_setIfInBounds_ne (hd ▸ Nat.ne_of_gt hlt), List.prefix_refl _⟩
      exact ((hclass rfl).leaves hleaves).classOf?_eq
    simp only [declareNode, declareConstructor, hnoted]
    rw [constructorsOf, List.filterMap_append]
    by_cases hc : c = parent
    · subst hc
      simp [constructorsOf, note, Node.symbol?]
    · simp [constructorsOf, note, hc, Ne.symm hc]
  · rw [constructorsOf, b.constructors_declareNode role id scope hform, if_neg hform]
    simp [constructorsOf]

theorem constructorsOf_declareThis (b : Bindings) (c id : NodeId) (scope : ScopeId) (form : Form)
    (parts : Parts) :
    (b.declareThis id scope form parts).constructorsOf c = b.constructorsOf c := by
  cases form with
  | expandFuncDecl =>
      simp only [declareThis]
      split <;> rfl
  | _ => rfl

end Bindings

theorem Node.bind_leaves (n : Node) (role : Role) {id c : Nat} (parent scope : Nat) (b : Bindings)
    (hc : c < id) : b.Leaves c (n.bind role id parent scope b) :=
  n.bind_invariant (Bindings.Leaves.invariant b c) role id parent scope b hc (.refl b c)

theorem Parts.bind_leaves (ps : Parts) (wanted : Role → Bool) {id c : Nat} (parent scope : Nat)
    (b : Bindings) (hc : c < id) : b.Leaves c (ps.bind wanted id parent scope b) :=
  ps.bind_invariant (Bindings.Leaves.invariant b c) wanted id parent scope b
    (fun _ _ _ hx _ => Nat.lt_of_lt_of_le hc (ps.mem_numbered hx).1) (.refl b c)

/-! ## Constructors -/

instance Parts.decidableCovers (wanted : Role → Bool) (c : Nat) : (ps : Parts) → (id : Nat) →
    Decidable (ps.Covers wanted id c)
  | .nil, _ => .isFalse not_false
  | .cons role node rest, id =>
    have := Parts.decidableCovers wanted c rest (id + node.size)
    inferInstanceAs (Decidable (wanted role = true ∧ id ≤ c ∧ c < id + node.size ∨
      rest.Covers wanted (id + node.size) c))

theorem Parts.covers_iff (ps : Parts) {id c : Nat} :
    ps.Covers (fun _ => true) id c ↔ id ≤ c ∧ c < id + ps.size := by
  cases ps with
  | nil =>
      rw [Parts.Covers, Parts.size, false_iff]
      omega
  | cons role node rest =>
      rw [Parts.Covers, Parts.size, covers_iff rest, eq_self, true_and]
      omega

/-- Of two passes that take all parts between them one comes to each node. -/
theorem Parts.covers_or (ps : Parts) (wanted : Role → Bool) {id c : Nat} :
    ps.Covers (fun _ => true) id c ↔ ps.Covers wanted id c ∨ ps.Covers (!wanted ·) id c := by
  cases ps with
  | nil => simp [Parts.Covers]
  | cons role node rest =>
      simp only [Parts.Covers, covers_or rest wanted]
      cases wanted role
      · simp [or_left_comm]
      · simp [or_assoc]

/-- It is one only. -/
theorem Parts.not_covers_both {wanted : Role → Bool} {ps : Parts} {id c : Nat}
    (h : ps.Covers wanted id c) : ¬ ps.Covers (!wanted ·) id c := by
  intro h'
  obtain ⟨role, hrole, hrole'⟩ := h.exists_wanted h'
  simp [hrole] at hrole'

namespace Script

/-- The symbol of a constructor. -/
def constructor? (s : Script) (n : NodeId) : Option Declaration :=
  if s.form n = .constructorDecl then s.symbolFor? n else none

/-- The symbols of the constructors in the body of the class `n`. -/
def constructorsIn (s : Script) (n : NodeId) : List Declaration :=
  ((s.entry n).all .member).filterMap s.constructor?

/-- What a pass through parts of the node `parent` finds for the class `c`: the constructors among
them if they are those of the class, or if the class is below them, all that it has. -/
def found (s : Script) (c parent : NodeId) (wanted : Role → Bool) (id : NodeId) (ps : Parts) :
    List Declaration :=
  if c = parent then
    (ps.numbered id).filterMap fun x => if wanted x.1 then s.constructor? x.2 else none
  else if ps.Covers wanted id c then s.constructorsIn c else []

/-- The node has the number `c` and plays the role `r` in the node `p`. -/
def ListedBy (s : Script) (p c : NodeId) (r : Role) (m : Node) : Prop :=
  s.tree.preorder[c]? = some m ∧ (r, c) ∈ (s.entry p).parts

theorem found_cons (s : Script) {c parent id : Nat} (hlt : parent < id) {wanted : Role → Bool}
    {role : Role} (hrole : wanted role = true) (node : Node) (rest : Parts) :
    s.found c parent wanted id (.cons role node rest) =
      ((if c = parent then (s.constructor? id).toList else []) ++
        if id ≤ c ∧ c < id + node.size then s.constructorsIn c else []) ++
      s.found c parent wanted (id + node.size) rest := by
  rw [found, found, Parts.numbered, List.filterMap_cons]
  by_cases hc : c = parent
  · have hnot : ¬ (id ≤ c ∧ c < id + node.size) := by omega
    simp only [if_pos hc, if_neg hnot, hrole, if_true, List.append_nil]
    cases s.constructor? id <;> rfl
  · by_cases hin : id ≤ c ∧ c < id + node.size
    · have hnot : ¬ rest.Covers wanted (id + node.size) c := fun hcovers => by
        have := hcovers.bounds
        omega
      simp [hc, hrole, hin, hnot, Parts.Covers]
    · simp [hc, hrole, hin, Parts.Covers]

namespace Parsed

variable {s : Script} (h : s.Parsed)

include h

theorem listedBy_parts {p : Nat} {m : Node} (hm : s.tree.preorder[p]? = some m) :
    m.parts.Stand (s.ListedBy p) (p + 1) := fun _ _ _ hx hat =>
  ⟨(Node.getElem?_part hm hx).trans hat, h.isOutlined.mem_parts_iff.mpr ⟨m, hm, hx⟩⟩

/-- Of the parts of a class those that are constructors are members. -/
theorem found_self {n : Nat} {m : Node} (hm : s.tree.preorder[n]? = some m) (wanted : Role → Bool) :
    s.found n n wanted (n + 1) m.parts = if wanted .member then s.constructorsIn n else [] := by
  have hmember : ∀ x ∈ m.parts.numbered (n + 1), x.1 ≠ .member → s.constructor? x.2 = none := by
    intro x hx hne
    have hr := h.isOutlined.mem_parts_iff.mpr ⟨m, hm, hx⟩
    exact if_neg fun hform => hne (h.form_of_member hr (.inl hform)).1
  rw [found, if_pos rfl]
  split
  · next hwanted =>
      rw [constructorsIn, h.isOutlined.entry_eq hm, Entry.all, Node.entryAt,
        List.filterMap_filterMap]
      refine List.filterMap_congr fun x hx => ?_
      by_cases hrole : x.1 = .member
      · simp [hrole, hwanted]
      · simp [hrole, hmember x hx hrole]
  · next hwanted =>
      refine List.filterMap_eq_nil_iff.mpr fun x hx => ?_
      by_cases hrole : x.1 = .member
      · simp [hrole, hwanted]
      · simp [hmember x hx hrole]

/-- A pass through all parts of a node finds for the node and all below it what they have. -/
theorem found_all {p : Nat} {m : Node} (hm : s.tree.preorder[p]? = some m) (c : Nat) :
    s.found c p (fun _ => true) (p + 1) m.parts =
      if p ≤ c ∧ c < p + m.size then s.constructorsIn c else [] := by
  rw [m.size_eq]
  by_cases hc : c = p
  · subst hc
    rw [h.found_self hm, if_pos rfl, if_pos (by omega)]
  · have hbelow : (p + 1 ≤ c ∧ c < p + 1 + m.parts.size) ↔
        (p ≤ c ∧ c < p + (m.parts.size + 1)) := by omega
    simp only [found, if_neg hc, m.parts.covers_iff, hbelow]

/-- Nothing else is found in two passes, and in no other order. -/
theorem found_append {p : Nat} {m : Node} (hm : s.tree.preorder[p]? = some m) (c : Nat) :
    s.found c p (·.isHeader) (p + 1) m.parts ++ s.found c p (!·.isHeader) (p + 1) m.parts =
      s.found c p (fun _ => true) (p + 1) m.parts := by
  by_cases hc : c = p
  · -- A header has no members.
    subst hc
    simp [h.found_self hm, Role.isHeader]
  · simp only [found, if_neg hc, m.parts.covers_or (·.isHeader)]
    by_cases hheader : m.parts.Covers (·.isHeader) (p + 1) c
    · simp [hheader, Parts.not_covers_both hheader]
    · simp [hheader]

end Parsed

mutual

/-- The walk gathers with the class `c` a constructor that the class lists, and if it comes to the
class, those in its body. -/
theorem Parsed.constructorsOf_bind {s : Script} (h : s.Parsed) (c : Nat) : (n : Node) →
    (role : Role) → (id parent scope : Nat) → (b : Bindings) → s.ListedBy parent id role n →
    b.symbols.size = s.size →
    (s.form parent = .classDecl → role = .member → b.IsScopeOf scope parent) →
    (n.bind role id parent scope b).constructorsOf c = b.constructorsOf c ++
      ((if c = parent then (s.constructor? id).toList else []) ++
        if id ≤ c ∧ c < id + n.size then s.constructorsIn c else [])
  | .mk form span parts, role, id, parent, scope, b, ⟨hn, hr⟩, hsize, hscope => by
    have hlt : parent < id := (h.isOutlined.mem_parts_iff.mp hr).part.1
    have hform : s.form id = form := h.isOutlined.form_eq hn
    have hbelow : parts.Stand (s.ListedBy id) (id + 1) := h.listedBy_parts hn
    have hall := h.found_all hn c
    have happend := h.found_append hn c
    have hstart : ((b.record id (some parent) scope).declareNode role id scope form span.start
        parts).constructorsOf c = b.constructorsOf c ++
          if c = parent then (s.constructor? id).toList else [] := by
      refine Bindings.constructorsOf_declareNode hlt (fun hconstructor => ?_)
        (by rw [constructor?, hform, h.symbolFor?_eq hr hn])
      obtain ⟨hmember, hclass⟩ := h.form_of_member hr (.inl (hform.trans hconstructor))
      exact ⟨(hscope hclass hmember).owner, (hscope hclass hmember).symbol⟩
    have hleaves : b.Leaves parent ((b.record id (some parent) scope).declareNode role id scope form
        span.start parts) :=
      (Bindings.Leaves.invariant b parent).node (m := .mk form span parts) hlt (.refl b parent) _ _
    have hsymbol (hclass : form = .classDecl) : ∃ d, ((b.record id (some parent) scope).declareNode
        role id scope form span.start parts).symbols[id]? = some (some d) ∧ d.kind = .zenClass := by
      subst hclass
      rw [Bindings.symbols_declareNode]
      exact ⟨_, Array.getElem?_setIfInBounds_self_of_lt (hsize ▸ h.isOutlined.lt_size hn), rfl⟩
    rw [Node.bind, ← hall]
    dsimp only
    generalize (b.record id (some parent) scope).declareNode role id scope form span.start parts
      = b₁ at hstart hleaves hsymbol ⊢
    have hsize₁ : b₁.symbols.size = s.size := hleaves.size_eq.trans hsize
    split
    · -- No member is in a header, and the body of a class is walked in its scope.
      have hheader := h.constructorsOf_bind_parts c parts (·.isHeader) (id + 1) id scope b₁ hbelow
        hsize₁ fun _ hmember => by cases hmember
      have hkept := parts.bind_leaves (·.isHeader) id scope b₁ (Nat.lt_succ_self id)
      generalize parts.bind (·.isHeader) (id + 1) id scope b₁ = b₂ at hheader hkept ⊢
      have hbody := h.constructorsOf_bind_parts c parts (!·.isHeader) (id + 1) id b₂.nextScope
        ((b₂.openScope id (some scope)).declareThis id b₂.nextScope form parts) hbelow
        (by rw [Bindings.symbols_declareThis]; exact hkept.size_eq.trans hsize₁) fun hclass _ => by
          obtain ⟨d, hd, hkind⟩ := hsymbol (hform ▸ hclass)
          exact .opened (hkept.symbol_eq.trans hd) hkind scope form parts
      have hopened : ((b₂.openScope id (some scope)).declareThis id b₂.nextScope form
          parts).constructorsOf c = b₂.constructorsOf c := Bindings.constructorsOf_declareThis ..
      rw [hbody, hopened, hheader, hstart, ← happend, List.append_assoc, List.append_assoc]
      rfl
    · next hopens =>
        rw [h.constructorsOf_bind_parts c parts (fun _ => true) (id + 1) id scope b₁ hbelow hsize₁,
          hstart, List.append_assoc]
        · rfl
        · intro hclass
          exact absurd (hform ▸ hclass ▸ rfl) hopens

theorem Parsed.constructorsOf_bind_parts {s : Script} (h : s.Parsed) (c : Nat) : (ps : Parts) →
    (wanted : Role → Bool) → (id parent scope : Nat) → (b : Bindings) →
    ps.Stand (s.ListedBy parent) id → b.symbols.size = s.size →
    (s.form parent = .classDecl → wanted .member = true → b.IsScopeOf scope parent) →
    (ps.bind wanted id parent scope b).constructorsOf c =
      b.constructorsOf c ++ s.found c parent wanted id ps
  | .nil, wanted, id, parent, scope, b, _, _, _ => by
    simp [Parts.bind, found, Parts.numbered, Parts.Covers]
  | .cons role node rest, wanted, id, parent, scope, b, hstand, hsize, hscope => by
    obtain ⟨hnode, hrest⟩ := hstand.cons
    have hlt : parent < id := (h.isOutlined.mem_parts_iff.mp hnode.2).part.1
    rw [Parts.bind]
    by_cases hrole : wanted role = true
    · have hkept := node.bind_leaves role parent scope b hlt
      have hfirst := h.constructorsOf_bind c node role id parent scope b hnode hsize
        fun hclass hmember => hscope hclass (hmember ▸ hrole)
      have hlater := h.constructorsOf_bind_parts c rest wanted (id + node.size) parent scope _ hrest
        (hkept.size_eq.trans hsize) fun hclass hmember => (hscope hclass hmember).leaves hkept
      rw [if_pos hrole, hlater, hfirst, List.append_assoc, s.found_cons hlt hrole]
    · rw [if_neg hrole, h.constructorsOf_bind_parts c rest wanted (id + node.size) parent scope b
        hrest hsize hscope]
      simp [found, Parts.numbered, Parts.Covers, hrole]

end

/-- A class has for constructors those in its body. -/
theorem Parsed.classConstructors_eq {s : Script} (h : s.Parsed) {n : Nat}
    (hn : s.form n = .classDecl) : s.classConstructors n = s.constructorsIn n := by
  have hroot := s.tree.getElem?_preorder_zero
  have hfile : s.form 0 = .file := (h.isOutlined.form_eq hroot).trans h.isFile.form_eq
  have hlt : n < 0 + s.tree.size := by
    rw [Nat.zero_add, ← h.isOutlined.size_eq]
    exact lt_size_of_form hn (by decide)
  obtain ⟨package, report, hbindings⟩ : ∃ package report,
      s.bindings = .ofTree s.tree package report := by
    obtain ⟨path, package, source, rfl⟩ := h
    exact ⟨_, _, rfl⟩
  change s.bindings.constructorsOf n = _
  rw [hbindings, Bindings.ofTree, h.constructorsOf_bind_parts n _ _ _ _ _ _ (h.listedBy_parts hroot)
    (Array.size_replicate.trans h.isOutlined.size_eq.symm), h.found_all hroot,
    if_pos ⟨Nat.zero_le n, hlt⟩]
  · rfl
  · intro hclass
    rw [hfile] at hclass
    cases hclass

end Script

/-! ## Members -/

/-- Is it the form of a field, a function or an operator? -/
def Form.isMemberDecl : Form → Bool
  | varDecl _ | funcDecl _ | operatorDecl _ => true
  | _ => false

theorem Node.symbol?_node {package : Text} {role : Role} {id : NodeId} {n : Node}
    {d : Declaration} (h : n.symbol? package role id = some d) : d.node = id := by
  obtain ⟨form, span, parts⟩ := n
  unfold symbol? at h
  dsimp only at h
  split at h
  · cases h
    rfl
  · cases h
    rfl
  · exact Node.declaration?_node h

/-- Fields, functions and operators are declared in the scope around them. -/
theorem Node.declaration?_of_isMemberDecl {n : Node} (hform : n.form.isMemberDecl = true)
    (package : Text) (role : Role) (id : NodeId) :
    n.declaration? package role id = n.symbol? package role id := by
  obtain ⟨form, span, parts⟩ := n
  cases form with
  | varDecl _ | funcDecl _ | operatorDecl _ => rfl
  | _ => cases hform

namespace Script.Parsed

variable {s : Script} (h : s.Parsed)

include h

theorem node_of_symbolFor? {n : Nat} {d : Declaration} (hd : s.symbolFor? n = some d) :
    d.node = n := by
  obtain ⟨p, r, m, -, -, hd⟩ := h.listed_of_symbolFor? hd
  exact Node.symbol?_node hd

theorem mem_classMembers_iff {n : Nat} {d : Declaration} (hn : s.form n = .classDecl) :
    d ∈ s.classMembers n ↔ ∃ c, (Role.member, c) ∈ (s.entry n).parts ∧
      (s.form c).isMemberDecl = true ∧ s.symbolFor? c = some d := by
  constructor
  · intro hd
    obtain ⟨c, m, hc, hm, hd⟩ := h.member_of_mem_classMembers hn hd
    have hbelongs := h.belongsTo hc
    rw [hn, h.isOutlined.form_eq hm] at hbelongs
    refine ⟨c, hc, ?_, (h.symbolFor?_eq hc hm).trans (Node.symbol?_of_declaration? hd)⟩
    rw [h.isOutlined.form_eq hm]
    obtain ⟨form, span, parts⟩ := m
    cases form with
    | varDecl _ | funcDecl _ | operatorDecl _ => rfl
    | constructorDecl | badStmt => cases hd
    | _ => cases hbelongs
  · rintro ⟨c, hc, hform, hd⟩
    obtain ⟨hlt, -, m, -, hm, -⟩ := (h.isOutlined.mem_parts_iff.mp hc).part
    rw [h.isOutlined.form_eq hm] at hform
    rw [h.symbolFor?_eq hc hm, ← Node.declaration?_of_isMemberDecl hform] at hd
    obtain ⟨i, scope, this, hs, howner, hthis, hsymbols⟩ := h.exists_classScope hn
    obtain ⟨owners, hl⟩ := h.liesIn_member hn hc
    have hmem : d ∈ scope.symbols := (h.mem_symbols_iff hs).mpr (howner ▸ .node hl hc hm hd)
    rw [hsymbols] at hmem
    refine (List.mem_cons.mp hmem).resolve_left fun heq => ?_
    rw [← heq, Node.declaration?_node hd] at hthis
    exact Nat.ne_of_gt hlt hthis

/-- A class has for members the fields, functions and operators in its body. -/
theorem classMembers_eq {n : Nat} (hn : s.form n = .classDecl) :
    s.classMembers n = ((s.entry n).all .member).filterMap fun c =>
      if (s.form c).isMemberDecl then s.symbolFor? c else none := by
  -- Both lists are in the order of the nodes and have the same declarations.
  obtain ⟨i, scope, this, hs, -, -, hsymbols⟩ := h.exists_classScope hn
  have hsorted := h.sorted_symbols hs
  rw [hsymbols] at hsorted
  refine eq_of_strict_order (fun hlt => Nat.lt_asymm hlt) (List.pairwise_cons.mp hsorted).2
    (List.Pairwise.filterMap _ ?_ (h.isOutlined.sorted_all n .member)) fun d => ?_
  · intro c c' hlt d hd d' hd'
    obtain ⟨-, hd⟩ := Option.ite_none_right_eq_some.mp hd
    obtain ⟨-, hd'⟩ := Option.ite_none_right_eq_some.mp hd'
    rw [h.node_of_symbolFor? hd, h.node_of_symbolFor? hd']
    exact hlt
  · simp only [h.mem_classMembers_iff hn, List.mem_filterMap, Entry.mem_all_iff,
      Option.ite_none_right_eq_some]

/-! ## Both lists -/

theorem exists_symbolFor? {n c : Nat} (hr : (Role.member, c) ∈ (s.entry n).parts)
    (hform : (s.form c).isMemberDecl = true ∨ s.form c = .constructorDecl) :
    ∃ d, s.symbolFor? c = some d ∧ d.node = c := by
  obtain ⟨-, -, m, -, hm, -⟩ := (h.isOutlined.mem_parts_iff.mp hr).part
  rw [h.isOutlined.form_eq hm] at hform
  rw [h.symbolFor?_eq hr hm]
  obtain ⟨form, span, parts⟩ := m
  rcases hform with hform | hform
  · cases form with
    | varDecl _ | funcDecl _ | operatorDecl _ => exact ⟨_, rfl, rfl⟩
    | _ => cases hform
  · cases hform
    exact ⟨_, rfl, rfl⟩

/-- What is in either list is the symbol of a declaration in the body. -/
theorem listed_of_mem {n : Nat} {d : Declaration} (hn : s.form n = .classDecl)
    (hd : d ∈ s.classMembers n ++ s.classConstructors n) :
    (Role.member, d.node) ∈ (s.entry n).parts ∧ s.symbolFor? d.node = some d ∧
      ((s.form d.node).isMemberDecl = true ∨ s.form d.node = .constructorDecl) := by
  rw [List.mem_append, h.mem_classMembers_iff hn, h.classConstructors_eq hn] at hd
  simp only [constructorsIn, constructor?, List.mem_filterMap, Entry.mem_all_iff,
    Option.ite_none_right_eq_some] at hd
  rcases hd with ⟨c, hc, hform, hd⟩ | ⟨c, hc, hform, hd⟩
  · obtain rfl := h.node_of_symbolFor? hd
    exact ⟨hc, hd, .inl hform⟩
  · obtain rfl := h.node_of_symbolFor? hd
    exact ⟨hc, hd, .inr hform⟩

theorem name_ne_this {n : Nat} {d : Declaration} (hn : s.form n = .classDecl)
    (hd : d ∈ s.classMembers n ++ s.classConstructors n) : d.name ≠ txt "this" := by
  obtain ⟨hr, hsymbol, hform⟩ := h.listed_of_mem hn hd
  obtain ⟨-, -, m, -, hm, -⟩ := (h.isOutlined.mem_parts_iff.mp hr).part
  rw [h.symbolFor?_eq hr hm] at hsymbol
  rw [h.isOutlined.form_eq hm] at hform
  rcases hform with hform | hform
  · intro hname
    rw [← Node.declaration?_of_isMemberDecl hform] at hsymbol
    obtain ⟨path, himport, -⟩ := Node.declaration?_this (fun hrole => by cases hrole)
      (h.sorted m (List.mem_of_getElem? hm)) hsymbol hname
    rw [himport] at hform
    cases hform
  · obtain ⟨form, span, parts⟩ := m
    cases hform
    have hname : constructorName = d.name := congrArg Declaration.name (Option.some.inj hsymbol)
    rw [← hname]
    decide

/-- No other scope holds it. -/
theorem declares_unique {n o : Nat} {d : Declaration} (hn : s.form n = .classDecl)
    (hd : d ∈ s.classMembers n ++ s.classConstructors n) (hdeclares : s.Declares o d) : o = n := by
  obtain ⟨hr, -, -⟩ := h.listed_of_mem hn hd
  obtain ⟨owners, hl⟩ := h.liesIn_member hn hr
  cases hdeclares with
  | node hl' _ _ hdeclared =>
      obtain rfl := Node.declaration?_node hdeclared
      exact (List.cons.inj (h.liesIn_unique hl' hl)).1
  | this _ hthis => exact absurd (Node.this?_eq_some hthis).1 (h.name_ne_this hn hd)

end Script.Parsed

/-- The lists of members and of constructors are those of the class `n`: they have the symbols of
the declarations in its body and nothing else. -/
structure Script.HasLists (s : Script) (n : NodeId) (members constructors : List Declaration) :
    Prop where
  /-- Fields, functions and operators are the members, in the order in which they are declared. -/
  members_eq : members.map (·.node) =
    ((s.entry n).all .member).filter fun c => (s.form c).isMemberDecl
  constructors_eq : constructors.map (·.node) =
    ((s.entry n).all .member).filter fun c => s.form c = .constructorDecl
  symbol_eq : ∀ d ∈ members ++ constructors, s.symbolFor? d.node = some d
  /-- All of them are declared right in the body. -/
  parent_eq : ∀ d ∈ members ++ constructors, s.parent? d.node = some n
  /-- `this` is not among them. -/
  ne_this : ∀ d ∈ members ++ constructors, d.name ≠ txt "this"
  /-- Nor are parameters, lambdas or expand functions. -/
  form_ne : ∀ d ∈ members ++ constructors, s.form d.node ≠ .param ∧ s.form d.node ≠ .funcLit ∧
    s.form d.node ≠ .expandFuncDecl
  /-- Nor is what is declared in any other scope, such as that of a body, a lambda or a class
  further in. -/
  declares : ∀ d ∈ members ++ constructors, ∀ o, s.Declares o d → o = n
  /-- Nor is what belongs to another class. -/
  unshared : ∀ d ∈ members ++ constructors, ∀ k, s.form k = .classDecl →
    d ∈ s.classMembers k ++ s.classConstructors k → k = n

theorem map_filterMap_of_left_inverse {α β : Type} (wanted : α → Bool) {f : α → Option β}
    {g : β → α} {l : List α} (h : ∀ a ∈ l, wanted a = true → ∃ b, f a = some b ∧ g b = a) :
    (l.filterMap fun a => if wanted a then f a else none).map g = l.filter wanted := by
  induction l with
  | nil => rfl
  | cons a l ih =>
      have ih := ih fun b hb => h b (List.mem_cons_of_mem _ hb)
      cases hwanted : wanted a with
      | false => simpa [hwanted] using ih
      | true =>
          obtain ⟨b, hb, hg⟩ := h a List.mem_cons_self hwanted
          simpa [hwanted, hb, hg] using ih

theorem Script.Parsed.hasLists {s : Script} (h : s.Parsed) {n : Nat} (hn : s.form n = .classDecl) :
    s.HasLists n (s.classMembers n) (s.classConstructors n) where
  members_eq := by
    rw [h.classMembers_eq hn]
    exact map_filterMap_of_left_inverse _ fun c hc hform =>
      h.exists_symbolFor? (Entry.mem_all_iff.mp hc) (.inl hform)
  constructors_eq := by
    have hmap := map_filterMap_of_left_inverse (fun c => decide (s.form c = .constructorDecl))
      (l := (s.entry n).all .member) fun c hc hform =>
        h.exists_symbolFor? (Entry.mem_all_iff.mp hc) (.inr (of_decide_eq_true hform))
    simp only [decide_eq_true_eq] at hmap
    rw [h.classConstructors_eq hn]
    exact hmap
  symbol_eq d hd := (h.listed_of_mem hn hd).2.1
  parent_eq d hd := (h.parent?_eq_some_iff _ _).mpr ⟨_, (h.listed_of_mem hn hd).1⟩
  ne_this d hd := h.name_ne_this hn hd
  form_ne d hd := by
    obtain ⟨-, -, hform⟩ := h.listed_of_mem hn hd
    refine ⟨?_, ?_, ?_⟩ <;> intro heq <;> simp [heq, Form.isMemberDecl] at hform
  declares d hd o := h.declares_unique hn hd
  unshared d hd k hk hd' := (h.listed_unique (h.listed_of_mem hk hd').1 (h.listed_of_mem hn hd).1).1

namespace Environment

/-- Whatever the source, a class at any depth of it has the lists of its body. -/
theorem classType_lists {e : Environment} {id : ScriptId} {path package source : Text}
    (hscript : e.script id = .parse path package source) {n : NodeId}
    (hn : (e.script id).form n = .classDecl) :
    ∃ d c members constructors, (e.script id).symbolFor? n = some d ∧ d.classType? id = some c ∧
      e.hierarchy.members c = members.map (.declared id) ∧
      e.constructors c = constructors.map (.declared id) ∧
      (e.script id).HasLists n members constructors := by
  have hs : (e.script id).Parsed := ⟨path, package, source, hscript⟩
  obtain ⟨m, hm⟩ := hs.isOutlined.exists_node (Script.lt_size_of_form hn (by decide))
  have hform : m.form = .classDecl := (hs.isOutlined.form_eq hm).symm.trans hn
  obtain ⟨p, r, hr⟩ := hs.exists_listed hm (by rw [hform]; decide)
  obtain ⟨d, hd, c, hc, hdecl⟩ : ∃ d, (e.script id).symbolFor? n = some d ∧
      ∃ c, d.classType? id = some c ∧ c.decl = some (.declared ⟨id, n⟩) := by
    rw [hs.symbolFor?_eq hr hm]
    obtain ⟨form, span, parts⟩ := m
    cases hform
    exact ⟨_, rfl, _, rfl, rfl⟩
  refine ⟨d, c, _, _, hd, hc, ?_, ?_, hs.hasLists hn⟩
  · rw [Hierarchy.members, hdecl]
    rfl
  · rw [constructors, hdecl]

/-- A class with a lambda in the value of a field, a class in the body of a constructor and two
functions of one name, and behind it a function that extends it. -/
def packedClassScript : Text :=
  txt "zenClass A\x7bvar f=function(p)\x7bvar q;\x7d;zenConstructor(a)\x7bzenClass B\x7bval g;" ++
    txt "zenConstructor()\x7b\x7d\x7d\x7dfunction m(x)\x7bvar y;\x7doperator +(o)\x7b\x7d" ++
    txt "static function m()\x7b\x7dzenConstructor()\x7b\x7d\x7d$expand A$e()\x7b\x7d"

def packedClass : Environment :=
  (({ root := txt "scripts" } : Environment).intern
    (Script.parse (txt "a") (txt "scripts.a") packedClassScript)).2.replace 0

theorem packedClass_lists :
    packedClass.script 0 = .parse (txt "a") (txt "scripts.a") packedClassScript ∧
    ∀ x ∈ [(1, [3, 21, 28, 32], [11, 35]), (15, [17], [19])],
      (packedClass.script 0).form x.1 = .classDecl ∧ ∃ d c members constructors,
        (packedClass.script 0).symbolFor? x.1 = some d ∧ d.classType? 0 = some c ∧
          packedClass.hierarchy.members c = members.map (.declared 0) ∧
          packedClass.constructors c = constructors.map (.declared 0) ∧
          members.map (·.node) = x.2.1 ∧ constructors.map (·.node) = x.2.2 ∧
          (packedClass.script 0).HasLists x.1 members constructors := by
  have hscript : packedClass.script 0 = .parse (txt "a") (txt "scripts.a") packedClassScript := rfl
  have hbodies : ∀ x ∈ [(1, [3, 21, 28, 32], [11, 35]), (15, [17], [19])],
      (packedClass.script 0).form x.1 = .classDecl ∧
      ((((packedClass.script 0).entry x.1).all .member).filter fun c =>
        ((packedClass.script 0).form c).isMemberDecl) = x.2.1 ∧
      ((((packedClass.script 0).entry x.1).all .member).filter fun c =>
        (packedClass.script 0).form c = .constructorDecl) = x.2.2 := by
    decide +kernel
  refine ⟨hscript, fun x hx => ?_⟩
  obtain ⟨hform, hmembers, hconstructors⟩ := hbodies x hx
  obtain ⟨d, c, members, constructors, hd, hc, hs, hs', h⟩ := classType_lists hscript hform
  exact ⟨hform, d, c, members, constructors, hd, hc, hs, hs', h.members_eq.trans hmembers,
    h.constructors_eq.trans hconstructors, h⟩

end Environment

end Zensight
