import Zensight.Proofs.Tables

/-!
# Lexical scoping

What a name means at a node is said here over the outline of the script, without scopes:
`Script.LiesIn` lists the nodes whose scopes enclose a node, from the inside out, and
`Script.Declares` says what is declared in the scope of a node. A node lies in the scope of
every node above it that opens one, unless it is in its header.

The scopes that the walk opens agree with that. Going down from the root, the scopes around
a node are those of the nodes it lies in (`Script.LiesIn.placed`), and each holds what its
owner declares (`Script.Parsed.mem_symbols_iff`), in the order of the nodes. Finding a name
is then finding the first declaration in the innermost scope that has one.
-/

namespace Zensight

/-! ## Headers -/

/-- In the roles that a form has, a part is left out of its scope if it is in the header. -/
theorem Form.leavesOut_iff {form : Form} {role : Role} (h : form.admits role = true) :
    form.leavesOut role = true ↔ ∀ header, form.header? = some header → role ∈ header := by
  cases form with
  | funcDecl _ | expandFuncDecl | classDecl | constructorDecl | operatorDecl _ | funcLit
  | foreachStmt | block =>
      cases role <;>
        simp [Form.admits, Form.roles, Form.leavesOut, Form.opensScope, Form.header?,
          Role.isHeader] at h ⊢
  | _ => simp [Form.leavesOut, Form.opensScope, Form.header?]

/-- Is it the form of a declaration that has its place in a scope? -/
def Form.isDeclared : Form → Bool
  | importDecl _ | varDecl _ | param | funcDecl _ | operatorDecl _ | classDecl => true
  | _ => false

/-- The name under which it is declared there. -/
def Node.declaredName : Node → Text
  | .mk form _ parts =>
    match form with
    | .importDecl path => Form.importName path parts
    | .operatorDecl sign => (Operator.ofSign sign (parts.all .param).length).name
    | _ => parts.declaredName

namespace Script

/-- The node lies in the scopes of `owners`, the innermost one first. -/
inductive LiesIn (s : Script) : NodeId → List NodeId → Prop where
  /-- The file lies in its own scope. -/
  | file : LiesIn s 0 [0]
  /-- A part lies where the node does, if that has no scope or the part is in its header. -/
  | around {p c : NodeId} {r : Role} {owners : List NodeId} :
      LiesIn s p owners → (r, c) ∈ (s.entry p).parts →
      (∀ header, (s.form p).header? = some header → r ∈ header) → LiesIn s c owners
  /-- Any other part lies in the scope of the node. -/
  | within {p c : NodeId} {r : Role} {owners : List NodeId} {header : List Role} :
      LiesIn s p owners → (r, c) ∈ (s.entry p).parts → (s.form p).header? = some header →
      r ∉ header → LiesIn s c (p :: owners)

/-- What is declared in the scope of the node `o`. -/
inductive Declares (s : Script) (o : NodeId) : Declaration → Prop where
  /-- What a node declares for which it is the innermost scope. -/
  | node {n p : NodeId} {r : Role} {owners : List NodeId} {m : Node} {d : Declaration} :
      s.LiesIn n (o :: owners) → (r, n) ∈ (s.entry p).parts → s.tree.preorder[n]? = some m →
      m.declaration? s.package r n = some d → Declares s o d
  /-- The `this` of a class or an expand function. -/
  | this {m : Node} {d : Declaration} :
      s.tree.preorder[o]? = some m → m.this? o = some d → Declares s o d

/-- The first declaration of a name in the scope of the node `o`. Nodes are numbered in the
order in which they declare. -/
structure FirstDeclares (s : Script) (o : NodeId) (name : Text) (d : Declaration) : Prop where
  declares : s.Declares o d
  name_eq : d.name = name
  le : ∀ d', s.Declares o d' → d'.name = name → d.node ≤ d'.node

variable {s : Script}

namespace Parsed

variable (h : s.Parsed)

include h

theorem listed_unique {p p' n : Nat} {r r' : Role} (hr : (r, n) ∈ (s.entry p).parts)
    (hr' : (r', n) ∈ (s.entry p').parts) : p = p' ∧ r = r' := by
  have hp := (h.parent?_eq_some_iff n p).mpr ⟨r, hr⟩
  have hp' := (h.parent?_eq_some_iff n p').mpr ⟨r', hr'⟩
  cases hp.symm.trans hp'
  obtain ⟨m, hm, hmem⟩ := h.isOutlined.mem_parts_iff.mp hr
  obtain ⟨m', hm', hmem'⟩ := h.isOutlined.mem_parts_iff.mp hr'
  cases hm.symm.trans hm'
  exact ⟨rfl, m.parts.role_unique hmem hmem'⟩

theorem not_listed_zero {p : Nat} {r : Role} : (r, 0) ∉ (s.entry p).parts := by
  intro hr
  exact absurd (h.isOutlined.mem_parts_iff.mp hr).part.1 (by omega)

/-- A part is left out of the scope of a node if it is in its header. -/
theorem leavesOut_iff {p c : Nat} {r : Role} {m : Node} (hm : s.tree.preorder[p]? = some m)
    (hr : (r, c) ∈ (s.entry p).parts) : m.form.leavesOut r = true ↔
      ∀ header, (s.form p).header? = some header → r ∈ header := by
  obtain ⟨-, m', child, hm', -, hpart⟩ := (h.isOutlined.mem_parts_iff.mp hr).part
  cases hm.symm.trans hm'
  rw [h.isOutlined.form_eq hm]
  exact Form.leavesOut_iff (h.isFile.admits_part hm hpart)

/-- Every node lies somewhere. -/
theorem exists_liesIn {n : Nat} (hn : n < s.size) : ∃ owners, s.LiesIn n owners := by
  induction n using Nat.strongRecOn with
  | ind n ih =>
      rcases Nat.eq_zero_or_pos n with rfl | hpos
      · exact ⟨[0], .file⟩
      · obtain ⟨p, r, hlists⟩ := s.tree.exists_lists hpos (h.isOutlined.size_eq ▸ hn)
        have hr := h.isOutlined.mem_parts_iff.mpr hlists
        obtain ⟨owners, howners⟩ := ih p hlists.part.1 (Nat.lt_trans hlists.part.1 hn)
        by_cases hout : ∀ header, (s.form p).header? = some header → r ∈ header
        · exact ⟨owners, howners.around hr hout⟩
        · simp only [not_forall] at hout
          obtain ⟨header, hheader, hbody⟩ := hout
          exact ⟨p :: owners, howners.within hr hheader hbody⟩

/-- It lies in one place only. -/
theorem liesIn_unique {n : Nat} {owners owners' : List NodeId} (hl : s.LiesIn n owners)
    (hl' : s.LiesIn n owners') : owners = owners' := by
  induction hl generalizing owners' with
  | file =>
      cases hl' with
      | file => rfl
      | around _ hr _ => exact absurd hr h.not_listed_zero
      | within _ hr _ _ => exact absurd hr h.not_listed_zero
  | around _ hr hout ih =>
      cases hl' with
      | file => exact absurd hr h.not_listed_zero
      | around hl' hr' _ =>
          obtain ⟨rfl, rfl⟩ := h.listed_unique hr hr'
          exact ih hl'
      | within _ hr' hheader hbody =>
          obtain ⟨rfl, rfl⟩ := h.listed_unique hr hr'
          exact absurd (hout _ hheader) hbody
  | within _ hr hheader hbody ih =>
      cases hl' with
      | file => exact absurd hr h.not_listed_zero
      | around _ hr' hout =>
          obtain ⟨rfl, rfl⟩ := h.listed_unique hr hr'
          exact absurd (hout _ hheader) hbody
      | within hl' hr' _ _ =>
          obtain ⟨rfl, rfl⟩ := h.listed_unique hr hr'
          rw [ih hl']

end Parsed

/-! ## The scopes around a node -/

theorem Enclosed.unique {id : ScopeId} {chain chain' : List Scope} (h : s.Enclosed id chain)
    (h' : s.Enclosed id chain') : chain = chain' := by
  induction h generalizing chain' with
  | missing hnone =>
      cases h' with
      | missing _ => rfl
      | outermost hs _ | inner hs _ _ => cases hnone.symm.trans hs
  | outermost hs hparent =>
      cases h' with
      | missing hnone => cases hnone.symm.trans hs
      | outermost hs' _ => cases hs.symm.trans hs'; rfl
      | inner hs' hparent' _ =>
          cases hs.symm.trans hs'
          cases hparent.symm.trans hparent'
  | inner hs hparent _ ih =>
      cases h' with
      | missing hnone => cases hnone.symm.trans hs
      | outermost hs' hparent' =>
          cases hs.symm.trans hs'
          cases hparent.symm.trans hparent'
      | inner hs' hparent' hrest =>
          cases hs.symm.trans hs'
          cases hparent.symm.trans hparent'
          rw [ih hrest]

theorem Enclosed.exists_getElem? {id : ScopeId} {chain : List Scope} (h : s.Enclosed id chain) :
    ∀ scope ∈ chain, ∃ i : Nat, s.scopes[i]? = some scope := by
  induction h with
  | missing _ => simp
  | outermost hs _ => simpa using ⟨_, hs⟩
  | inner hs _ _ ih => simpa using ⟨⟨_, hs⟩, ih⟩

theorem Enclosed.getElem?_eq {id : ScopeId} {scope : Scope} {outer : List Scope}
    (h : s.Enclosed id (scope :: outer)) : s.scopes[id]? = some scope := by
  cases h with
  | outermost hs _ => exact hs
  | inner hs _ _ => exact hs

/-- The node `m` numbered `n` stands in the scope `scope`, around which are `outer`, and has
declared there what it and its parts declare. -/
structure Placed (s : Script) (n : NodeId) (m : Node) (scope : Scope) (outer : List Scope) :
    Prop where
  getElem?_eq : s.tree.preorder[n]? = some m
  fits : ∃ parent, m.Fits s.bindings 1 n parent scope.id
  enclosed : s.Enclosed scope.id (scope :: outer)
  parts : ∀ d ∈ m.parts.declared s.package m.form.leavesOut (n + 1), d ∈ scope.symbols
  own : ∀ p r d, (r, n) ∈ (s.entry p).parts → m.declaration? s.package r n = some d →
    d ∈ scope.symbols

theorem Parsed.placed_file (h : s.Parsed) :
    ∃ scope, s.Placed 0 s.tree scope [] ∧ scope.owner = 0 := by
  obtain ⟨scope, hscope, hid, hparent, howner, hsymbols⟩ : ∃ scope, s.scopes[0]? = some scope ∧
      scope.id = 0 ∧ scope.parent = none ∧ scope.owner = 0 ∧
      scope.symbols = s.tree.held s.package 0 :=
    ⟨_, h.describes.fileScope, by simp, by simp, by simp, by simp⟩
  have hfits : s.tree.Fits s.bindings 1 0 none scope.id := hid ▸ h.describes.fits
  refine ⟨scope, ⟨s.tree.getElem?_preorder_zero, ⟨none, hfits⟩, ?_, ?_, ?_⟩, howner⟩
  · rw [hid]
    exact .outermost hscope hparent
  · -- Of a file all parts lie in the scope around it and in the one it owns, which are the same.
    rw [hsymbols, Node.held, h.isFile.form_eq]
    exact fun d hd => List.mem_append_right _ hd
  · exact fun p r d hr _ => absurd hr h.not_listed_zero

/-- Once it is known in which scope a part declares, the part is placed there. -/
theorem Parsed.placed_part (h : s.Parsed) {p c : Nat} {r : Role} {child : Node} {scope : Scope}
    {outer : List Scope} (hr : (r, c) ∈ (s.entry p).parts)
    (hchild : s.tree.preorder[c]? = some child)
    (hfits : child.Fits s.bindings 1 c (some p) scope.id)
    (henclosed : s.Enclosed scope.id (scope :: outer))
    (hdeclared : ∀ d ∈ child.declared s.package r c, d ∈ scope.symbols) :
    s.Placed c child scope outer := by
  refine ⟨hchild, ⟨some p, hfits⟩, henclosed, fun d hd => hdeclared d ?_, ?_⟩
  · obtain ⟨form, span, parts⟩ := child
    exact List.mem_append_right _ hd
  · intro p' r' d hr' hd
    obtain ⟨-, rfl⟩ := h.listed_unique hr hr'
    refine hdeclared d ?_
    obtain ⟨form, span, parts⟩ := child
    exact List.mem_append_left _ (by simp [hd])

/-- A part that a node leaves out of its scope stands in the same scope. -/
theorem Parsed.placed_around (h : s.Parsed) {p c : Nat} {r : Role} {m : Node} {scope : Scope}
    {outer : List Scope} (hplaced : s.Placed p m scope outer) (hr : (r, c) ∈ (s.entry p).parts)
    (hout : ∀ header, (s.form p).header? = some header → r ∈ header) :
    ∃ child, s.Placed c child scope outer := by
  have hm := hplaced.getElem?_eq
  obtain ⟨parent, hfits⟩ := hplaced.fits
  obtain ⟨child, around, hchild, hfits, hin, -⟩ := hfits.part hm (h.isOutlined.mem_numbered hm hr)
  obtain ⟨rfl, hdeclared⟩ := hin ((h.leavesOut_iff hm hr).mpr hout)
  rw [h.describes.package_eq] at hdeclared
  exact ⟨child, h.placed_part hr hchild hfits hplaced.enclosed
    fun d hd => hplaced.parts d (hdeclared d hd)⟩

/-- Any other part stands in the scope that the node opened. -/
theorem Parsed.placed_within (h : s.Parsed) {p c : Nat} {r : Role} {m : Node} {scope : Scope}
    {outer : List Scope} {header : List Role} (hplaced : s.Placed p m scope outer)
    (hr : (r, c) ∈ (s.entry p).parts) (hheader : (s.form p).header? = some header)
    (hbody : r ∉ header) :
    ∃ child inner, s.Placed c child inner (scope :: outer) ∧ inner.owner = p := by
  have hm := hplaced.getElem?_eq
  obtain ⟨parent, hfits⟩ := hplaced.fits
  obtain ⟨child, around, hchild, hfits, -, hin⟩ := hfits.part hm (h.isOutlined.mem_numbered hm hr)
  have hout : m.form.leavesOut r = false := by
    rw [← Bool.not_eq_true, h.leavesOut_iff hm hr]
    exact fun hall => hbody (hall header hheader)
  obtain ⟨inner, hinner, hparent, howner, hdeclared⟩ := hin hout
  obtain rfl := (h.scope_id hinner).1
  rw [h.describes.package_eq] at hdeclared
  exact ⟨child, inner, h.placed_part hr hchild hfits (.inner hinner hparent hplaced.enclosed)
    hdeclared, howner⟩

/-- The scopes around a node are those of the nodes it lies in. -/
theorem LiesIn.placed (h : s.Parsed) {n : Nat} {owners : List NodeId} (hl : s.LiesIn n owners) :
    ∃ m scope outer, s.Placed n m scope outer ∧ (scope :: outer).map (·.owner) = owners := by
  induction hl with
  | file =>
      obtain ⟨scope, hplaced, howner⟩ := h.placed_file
      exact ⟨s.tree, scope, [], hplaced, by simp [howner]⟩
  | around _ hr hout ih =>
      obtain ⟨m, scope, outer, hplaced, howners⟩ := ih
      obtain ⟨child, hchild⟩ := h.placed_around hplaced hr hout
      exact ⟨child, scope, outer, hchild, howners⟩
  | within _ hr hheader hbody ih =>
      obtain ⟨m, scope, outer, hplaced, howners⟩ := ih
      obtain ⟨child, inner, hchild, howner⟩ := h.placed_within hplaced hr hheader hbody
      exact ⟨child, inner, scope :: outer, hchild, by rw [List.map_cons, howner, howners]⟩

/-! ## What a scope holds -/

end Script

theorem Node.declaration?_node {package : Text} {role : Role} {id : NodeId} {n : Node}
    {d : Declaration} (h : n.declaration? package role id = some d) : d.node = id := by
  obtain ⟨form, span, parts⟩ := n
  cases form with
  | ident name =>
      rw [Node.declaration?] at h
      split at h
      · cases h
        rfl
      · cases h
  | _ => first | cases h; rfl | cases h

theorem Node.this?_eq_some {id : NodeId} {n : Node} {d : Declaration} (h : n.this? id = some d) :
    d.name = txt "this" ∧ d.node = id ∧ (n.form = .classDecl ∨ n.form = .expandFuncDecl) := by
  obtain ⟨form, span, parts⟩ := n
  cases form with
  | classDecl =>
      cases h
      exact ⟨rfl, rfl, .inl rfl⟩
  | expandFuncDecl =>
      obtain ⟨target, -, rfl⟩ := Option.map_eq_some_iff.mp h
      exact ⟨rfl, rfl, .inr rfl⟩
  | _ => cases h

/-- Declarations of the nodes from `id` up to `stop`, in the order of their nodes. -/
structure DeclaredBetween (id stop : Nat) (ds : List Declaration) : Prop where
  sorted : ds.Pairwise fun d d' => d.node < d'.node
  bounds : ∀ d ∈ ds, id ≤ d.node ∧ d.node < stop

namespace DeclaredBetween

variable {id mid stop : Nat} {ds ds' : List Declaration}

theorem nil : DeclaredBetween id stop [] := ⟨.nil, by simp⟩

theorem append (h : DeclaredBetween id mid ds) (h' : DeclaredBetween mid stop ds') (hle : id ≤ mid)
    (hle' : mid ≤ stop) : DeclaredBetween id stop (ds ++ ds') := by
  refine ⟨List.pairwise_append.mpr ⟨h.sorted, h'.sorted, fun d hd d' hd' => ?_⟩, fun d hd => ?_⟩
  · exact Nat.lt_of_lt_of_le (h.bounds d hd).2 (h'.bounds d' hd').1
  · rcases List.mem_append.mp hd with hd | hd
    · exact ⟨(h.bounds d hd).1, Nat.lt_of_lt_of_le (h.bounds d hd).2 hle'⟩
    · exact ⟨Nat.le_trans hle (h'.bounds d hd).1, (h'.bounds d hd).2⟩

theorem toList {d : Option Declaration} (h : ∀ d' ∈ d, d'.node = id) :
    DeclaredBetween id (id + 1) d.toList := by
  cases d with
  | none => exact nil
  | some d =>
      have hd := h d rfl
      exact ⟨List.pairwise_singleton .., by simp [hd]⟩

end DeclaredBetween

mutual

theorem Node.declaredBetween_declared (package : Text) : (n : Node) → (role : Role) → (id : Nat) →
    DeclaredBetween id (id + n.size) (n.declared package role id)
  | .mk form span parts, role, id => by
    have hown : DeclaredBetween id (id + 1)
        ((Node.mk form span parts).declaration? package role id).toList :=
      .toList fun d hd => Node.declaration?_node hd
    have hparts := parts.declaredBetween_declared package form.leavesOut (id + 1)
    rw [Node.declared, Node.size, show id + (parts.size + 1) = id + 1 + parts.size by omega]
    exact hown.append hparts (Nat.le_succ id) (Nat.le_add_right _ _)

theorem Parts.declaredBetween_declared (package : Text) : (ps : Parts) → (wanted : Role → Bool) →
    (id : Nat) → DeclaredBetween id (id + ps.size) (ps.declared package wanted id)
  | .nil, _, _ => .nil
  | .cons role node rest, wanted, id => by
    have hrest := rest.declaredBetween_declared package wanted (id + node.size)
    rw [Parts.declared, Parts.size, ← Nat.add_assoc]
    refine DeclaredBetween.append ?_ hrest (Nat.le_add_right _ _) (Nat.le_add_right _ _)
    split
    · exact node.declaredBetween_declared package role id
    · exact .nil

end

/-- Of declarations in order the one found first is that of the least node. -/
theorem find?_eq_some_iff_of_sorted {ds : List Declaration}
    (hsorted : ds.Pairwise fun d d' => d.node < d'.node) {name : Text} {d : Declaration} :
    ds.find? (·.name == name) = some d ↔
      d ∈ ds ∧ d.name = name ∧ ∀ d' ∈ ds, d'.name = name → d.node ≤ d'.node := by
  have hfound {x : Declaration} (hx : ds.find? (·.name == name) = some x) :
      x ∈ ds ∧ x.name = name ∧ ∀ d' ∈ ds, d'.name = name → x = d' ∨ x.node < d'.node := by
    obtain ⟨hname, before, after, rfl, hbefore⟩ := List.find?_eq_some_iff_append.mp hx
    refine ⟨by simp, by simpa using hname, fun d' hd' hname' => ?_⟩
    have hlater := (List.pairwise_cons.mp (List.pairwise_append.mp hsorted).2.1).1
    rcases List.mem_append.mp hd' with hd' | hd'
    · exact absurd hname' (by simpa using hbefore d' hd')
    · rcases List.mem_cons.mp hd' with rfl | hd'
      · exact .inl rfl
      · exact .inr (hlater d' hd')
  constructor
  · intro hd
    obtain ⟨hmem, hname, hleast⟩ := hfound hd
    refine ⟨hmem, hname, fun d' hd' hname' => ?_⟩
    rcases hleast d' hd' hname' with rfl | hlt
    · exact Nat.le_refl _
    · exact Nat.le_of_lt hlt
  · rintro ⟨hmem, hname, hleast⟩
    cases hx : ds.find? (·.name == name) with
    | none => exact absurd hname (by simpa using List.find?_eq_none.mp hx d hmem)
    | some x =>
        obtain ⟨hxmem, hxname, hxleast⟩ := hfound hx
        rcases hxleast d hmem hname with rfl | hlt
        · rfl
        · exact absurd (hleast x hxmem hxname) (Nat.not_le.mpr hlt)

namespace Script

variable {s : Script}

mutual

/-- What a node and its parts declare in the scope around it is declared there. -/
theorem Parsed.declares_of_mem (h : s.Parsed) : (n : Node) → {role : Role} → {id p o : Nat} →
    {owners : List NodeId} → {d : Declaration} → s.tree.preorder[id]? = some n →
    (role, id) ∈ (s.entry p).parts → s.LiesIn id (o :: owners) →
    d ∈ n.declared s.package role id → s.Declares o d
  | .mk form span parts, role, id, p, o, owners, d, hn, hr, hl, hd => by
    rw [Node.declared, List.mem_append] at hd
    rcases hd with hd | hd
    · exact .node hl hr hn (by simpa using hd)
    · exact h.declares_of_mem_parts parts hn (fun r c hc => hc) (fun j => Node.getElem?_below hn)
        (fun r c hout hc => ⟨owners, hl.around hc ((h.leavesOut_iff hn hc).mp hout)⟩) hd

theorem Parsed.declares_of_mem_parts (h : s.Parsed) : (ps : Parts) → {wanted : Role → Bool} →
    {id p o : Nat} → {d : Declaration} → {m : Node} → s.tree.preorder[p]? = some m →
    (∀ r c, (r, c) ∈ ps.numbered id → (r, c) ∈ m.parts.numbered (p + 1)) →
    (∀ j, j < ps.size → s.tree.preorder[id + j]? = ps.preorder[j]?) →
    (∀ r c, wanted r = true → (r, c) ∈ (s.entry p).parts → ∃ owners, s.LiesIn c (o :: owners)) →
    d ∈ ps.declared s.package wanted id → s.Declares o d
  | .nil, _, _, _, _, _, _, _, _, _, _, hd => by
    rw [Parts.declared] at hd
    cases hd
  | .cons role node rest, wanted, id, p, o, d, m, hm, hlisted, hat, hlies, hd => by
    obtain ⟨hnode, hbehind⟩ := Parts.aligned_cons hat
    rw [Parts.numbered] at hlisted
    rw [Parts.declared, List.mem_append] at hd
    rcases hd with hd | hd
    · split at hd
      · next hwanted =>
          have hr : (role, id) ∈ (s.entry p).parts := by
            rw [h.isOutlined.entry_eq hm]
            exact hlisted role id List.mem_cons_self
          obtain ⟨owners, hl⟩ := hlies role id hwanted hr
          exact h.declares_of_mem node hnode hr hl hd
      · cases hd
    · exact h.declares_of_mem_parts rest hm (fun r c hc => hlisted r c (List.mem_cons_of_mem _ hc))
        hbehind hlies hd

end

namespace Parsed

variable (h : s.Parsed)

include h

theorem sorted_symbols {i : Nat} {scope : Scope} (hs : s.scopes[i]? = some scope) :
    scope.symbols.Pairwise fun d d' => d.node < d'.node := by
  obtain ⟨m, _, -, -, hscope⟩ := h.describes.scope_eq hs
  have hthis : DeclaredBetween scope.owner (scope.owner + 1) (m.this? scope.owner).toList :=
    .toList fun d hd => (Node.this?_eq_some hd).2.1
  rw [hscope, Scope.symbols_defineAll]
  exact (hthis.append (m.parts.declaredBetween_declared s.package m.form.takesIn _)
    (Nat.le_succ _) (Nat.le_add_right _ _)).sorted

/-- A part that a node takes into its scope lies in it. -/
theorem liesIn_of_takesIn {o c : Nat} {r : Role} {m : Node} (hm : s.tree.preorder[o]? = some m)
    (hform : o = 0 ∨ m.form.opensScope = true) (hc : (r, c) ∈ (s.entry o).parts)
    (hin : m.form.takesIn r = true) : ∃ owners, s.LiesIn c (o :: owners) := by
  by_cases hopens : m.form.opensScope = true
  · obtain ⟨owners, hl⟩ := h.exists_liesIn (h.isOutlined.lt_size hm)
    have hbody : ¬ m.form.leavesOut r = true := by
      simpa [Form.leavesOut, Form.takesIn, hopens] using hin
    rw [h.leavesOut_iff hm hc] at hbody
    simp only [not_forall] at hbody
    obtain ⟨header, hheader, hbody⟩ := hbody
    exact ⟨owners, hl.within hc hheader hbody⟩
  · obtain rfl := hform.resolve_right hopens
    have hout : m.form.leavesOut r = true := by simp [Form.leavesOut, hopens]
    exact ⟨[], LiesIn.file.around hc ((h.leavesOut_iff hm hc).mp hout)⟩

/-- Whatever a scope holds is declared in the scope of its owner. -/
theorem declares_of_mem_symbols {i : Nat} {scope : Scope} (hs : s.scopes[i]? = some scope)
    {d : Declaration} (hd : d ∈ scope.symbols) : s.Declares scope.owner d := by
  obtain ⟨m, _, hm, howner, hscope⟩ := h.describes.scope_eq hs
  rw [hscope, Scope.symbols_defineAll, List.nil_append, Node.held, List.mem_append] at hd
  rcases hd with hd | hd
  · exact .this hm (by simpa using hd)
  · refine h.declares_of_mem_parts m.parts hm (fun r c hc => hc) (fun j => Node.getElem?_below hm)
      (fun r c hin hc => ?_) hd
    exact h.liesIn_of_takesIn hm (howner.imp (·.2.1) (·.1)) hc hin

/-- A scope holds what is declared in the scope of its owner. -/
theorem mem_symbols_iff {i : Nat} {scope : Scope} (hs : s.scopes[i]? = some scope)
    {d : Declaration} : d ∈ scope.symbols ↔ s.Declares scope.owner d := by
  refine ⟨h.declares_of_mem_symbols hs, fun hd => ?_⟩
  generalize ho : scope.owner = o at hd
  cases hd with
  | node hl hr hm hd =>
      obtain ⟨m', scope', outer, hplaced, howners⟩ := hl.placed h
      cases hm.symm.trans hplaced.getElem?_eq
      obtain ⟨-, rfl⟩ := h.describes.eq_of_owner_eq hs hplaced.enclosed.getElem?_eq
        (ho.trans (List.cons.inj howners).1.symm)
      exact hplaced.own _ _ _ hr hd
  | @this m _ hm hd =>
      obtain ⟨parent, around, hfits⟩ := h.describes.fits_of_getElem? hm
      obtain ⟨-, -, hform⟩ := Node.this?_eq_some hd
      have hopens : m.form.opensScope = true := by
        rcases hform with hform | hform <;> (rw [hform]; rfl)
      obtain ⟨inner, hinner⟩ := hfits.exists_scope hopens
      obtain ⟨-, rfl⟩ := h.describes.eq_of_owner_eq hs hinner (by simp [ho])
      simp [Node.held, hd]

/-! ## Finding a name -/

theorem indexed {i : Nat} {scope : Scope} (hs : s.scopes[i]? = some scope) : scope.Indexed := by
  have hfresh {id owner : NodeId} {parent : Option ScopeId} :
      ({ id, parent, owner } : Scope).Indexed := fun _ => rfl
  obtain ⟨_, _, -, -, hscope⟩ := h.describes.scope_eq hs
  rw [hscope]
  exact hfresh.defineAll

theorem lookup_eq_some_iff {i : Nat} {scope : Scope} (hs : s.scopes[i]? = some scope) {name : Text}
    {d : Declaration} : scope.lookup name = some d ↔ s.FirstDeclares scope.owner name d := by
  rw [(h.indexed hs).lookup_eq, find?_eq_some_iff_of_sorted (h.sorted_symbols hs)]
  simp only [h.mem_symbols_iff hs]
  exact ⟨fun hd => ⟨hd.1, hd.2.1, hd.2.2⟩, fun hd => ⟨hd.declares, hd.name_eq, hd.le⟩⟩

theorem lookup_eq_none_iff {i : Nat} {scope : Scope} (hs : s.scopes[i]? = some scope)
    {name : Text} : scope.lookup name = none ↔ ∀ d, s.Declares scope.owner d → d.name ≠ name := by
  rw [(h.indexed hs).lookup_eq, List.find?_eq_none]
  simp only [h.mem_symbols_iff hs]
  simp

theorem scopesAround_eq {n : Nat} {m : Node} {scope : Scope} {outer : List Scope}
    (hplaced : s.Placed n m scope outer) : s.scopesAround n = scope :: outer := by
  obtain ⟨parent, hfits⟩ := hplaced.fits
  have hat : s.scopeAt n = scope.id := by
    obtain ⟨form, span, parts⟩ := m
    rw [scopeAt, hfits.1]
    rfl
  have hall := scopesAround_enclosed h.ordered n
  rw [hat] at hall
  exact hall.unique hplaced.enclosed

end Parsed

/-- The meaning of names in a script is lexical. -/
structure IsLexical (s : Script) : Prop where
  /-- Every node lies in the scopes of certain nodes, and of no others. -/
  liesIn : ∀ n < s.size, ∃! owners, s.LiesIn n owners
  /-- A name means its first declaration in the innermost of these scopes that declares it. -/
  lookup_some : ∀ n owners name d, s.LiesIn n owners →
    (s.lookup? n name = some d ↔ ∃ inner o outer, owners = inner ++ o :: outer ∧
      (∀ o' ∈ inner, ∀ d', s.Declares o' d' → d'.name ≠ name) ∧ s.FirstDeclares o name d)
  /-- It means nothing if none of them declares it. -/
  lookup_none : ∀ n owners name, s.LiesIn n owners →
    (s.lookup? n name = none ↔ ∀ o ∈ owners, ∀ d, s.Declares o d → d.name ≠ name)
  /-- Imports, variables, parameters, functions, operators and classes are declared in the
  scope that they lie in. -/
  declared : ∀ n m o owners, s.LiesIn n (o :: owners) → s.tree.preorder[n]? = some m →
    m.form.isDeclared = true → ∃ d, s.Declares o d ∧ d.node = n ∧ d.name = m.declaredName
  /-- The variables of a loop are declared in the scope of the loop. -/
  loopVar : ∀ p n, (Role.loopVar, n) ∈ (s.entry p).parts →
    s.form p = .foreachStmt ∧ ∃ d, s.Declares p d ∧ d.node = n ∧ d.name = s.identName n
  /-- Classes and expand functions declare `this` in their own scope. -/
  this : ∀ o < s.size, s.form o = .classDecl ∨ s.form o = .expandFuncDecl →
    ∃ d, s.Declares o d ∧ d.node = o ∧ d.name = txt "this"
  /-- Apart from that, expand functions and constructors are declared in no scope. -/
  undeclared : ∀ o d, s.Declares o d → s.form d.node ≠ .constructorDecl ∧
    (s.form d.node = .expandFuncDecl → o = d.node ∧ d.name = txt "this")

end Script

/-! ### What the forms declare -/

theorem Node.declaration?_of_isDeclared {m : Node} (h : m.form.isDeclared = true) (package : Text)
    (r : Role) (n : NodeId) :
    ∃ d, m.declaration? package r n = some d ∧ d.name = m.declaredName := by
  obtain ⟨form, span, parts⟩ := m
  cases form with
  | importDecl _ | varDecl _ | param | funcDecl _ | operatorDecl _ | classDecl =>
      exact ⟨_, rfl, rfl⟩
  | _ => cases h

theorem Form.eq_foreachStmt {form : Form} (h : form.admits .loopVar = true) :
    form = .foreachStmt := by
  cases form with
  | foreachStmt => rfl
  | _ => simp [Form.admits, Form.roles] at h

theorem Parts.exists_idOf? {role : Role} {child : Node} : (ps : Parts) → (id : Nat) →
    (role, child) ∈ ps.toList → ∃ c, ps.idOf? role id = some c
  | .nil, _, h => by
    rw [Parts.toList] at h
    cases h
  | .cons role' node rest, id, h => by
    rw [Parts.idOf?, Parts.numbered, List.lookup_cons]
    by_cases hrole : role = role'
    · exact ⟨id, by simp [hrole]⟩
    · rw [Parts.toList, List.mem_cons] at h
      obtain ⟨c, hc⟩ := rest.exists_idOf? (id + node.size) (h.resolve_left fun heq => by
        cases heq
        exact hrole rfl)
      rw [beq_false_of_ne hrole]
      exact ⟨c, hc⟩

namespace Script.Parsed

variable {s : Script} (h : s.Parsed)

include h

theorem lookup?_eq_some_iff {n : Nat} {owners : List NodeId} (hl : s.LiesIn n owners)
    (name : Text) (d : Declaration) :
    s.lookup? n name = some d ↔ ∃ inner o outer, owners = inner ++ o :: outer ∧
      (∀ o' ∈ inner, ∀ d', s.Declares o' d' → d'.name ≠ name) ∧ s.FirstDeclares o name d := by
  obtain ⟨m, scope, outer, hplaced, rfl⟩ := hl.placed h
  rw [lookup?, h.scopesAround_eq hplaced, List.findSome?_eq_some_iff]
  have hin := hplaced.enclosed.exists_getElem?
  generalize scope :: outer = chain at hin ⊢
  have hsome {scope : Scope} (hscope : scope ∈ chain) :
      scope.lookup name = some d ↔ s.FirstDeclares scope.owner name d := by
    obtain ⟨i, hs⟩ := hin scope hscope
    exact h.lookup_eq_some_iff hs
  have hnone {scope : Scope} (hscope : scope ∈ chain) :
      scope.lookup name = none ↔ ∀ d', s.Declares scope.owner d' → d'.name ≠ name := by
    obtain ⟨i, hs⟩ := hin scope hscope
    exact h.lookup_eq_none_iff hs
  constructor
  · rintro ⟨inner, scope, outer, rfl, hscope, hinner⟩
    refine ⟨inner.map (·.owner), scope.owner, outer.map (·.owner), by simp, ?_, ?_⟩
    · exact List.forall_mem_map.mpr fun x hx => (hnone (List.mem_append_left _ hx)).mp (hinner x hx)
    · exact (hsome (by simp)).mp hscope
  · rintro ⟨inner, o, outer, howners, hinner, hfirst⟩
    obtain ⟨inner, rest, rfl, rfl, hrest⟩ := List.map_eq_append_iff.mp howners
    obtain ⟨scope, outer, rfl, rfl, rfl⟩ := List.map_eq_cons_iff.mp hrest
    refine ⟨inner, scope, outer, rfl, (hsome (by simp)).mpr hfirst, fun x hx => ?_⟩
    exact (hnone (List.mem_append_left _ hx)).mpr (hinner x.owner (List.mem_map_of_mem hx))

theorem lookup?_eq_none_iff {n : Nat} {owners : List NodeId} (hl : s.LiesIn n owners)
    (name : Text) :
    s.lookup? n name = none ↔ ∀ o ∈ owners, ∀ d, s.Declares o d → d.name ≠ name := by
  obtain ⟨m, scope, outer, hplaced, rfl⟩ := hl.placed h
  rw [lookup?, h.scopesAround_eq hplaced, List.findSome?_eq_none_iff, List.forall_mem_map]
  refine forall₂_congr fun scope hscope => ?_
  obtain ⟨i, hs⟩ := hplaced.enclosed.exists_getElem? scope hscope
  exact h.lookup_eq_none_iff hs

theorem declares_isDeclared {n o : Nat} {m : Node} {owners : List NodeId}
    (hl : s.LiesIn n (o :: owners)) (hm : s.tree.preorder[n]? = some m)
    (hform : m.form.isDeclared = true) :
    ∃ d, s.Declares o d ∧ d.node = n ∧ d.name = m.declaredName := by
  have hlisted : ∃ p r, (r, n) ∈ (s.entry p).parts := by
    cases hl with
    | file =>
        rw [(h.isFile.form_eq_file_iff hm).mpr rfl] at hform
        cases hform
    | around _ hr _ => exact ⟨_, _, hr⟩
    | within _ hr _ _ => exact ⟨_, _, hr⟩
  obtain ⟨p, r, hr⟩ := hlisted
  obtain ⟨d, hd, hname⟩ := Node.declaration?_of_isDeclared hform s.package r n
  exact ⟨d, .node hl hr hm hd, Node.declaration?_node hd, hname⟩

theorem declares_loopVar {p n : Nat} (hr : (Role.loopVar, n) ∈ (s.entry p).parts) :
    s.form p = .foreachStmt ∧ ∃ d, s.Declares p d ∧ d.node = n ∧ d.name = s.identName n := by
  obtain ⟨-, m, child, hm, hchild, hpart⟩ := (h.isOutlined.mem_parts_iff.mp hr).part
  have hform := Form.eq_foreachStmt (h.isFile.admits_part hm hpart)
  have hforeach : s.form p = .foreachStmt := (h.isOutlined.form_eq hm).trans hform
  have hp : p ≠ 0 := by
    intro hp
    rw [(h.isFile.form_eq_file_iff hm).mpr hp] at hform
    cases hform
  have hrequires := (h.isFile.fits hm hp).requires
  rw [hform] at hrequires
  obtain ⟨name, hname⟩ := hrequires child hpart
  obtain ⟨owners, hl⟩ := h.exists_liesIn (h.isOutlined.lt_size hm)
  have hin : s.LiesIn n (p :: owners) := hl.within hr (by rw [hforeach]; rfl) (by simp)
  have hident : s.identName n = name := by
    rw [identName, h.isOutlined.form_eq hchild, hname]
  refine ⟨hforeach, { name, kind := .var, modifiers := .var, node := n }, ?_, rfl, hident.symm⟩
  refine .node hin hr hchild ?_
  obtain ⟨form, span, parts⟩ := child
  cases hname
  rfl

theorem declares_this {o : Nat} (ho : o < s.size)
    (hform : s.form o = .classDecl ∨ s.form o = .expandFuncDecl) :
    ∃ d, s.Declares o d ∧ d.node = o ∧ d.name = txt "this" := by
  obtain ⟨m, hm⟩ := h.isOutlined.exists_node ho
  rw [h.isOutlined.form_eq hm] at hform
  have hthis : ∃ d, m.this? o = some d := by
    rcases hform with hform | hform
    · obtain ⟨form, span, parts⟩ := m
      cases hform
      exact ⟨_, rfl⟩
    · have hne : o ≠ 0 := by
        intro hzero
        rw [(h.isFile.form_eq_file_iff hm).mpr hzero] at hform
        cases hform
      have hrequires := (h.isFile.fits hm hne).requires
      rw [hform] at hrequires
      obtain ⟨target, rest, hparts, -⟩ := hrequires
      have htarget : (Role.target, target) ∈ m.parts.toList := hparts ▸ List.mem_cons_self
      obtain ⟨form, span, parts⟩ := m
      cases hform
      obtain ⟨c, hc⟩ := parts.exists_idOf? (o + 1) htarget
      rw [Node.this?, hc]
      exact ⟨_, rfl⟩
  obtain ⟨d, hd⟩ := hthis
  exact ⟨d, .this hm hd, (Node.this?_eq_some hd).2.1, (Node.this?_eq_some hd).1⟩

theorem not_declares {o : Nat} {d : Declaration} (hd : s.Declares o d) :
    s.form d.node ≠ .constructorDecl ∧
      (s.form d.node = .expandFuncDecl → o = d.node ∧ d.name = txt "this") := by
  cases hd with
  | @node n _ _ _ m _ _ _ hm hd =>
      rw [Node.declaration?_node hd, h.isOutlined.form_eq hm]
      obtain ⟨form, span, parts⟩ := m
      constructor
      · intro hform
        cases hform
        cases hd
      · intro hform
        cases hform
        cases hd
  | this hm hd =>
      obtain ⟨hname, hnode, hform⟩ := Node.this?_eq_some hd
      rw [hnode, h.isOutlined.form_eq hm]
      refine ⟨fun hconstructor => ?_, fun _ => ⟨rfl, hname⟩⟩
      rw [hconstructor] at hform
      rcases hform with hform | hform <;> cases hform

end Script.Parsed

/-- In every script names have their lexical meaning. -/
theorem Script.parse_isLexical (path package source : Text) :
    (parse path package source).IsLexical := by
  have h := parse_parsed path package source
  refine ⟨fun n hn => ?_, fun n owners name d hl => h.lookup?_eq_some_iff hl name d,
    fun n owners name hl => h.lookup?_eq_none_iff hl name,
    fun n m o owners hl hm hform => h.declares_isDeclared hl hm hform,
    fun p n hr => h.declares_loopVar hr, fun o ho hform => h.declares_this ho hform,
    fun o d hd => h.not_declares hd⟩
  obtain ⟨owners, hl⟩ := h.exists_liesIn hn
  exact ⟨owners, hl, fun owners' hl' => h.liesIn_unique hl' hl⟩

end Zensight
