import Mathlib.Data.List.Nodup
import Zensight.Proofs.Binding
import Zensight.Proofs.Spans

/-!
# The tables of a script describe its tree

What the walk leaves behind fits the tree (`Bindings.ofTree_describes`). Going down from the
root, every node is found in the table of what surrounds it, with the node that lists it as
its parent. The walk opens scopes in an order of its own; how many scopes a node owns is
counted along the walk (`Node.count_owners_bind`), and with one scope for each owner every
scope is known in full (`Bindings.Describes.scope_eq`).
-/

namespace Zensight

/-! ## Which nodes own a scope -/

/-- The numbers of the nodes that open a scope, in a listing whose first node has the number
`id`. -/
def openers (id : Nat) : List Node → List NodeId
  | [] => []
  | n :: ns => if n.form.opensScope then id :: openers (id + 1) ns else openers (id + 1) ns

theorem openers_append (id : Nat) (ns ms : List Node) :
    openers id (ns ++ ms) = openers id ns ++ openers (id + ns.length) ms := by
  induction ns generalizing id with
  | nil => rfl
  | cons n ns ih =>
      rw [List.cons_append, openers, openers, ih, List.length_cons, Nat.add_right_comm,
        Nat.add_assoc]
      split <;> rfl

theorem count_openers (id c : Nat) (ns : List Node) :
    (openers id ns).count c =
      if id ≤ c ∧ (ns[c - id]?).any (·.form.opensScope) = true then 1 else 0 := by
  induction ns generalizing id with
  | nil => simp [openers]
  | cons n ns ih =>
      have hrest := ih (id + 1)
      rw [openers]
      rcases Nat.lt_trichotomy c id with hlt | rfl | hlt
      · have hne : id ≠ c := by omega
        split <;> simp [hrest, hne, Nat.not_le.mpr hlt, show ¬ id + 1 ≤ c by omega]
      · have hnot : ¬ c + 1 ≤ c := by omega
        rw [if_neg fun h => hnot h.1] at hrest
        rw [Nat.sub_self, List.getElem?_cons_zero]
        split
        · next hopens => simp [hrest, hopens]
        · next hopens => simp [hrest, hopens]
      · have hne : id ≠ c := by omega
        rw [show c - id = c - (id + 1) + 1 by omega, List.getElem?_cons_succ]
        split <;> simp [hrest, hne, Nat.le_of_lt hlt, Nat.succ_le_of_lt hlt]

/-- Those below the parts whose role is wanted. -/
def Parts.openers (wanted : Role → Bool) (id : Nat) : Parts → List NodeId
  | .nil => []
  | .cons role node rest =>
    (if wanted role then Zensight.openers id node.preorder else []) ++
      rest.openers wanted (id + node.size)

/-- The parts whose role is wanted and the others have all openers between them. -/
theorem Parts.count_openers (wanted : Role → Bool) : (ps : Parts) → (id c : Nat) →
    (ps.openers wanted id).count c + (ps.openers (!wanted ·) id).count c
      = (Zensight.openers id ps.preorder).count c
  | .nil, _, _ => rfl
  | .cons role node rest, id, c => by
    have hrest := rest.count_openers wanted (id + node.size) c
    rw [Parts.openers, Parts.openers, Parts.preorder, openers_append, node.length_preorder]
    simp only [List.count_append]
    cases wanted role with
    | true => simp; omega
    | false => simp; omega

theorem Parts.count_openers_all : (ps : Parts) → (id c : Nat) →
    (ps.openers (fun _ => true) id).count c = (Zensight.openers id ps.preorder).count c
  | .nil, _, _ => rfl
  | .cons role node rest, id, c => by
    rw [Parts.openers, if_pos rfl, Parts.preorder, openers_append, node.length_preorder,
      List.count_append, List.count_append, rest.count_openers_all]

namespace Bindings

/-- The nodes that own the scopes, in the order of the scopes. -/
def owners (b : Bindings) : List NodeId := b.scopes.toList.map (·.owner)

theorem owners_of_skeleton {b b' : Bindings} (h : b'.skeleton = b.skeleton) :
    b'.owners = b.owners := by
  have hscopes := congrArg (fun k => k.scopes.toList.map (·.2)) h
  simpa [skeleton, owners, Function.comp_def] using hscopes

theorem owners_openScope (b : Bindings) (owner : NodeId) (parent : Option ScopeId) :
    (b.openScope owner parent).owners = b.owners ++ [owner] := by
  simp [owners, openScope]

end Bindings

mutual

/-- Walking a node opens one scope for each opener. -/
theorem Node.count_owners_bind (c : Nat) : (n : Node) → (role : Role) → (id parent scope : Nat) →
    (b : Bindings) → (n.bind role id parent scope b).owners.count c
      = b.owners.count c + (openers id n.preorder).count c
  | .mk form span parts, role, id, parent, scope, b => by
    have hstart : ((b.record id (some parent) scope).declareNode role id scope form span.start
        parts).owners = b.owners :=
      (Bindings.owners_of_skeleton (Bindings.skeleton_declareNode ..)).trans rfl
    have hopeners : openers id (Node.mk form span parts).preorder =
        if form.opensScope then id :: openers (id + 1) parts.preorder
        else openers (id + 1) parts.preorder := rfl
    rw [Node.bind, hopeners]
    by_cases hopens : form.opensScope = true
    · have hsplit := parts.count_openers (·.isHeader) (id + 1) c
      rw [if_pos hopens, if_pos hopens]
      simp only [Parts.count_owners_bind c parts, Bindings.owners_openScope, hstart,
        Bindings.owners_of_skeleton (Bindings.skeleton_declareThis ..), List.count_append,
        List.count_cons, List.count_nil]
      omega
    · rw [if_neg hopens, if_neg hopens, Parts.count_owners_bind c parts, hstart,
        parts.count_openers_all]

theorem Parts.count_owners_bind (c : Nat) : (ps : Parts) → (wanted : Role → Bool) →
    (id parent scope : Nat) → (b : Bindings) → (ps.bind wanted id parent scope b).owners.count c
      = b.owners.count c + (ps.openers wanted id).count c
  | .nil, _, _, _, _, _ => rfl
  | .cons role node rest, wanted, id, parent, scope, b => by
    rw [Parts.bind, Parts.openers, Parts.count_owners_bind c rest, List.count_append]
    split
    · rw [Node.count_owners_bind c node, Nat.add_assoc]
    · simp

end

/-! ## Whole trees -/

/-- What the walk over a whole tree has found: every node fits, the scope of the file holds
what is declared outside all others, and each node that opens a scope owns one. -/
structure Bindings.Describes (b : Bindings) (package : Text) (tree : Node) : Prop where
  package_eq : b.package = package
  fits : tree.Fits b 1 0 none 0
  fileScope : b.scopes[0]? = some
    (({ id := 0, parent := none, owner := 0 } : Scope).defineAll (tree.held package 0))
  count_owners : ∀ c : Nat, b.owners.count c =
    if c = 0 ∨ (tree.preorder[c]?).any (·.form.opensScope) = true then 1 else 0
  size_eq : b.surroundings.size = tree.size

theorem Bindings.ofTree_describes {tree : Node} (hform : tree.form = .file) (package : Text)
    (report : Report) : (ofTree tree package report).Describes package tree := by
  obtain ⟨form, span, parts⟩ := tree
  obtain rfl : form = .file := hform
  obtain ⟨hwalk, hfits⟩ := parts.bind_spec (fun _ => true) 1 0 0
    (((empty (Node.mk .file span parts).size package report).openScope 0 none).record 0 none 0)
    (by simp [Bindings.record, openScope, empty])
    (by simp [Bindings.record, openScope, empty, Node.size, Nat.add_comm])
  refine ⟨hwalk.package_eq, ⟨?_, hfits, fun h => by cases h⟩, hwalk.getElem?_self rfl,
    fun c => ?_, ?_⟩
  · refine (hwalk.surroundings 0 fun hc => absurd hc.bounds.1 (by omega)).trans ?_
    simp [Bindings.record, openScope, empty, Node.size]
  · have hcount := parts.count_owners_bind c (fun _ => true) 1 0 0
      (((empty (Node.mk .file span parts).size package report).openScope 0 none).record 0 none 0)
    rw [parts.count_openers_all, count_openers] at hcount
    refine hcount.trans ?_
    rw [show (((empty (Node.mk .file span parts).size package report).openScope 0 none).record 0
      none 0).owners = [0] from rfl, Node.preorder]
    cases c with
    | zero => simp
    | succ c => simp
  · refine hwalk.size_surroundings.trans ?_
    simp [Bindings.record, openScope, empty]

namespace Bindings.Describes

variable {b : Bindings} {package : Text} {tree : Node} (h : b.Describes package tree)

include h

/-- Every node was walked. -/
theorem exists_fits {n : Nat} (hn : n < tree.size) :
    ∃ m parent scope, tree.preorder[n]? = some m ∧ m.Fits b 1 n parent scope := by
  induction n using Nat.strongRecOn with
  | ind n ih =>
      rcases Nat.eq_zero_or_pos n with rfl | hpos
      · exact ⟨tree, none, 0, tree.getElem?_preorder_zero, h.fits⟩
      · obtain ⟨p, r, m, hm, hlisted⟩ := tree.exists_lists hpos hn
        have hlt : p < n := (m.parts.mem_numbered hlisted).1
        obtain ⟨m', parent, scope, hm', hfits⟩ := ih p hlt (by omega)
        cases hm.symm.trans hm'
        obtain ⟨child, around, hchild, hfits, -⟩ := hfits.part hm hlisted
        exact ⟨child, some p, around, hchild, hfits⟩

theorem fits_of_getElem? {n : Nat} {m : Node} (hm : tree.preorder[n]? = some m) :
    ∃ parent scope, m.Fits b 1 n parent scope := by
  have hn : n < tree.size := by
    rw [← tree.length_preorder]
    exact (List.getElem?_eq_some_iff.mp hm).1
  obtain ⟨m', parent, scope, hm', hfits⟩ := h.exists_fits hn
  cases hm.symm.trans hm'
  exact ⟨parent, scope, hfits⟩

/-- The parent of a node is the one that lists it. -/
theorem surroundings_eq {p c : Nat} {r : Role} (hlists : tree.Lists p r c) :
    ∃ scope, b.surroundings[c]? = some (some ⟨some p, scope⟩) := by
  obtain ⟨m, hm, hc⟩ := hlists
  obtain ⟨parent, scope, hfits⟩ := h.fits_of_getElem? hm
  obtain ⟨⟨form, span, parts⟩, around, -, hfits, -⟩ := hfits.part hm hc
  exact ⟨around, hfits.1⟩

/-- A scope is known by its owner. -/
theorem eq_of_owner_eq {i j : ScopeId} {s t : Scope} (hs : b.scopes[i]? = some s)
    (ht : b.scopes[j]? = some t) (howner : s.owner = t.owner) : i = j ∧ s = t := by
  have hnodup : b.owners.Nodup := by
    refine List.nodup_iff_count_le_one.mpr fun c => ?_
    rw [h.count_owners]
    split <;> omega
  have hi := (Array.getElem?_eq_some_iff.mp hs).1
  have hij : i = j := by
    refine (List.getElem?_inj (by simpa [owners] using hi) hnodup).mp ?_
    simp [owners, hs, ht, howner]
  subst hij
  exact ⟨rfl, Option.some.inj (hs.symm.trans ht)⟩

/-- Every scope is that of the file or the one that its owner opened, and it holds what the
node that owns it makes it hold. -/
theorem scope_eq {i : Nat} {s : Scope} (hs : b.scopes[i]? = some s) :
    ∃ m parent, tree.preorder[s.owner]? = some m ∧
      (i = 0 ∧ s.owner = 0 ∧ parent = none ∨
        m.form.opensScope = true ∧ ∃ around, parent = some around) ∧
      s = ({ id := i, parent, owner := s.owner } : Scope).defineAll (m.held package s.owner) := by
  have hmem : s.owner ∈ b.owners :=
    List.mem_map_of_mem (List.mem_of_getElem? (by simpa using hs))
  have hcount := List.count_pos_iff.mpr hmem
  rw [h.count_owners] at hcount
  have hopener : s.owner = 0 ∨ (tree.preorder[s.owner]?).any (·.form.opensScope) = true := by
    by_contra hnot
    rw [if_neg hnot] at hcount
    omega
  rcases hopener with hzero | hopens
  · obtain ⟨rfl, hfile⟩ := h.eq_of_owner_eq hs h.fileScope (by simpa using hzero)
    rw [hzero]
    exact ⟨tree, none, tree.getElem?_preorder_zero, .inl ⟨rfl, rfl, rfl⟩, hfile⟩
  · obtain ⟨m, hm, hform⟩ := (Option.any_eq_true _ _).mp hopens
    obtain ⟨parent, around, hfits⟩ := h.fits_of_getElem? hm
    obtain ⟨inner, hscope⟩ := hfits.exists_scope hform
    rw [h.package_eq] at hscope
    obtain ⟨rfl, hinner⟩ := h.eq_of_owner_eq hs hscope (by simp)
    exact ⟨m, some around, hm, .inr ⟨hform, around, rfl⟩, hinner⟩

end Bindings.Describes

/-! ## Whole scripts -/

/-- The header of a node that has a scope of its own, as the roles of its parts: the name, the
target and the result of an executable, the name and the super types of a class, the expression
that a loop iterates over. The file, which has a scope too, is not in the list. -/
def Form.header? : Form → Option (List Role)
  | funcDecl _ | expandFuncDecl | constructorDecl | operatorDecl _ | funcLit =>
    some [.name, .target, .result]
  | classDecl => some [.name, .super]
  | foreachStmt => some [.iterated]
  | block => some []
  | _ => none

theorem Form.isSome_header? (form : Form) : form.header?.isSome = form.opensScope := by
  cases form <;> rfl

namespace Script

variable {s : Script}

/-- The script was read from a text. -/
def Parsed (s : Script) : Prop := ∃ path package source, s = parse path package source

theorem parse_parsed (path package source : Text) : (parse path package source).Parsed :=
  ⟨path, package, source, rfl⟩

theorem Parsed.isOutlined (h : s.Parsed) : s.IsOutlined := by
  obtain ⟨path, package, source, rfl⟩ := h
  exact parse_isOutlined path package source

theorem Parsed.isFile (h : s.Parsed) : s.tree.IsFile := by
  obtain ⟨path, package, source, rfl⟩ := h
  exact Text.parse_isFile source

theorem Parsed.ordered (h : s.Parsed) : s.bindings.skeleton.Ordered := by
  obtain ⟨path, package, source, rfl⟩ := h
  exact parse_ordered path package source

theorem Parsed.describes (h : s.Parsed) : s.bindings.Describes s.package s.tree := by
  obtain ⟨path, package, source, rfl⟩ := h
  exact Bindings.ofTree_describes (Text.parse_isFile source).form_eq _ _

theorem outer_lt (h : s.bindings.skeleton.Ordered) {i outer : Nat} {scope : Scope}
    (hs : s.scopes[i]? = some scope) (hparent : scope.parent = some outer) : outer < i := by
  refine h.outer_lt i outer scope.owner ?_
  have hs : s.bindings.scopes[i]? = some scope := hs
  simp [Bindings.skeleton, hs, hparent]

/-- The search for the scopes around a scope ends at the one that has none around it. -/
theorem Enclosed.getLast?_eq {i : Nat} {chain : List Scope} (h : s.Enclosed i chain)
    (hordered : s.bindings.skeleton.Ordered)
    (houtermost : ∀ j scope, s.scopes[j]? = some scope → scope.parent = none → j = 0)
    (hi : i < s.scopes.size) : chain.getLast? = s.scopes[0]? := by
  induction h with
  | missing hnone => exact absurd (Array.getElem?_eq_none_iff.mp hnone) (by omega)
  | @outermost i scope hs hparent =>
      cases houtermost i scope hs hparent
      exact hs.symm
  | @inner i outer scope rest hs hparent _ ih =>
      have hin := Nat.lt_trans (outer_lt hordered hs hparent) hi
      rw [List.getLast?_cons, ih hin, Array.getElem?_eq_getElem (Nat.zero_lt_of_lt hi)]
      rfl

namespace Parsed

variable (h : s.Parsed)

include h

theorem recorded_iff (n : Nat) :
    s.bindings.surroundings[n]?.join.isSome = true ↔ n < s.size := by
  rw [h.isOutlined.size_eq]
  constructor
  · intro hrecorded
    by_contra hn
    rw [← h.describes.size_eq] at hn
    rw [Array.getElem?_eq_none (Nat.le_of_not_lt hn)] at hrecorded
    cases hrecorded
  · intro hn
    obtain ⟨⟨form, span, parts⟩, parent, scope, -, hfits⟩ := h.describes.exists_fits hn
    rw [hfits.1]
    rfl

theorem parent?_zero : s.parent? 0 = none := by
  have hfits := h.describes.fits
  cases htree : s.tree with
  | mk form span parts =>
      rw [htree] at hfits
      rw [parent?, hfits.1]
      rfl

theorem parent?_eq_some_iff (n p : Nat) : s.parent? n = some p ↔ s.Lists p n := by
  have hlisted {p : Nat} {r : Role} (hlists : s.tree.Lists p r n) : s.parent? n = some p := by
    obtain ⟨scope, hscope⟩ := h.describes.surroundings_eq hlists
    rw [parent?, hscope]
    rfl
  constructor
  · intro hp
    have hn : n < s.size := by
      refine (h.recorded_iff n).mp ?_
      cases hjoin : s.bindings.surroundings[n]?.join with
      | none => rw [parent?, hjoin] at hp; cases hp
      | some around => rfl
    have hpos : 0 < n := by
      rcases Nat.eq_zero_or_pos n with rfl | hpos
      · rw [h.parent?_zero] at hp
        cases hp
      · exact hpos
    obtain ⟨p', r, hlists⟩ := s.tree.exists_lists hpos (h.isOutlined.size_eq ▸ hn)
    cases (hlisted hlists).symm.trans hp
    exact ⟨r, h.isOutlined.mem_parts_iff.mpr hlists⟩
  · rintro ⟨r, hr⟩
    exact hlisted (h.isOutlined.mem_parts_iff.mp hr)

theorem scope_id {i : Nat} {scope : Scope} (hs : s.scopes[i]? = some scope) :
    scope.id = i ∧ (i = 0 ∨ ∃ outer, scope.parent = some outer) := by
  obtain ⟨m, parent, -, hparent, hscope⟩ := h.describes.scope_eq hs
  rw [hscope, Scope.id_defineAll, Scope.parent_defineAll]
  rcases hparent with ⟨rfl, -, -⟩ | ⟨-, around, rfl⟩
  · exact ⟨rfl, .inl rfl⟩
  · exact ⟨rfl, .inr ⟨around, rfl⟩⟩

theorem count_owners (n : Nat) : (s.scopes.toList.map (·.owner)).count n =
    if n < s.size ∧ (s.form n = .file ∨ (s.form n).header?.isSome = true) then 1 else 0 := by
  refine (h.describes.count_owners n).trans ?_
  cases hm : s.tree.preorder[n]? with
  | none =>
      have hn : ¬ n < s.size := by
        intro hn
        obtain ⟨m, hm'⟩ := h.isOutlined.exists_node hn
        cases hm.symm.trans hm'
      have hpos : n ≠ 0 := by
        rintro rfl
        rw [s.tree.getElem?_preorder_zero] at hm
        cases hm
      simp [hn, hpos]
  | some m =>
      simp [h.isOutlined.lt_size hm, h.isOutlined.form_eq hm, h.isFile.form_eq_file_iff hm,
        Form.isSome_header?]

end Parsed

/-- The tables of a script describe its tree. -/
structure IsBound (s : Script) : Prop where
  /-- The nodes recorded are those that one comes to from the file. -/
  recorded : ∀ n, s.bindings.surroundings[n]?.join.isSome = true ↔
    Relation.ReflTransGen s.Lists 0 n
  /-- The parent of a node is the one that lists it among its parts; the file has none. -/
  parent : ∀ n p, s.parent? n = some p ↔ s.Lists p n
  file_parent : s.parent? 0 = none
  /-- The first scope is that of the file. -/
  fileScope : ∃ scope, s.scopes[0]? = some scope ∧ scope.owner = 0 ∧ scope.parent = none
  /-- A scope has its own number, and all but the first lie in one that comes before. -/
  scopes : ∀ i scope, s.scopes[i]? = some scope →
    scope.id = i ∧ (i ≠ 0 → ∃ outer < i, scope.parent = some outer)
  /-- The scopes around a scope end with that of the file. -/
  scopeChain : ∀ i, i < s.scopes.size →
    (s.scopeChain s.scopes.size i).getLast? = s.scopes[0]?
  /-- The file, classes, executables, loops and blocks own one scope each, no other node owns
  any. -/
  owners : ∀ n, (s.scopes.toList.map (·.owner)).count n =
    if n < s.size ∧ (s.form n = .file ∨ (s.form n).header?.isSome = true) then 1 else 0

theorem parse_isBound (path package source : Text) : (parse path package source).IsBound := by
  have h := parse_parsed path package source
  refine ⟨fun n => ?_, h.parent?_eq_some_iff, h.parent?_zero, ?_, fun i scope hs => ?_,
    fun i hi => ?_, h.count_owners⟩
  · rw [h.recorded_iff, h.isOutlined.reaches_iff]
  · exact ⟨_, h.describes.fileScope, by simp, by simp⟩
  · obtain ⟨hid, hzero | ⟨outer, houter⟩⟩ := h.scope_id hs
    · exact ⟨hid, fun hi => absurd hzero hi⟩
    · exact ⟨hid, fun _ => ⟨outer, outer_lt h.ordered hs houter, houter⟩⟩
  · refine (scopeChain_enclosed h.ordered _ i (.inl hi)).getLast?_eq h.ordered ?_ hi
    intro j scope hs hparent
    obtain ⟨-, hzero | ⟨outer, houter⟩⟩ := h.scope_id hs
    · exact hzero
    · rw [hparent] at houter
      cases houter

end Script

end Zensight
