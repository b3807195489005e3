import Mathlib.Data.List.Basic
import Mathlib.Logic.Relation
import Zensight.Script

/-!
# How the nodes of a tree are numbered

A node is named by its place in the listing of the tree, and the outline has the numbers
of its parts. Two facts tie them together: the listing of a node stands as one stretch in
that of the tree (`Node.preorder_stretch`), so that a number means the same wherever one
starts to count; and every number but that of the root is listed among the parts of a node
(`Node.exists_lists`).
-/

namespace Zensight

mutual

@[simp] theorem Node.length_preorder : (n : Node) → n.preorder.length = n.size
  | .mk form span parts => by
    rw [Node.preorder, List.length_cons, parts.length_preorder, Node.size]

@[simp] theorem Parts.length_preorder : (ps : Parts) → ps.preorder.length = ps.size
  | .nil => rfl
  | .cons role node rest => by
    rw [Parts.preorder, List.length_append, node.length_preorder, rest.length_preorder, Parts.size]

end

theorem Node.size_eq (n : Node) : n.size = n.parts.size + 1 := by
  cases n
  rfl

theorem Node.getElem?_preorder_zero (n : Node) : n.preorder[0]? = some n := by
  cases n
  rfl

/-- The entry of a node that has the number `id`. -/
def Node.entryAt (id : Nat) (n : Node) : Entry := ⟨n.form, n.span, n.parts.numbered (id + 1)⟩

mutual

theorem Node.entriesFrom_eq : (n : Node) → (id : Nat) →
    n.entriesFrom id = n.preorder.mapIdx fun j => Node.entryAt (id + j)
  | .mk form span parts, id => by
    rw [Node.entriesFrom, Node.preorder, List.mapIdx_cons, parts.entriesFrom_eq (id + 1)]
    simp only [Nat.add_assoc, Nat.add_comm 1]
    rfl

theorem Parts.entriesFrom_eq : (ps : Parts) → (id : Nat) →
    ps.entriesFrom id = ps.preorder.mapIdx fun j => Node.entryAt (id + j)
  | .nil, _ => rfl
  | .cons role node rest, id => by
    rw [Parts.entriesFrom, Parts.preorder, List.mapIdx_append, node.entriesFrom_eq,
      rest.entriesFrom_eq, node.length_preorder]
    simp only [Nat.add_assoc, Nat.add_comm node.size]

end

mutual

/-- The listing of a node is a stretch of the listing of the tree it is in. -/
theorem Node.preorder_stretch : (n : Node) → {j : Nat} → {m : Node} → n.preorder[j]? = some m →
    ∃ before after, n.preorder = before ++ (m.preorder ++ after) ∧ before.length = j
  | .mk form span parts, j, m, h => by
    rw [Node.preorder] at h
    cases j with
    | zero =>
        cases h
        exact ⟨[], [], by simp, rfl⟩
    | succ j =>
        rw [List.getElem?_cons_succ] at h
        obtain ⟨before, after, hsplit, hlength⟩ := parts.preorder_stretch h
        exact ⟨.mk form span parts :: before, after, by rw [Node.preorder, hsplit]; rfl,
          by simp [hlength]⟩

theorem Parts.preorder_stretch : (ps : Parts) → {j : Nat} → {m : Node} →
    ps.preorder[j]? = some m →
    ∃ before after, ps.preorder = before ++ (m.preorder ++ after) ∧ before.length = j
  | .nil, j, m, h => by
    rw [Parts.preorder] at h
    cases h
  | .cons role node rest, j, m, h => by
    rw [Parts.preorder] at h
    by_cases hj : j < node.size
    · rw [List.getElem?_append_left (by simpa using hj)] at h
      obtain ⟨before, after, hsplit, hlength⟩ := node.preorder_stretch h
      exact ⟨before, after ++ rest.preorder, by rw [Parts.preorder, hsplit]; simp, hlength⟩
    · rw [List.getElem?_append_right (by simpa using hj), node.length_preorder] at h
      obtain ⟨before, after, hsplit, hlength⟩ := rest.preorder_stretch h
      refine ⟨node.preorder ++ before, after, by rw [Parts.preorder, hsplit]; simp, ?_⟩
      rw [List.length_append, node.length_preorder, hlength]
      omega

end

/-! ## Parts -/

section

variable {role : Role} {node : Node} {rest : Parts}

theorem Parts.getElem?_first (id : Nat) :
    (Parts.cons role node rest).preorder[id - id]? = some node := by
  rw [Parts.preorder, Nat.sub_self, List.getElem?_append_left (by simp [node.size_eq]),
    node.getElem?_preorder_zero]

theorem Parts.getElem?_later {id c : Nat} (h : id + node.size ≤ c) :
    (Parts.cons role node rest).preorder[c - id]? = rest.preorder[c - (id + node.size)]? := by
  rw [Parts.preorder, List.getElem?_append_right (by rw [node.length_preorder]; omega),
    node.length_preorder, Nat.sub_sub]

/-- If the parts are numbered from `id` on in the tree, the first of them has that number. -/
theorem Parts.aligned_cons {tree : Node} {id : Nat}
    (h : ∀ j, j < (Parts.cons role node rest).size →
      tree.preorder[id + j]? = (Parts.cons role node rest).preorder[j]?) :
    tree.preorder[id]? = some node ∧
      ∀ j, j < rest.size → tree.preorder[id + node.size + j]? = rest.preorder[j]? := by
  rw [Parts.size] at h
  refine ⟨(h 0 (by rw [node.size_eq]; omega)).trans (Parts.getElem?_first 0), fun j hj => ?_⟩
  rw [Nat.add_assoc, h (node.size + j) (by omega), Parts.preorder,
    List.getElem?_append_right (by simp), node.length_preorder, Nat.add_sub_cancel_left]

end

theorem Parts.mem_numbered : (ps : Parts) → {id c : Nat} → {r : Role} →
    (r, c) ∈ ps.numbered id →
    id ≤ c ∧ ∃ child, (r, child) ∈ ps.toList ∧ ps.preorder[c - id]? = some child
  | .nil, _, _, _, h => by
    rw [Parts.numbered] at h
    cases h
  | .cons role node rest, id, c, r, h => by
    rw [Parts.numbered, List.mem_cons] at h
    rw [Parts.toList]
    rcases h with h | h
    · cases h
      exact ⟨Nat.le_refl _, node, List.mem_cons_self, Parts.getElem?_first _⟩
    · obtain ⟨hle, child, hmem, hat⟩ := rest.mem_numbered h
      exact ⟨by omega, child, List.mem_cons_of_mem _ hmem, (Parts.getElem?_later hle).trans hat⟩

/-- Counted from the node above them or from the root, the nodes below a node are the same. -/
theorem Node.getElem?_below {tree m : Node} {p j : Nat} (hm : tree.preorder[p]? = some m)
    (hj : j < m.parts.size) : tree.preorder[p + 1 + j]? = m.parts.preorder[j]? := by
  obtain ⟨before, after, hsplit, rfl⟩ := tree.preorder_stretch hm
  obtain ⟨form, span, parts⟩ := m
  have hj : j < parts.preorder.length := parts.length_preorder ▸ hj
  rw [hsplit, List.getElem?_append_right (by omega), Node.preorder, List.cons_append,
    show before.length + 1 + j - before.length = j + 1 by omega, List.getElem?_cons_succ,
    List.getElem?_append_left hj]
  rfl

theorem Node.getElem?_part {tree m : Node} {p c : Nat} {r : Role}
    (hm : tree.preorder[p]? = some m) (hc : (r, c) ∈ m.parts.numbered (p + 1)) :
    tree.preorder[c]? = m.parts.preorder[c - (p + 1)]? := by
  obtain ⟨hle, child, -, hat⟩ := m.parts.mem_numbered hc
  have hin : c - (p + 1) < m.parts.size := by
    rw [← Parts.length_preorder]
    exact (List.getElem?_eq_some_iff.mp hat).1
  rw [← Node.getElem?_below hm hin, Nat.add_sub_cancel' hle]

/-- A part has one role. -/
theorem Parts.role_unique {c : Nat} {r r' : Role} : (ps : Parts) → {id : Nat} →
    (r, c) ∈ ps.numbered id → (r', c) ∈ ps.numbered id → r = r'
  | .nil, _, h, _ => by
    rw [Parts.numbered] at h
    cases h
  | .cons role node rest, id, h, h' => by
    have hlater {r : Role} (hr : (r, id) ∈ rest.numbered (id + node.size)) : False := by
      have hle := (rest.mem_numbered hr).1
      have hsize := node.size_eq
      omega
    rw [Parts.numbered, List.mem_cons] at h h'
    rcases h with h | h <;> rcases h' with h' | h'
    · cases h
      cases h'
      rfl
    · cases h
      exact (hlater h').elim
    · cases h'
      exact (hlater h).elim
    · exact rest.role_unique h h'

/-- The node numbered `p` lists that numbered `c` among its parts, in the role `r`. -/
def Node.Lists (tree : Node) (p : Nat) (r : Role) (c : Nat) : Prop :=
  ∃ m, tree.preorder[p]? = some m ∧ (r, c) ∈ m.parts.numbered (p + 1)

theorem Node.Lists.part {tree : Node} {p c : Nat} {r : Role} (h : tree.Lists p r c) :
    p < c ∧ ∃ m child, tree.preorder[p]? = some m ∧ tree.preorder[c]? = some child ∧
      (r, child) ∈ m.parts.toList := by
  obtain ⟨m, hm, hc⟩ := h
  obtain ⟨hle, child, hmem, hat⟩ := m.parts.mem_numbered hc
  exact ⟨hle, m, child, hm, (Node.getElem?_part hm hc).trans hat, hmem⟩

mutual

theorem Node.exists_parent : (n : Node) → (id : Nat) → {c : Nat} → id < c → c < id + n.size →
    ∃ (j : Nat) (m : Node) (r : Role),
      n.preorder[j]? = some m ∧ (r, c) ∈ m.parts.numbered (id + j + 1)
  | .mk form span parts, id, c, hlt, hin => by
    rw [Node.size] at hin
    rcases parts.exists_parent (id + 1) hlt (by omega) with ⟨r, h⟩ | ⟨j, m, r, hm, h⟩
    · exact ⟨0, .mk form span parts, r, rfl, h⟩
    · refine ⟨j + 1, m, r, hm, ?_⟩
      rwa [show id + (j + 1) + 1 = id + 1 + j + 1 by omega]

theorem Parts.exists_parent : (ps : Parts) → (id : Nat) → {c : Nat} → id ≤ c → c < id + ps.size →
    (∃ r, (r, c) ∈ ps.numbered id) ∨
      ∃ (j : Nat) (m : Node) (r : Role),
        ps.preorder[j]? = some m ∧ (r, c) ∈ m.parts.numbered (id + j + 1)
  | .nil, _, _, _, hin => by
    rw [Parts.size] at hin
    omega
  | .cons role node rest, id, c, hle, hin => by
    rw [Parts.size] at hin
    rw [Parts.numbered, Parts.preorder]
    by_cases hc : c < id + node.size
    · rcases Nat.eq_or_lt_of_le hle with rfl | hlt
      · exact .inl ⟨role, List.mem_cons_self⟩
      · obtain ⟨j, m, r, hm, h⟩ := node.exists_parent id hlt hc
        refine .inr ⟨j, m, r, ?_, h⟩
        rw [List.getElem?_append_left (List.getElem?_eq_some_iff.mp hm).1]
        exact hm
    · rcases rest.exists_parent (id + node.size) (Nat.not_lt.mp hc) (by omega) with
        ⟨r, h⟩ | ⟨j, m, r, hm, h⟩
      · exact .inl ⟨r, List.mem_cons_of_mem _ h⟩
      · refine .inr ⟨node.size + j, m, r, ?_, by rwa [← Nat.add_assoc]⟩
        rw [List.getElem?_append_right (by simp), node.length_preorder, Nat.add_sub_cancel_left]
        exact hm

end

/-- Every node but the root is listed among the parts of a node. -/
theorem Node.exists_lists (tree : Node) {c : Nat} (hpos : 0 < c) (hin : c < tree.size) :
    ∃ p r, tree.Lists p r c := by
  obtain ⟨p, m, r, hm, h⟩ := tree.exists_parent 0 hpos (by omega)
  rw [Nat.zero_add] at h
  exact ⟨p, r, m, hm, h⟩

/-! ## Scripts -/

namespace Script

variable {s : Script}

/-- The node numbered `p` lists that numbered `n` among its parts. -/
def Lists (s : Script) (p n : NodeId) : Prop := ∃ r, (r, n) ∈ (s.entry p).parts

/-- The outline of the script is that of its tree. -/
def IsOutlined (s : Script) : Prop := s.outline = s.tree.outline

theorem parse_isOutlined (path package source : Text) :
    (parse path package source).IsOutlined := rfl

theorem IsOutlined.size_eq (h : s.IsOutlined) : s.size = s.tree.size := by
  rw [size, h, Node.outline, List.size_toArray, Node.entriesFrom_eq, List.length_mapIdx,
    Node.length_preorder]

theorem IsOutlined.getElem?_outline (h : s.IsOutlined) (n : Nat) :
    s.outline[n]? = (s.tree.preorder[n]?).map (Node.entryAt n) := by
  rw [h, Node.outline, List.getElem?_toArray, Node.entriesFrom_eq, List.getElem?_mapIdx]
  simp only [Nat.zero_add]

theorem IsOutlined.entry_eq (h : s.IsOutlined) {n : Nat} {m : Node}
    (hm : s.tree.preorder[n]? = some m) : s.entry n = m.entryAt n := by
  rw [entry, h.getElem?_outline, hm]
  rfl

theorem IsOutlined.form_eq (h : s.IsOutlined) {n : Nat} {m : Node}
    (hm : s.tree.preorder[n]? = some m) : s.form n = m.form :=
  congrArg Entry.form (h.entry_eq hm)

theorem IsOutlined.exists_node (h : s.IsOutlined) {n : Nat} (hn : n < s.size) :
    ∃ m, s.tree.preorder[n]? = some m := by
  rw [h.size_eq, ← Node.length_preorder] at hn
  exact ⟨_, List.getElem?_eq_getElem hn⟩

theorem IsOutlined.lt_size (h : s.IsOutlined) {n : Nat} {m : Node}
    (hm : s.tree.preorder[n]? = some m) : n < s.size := by
  rw [h.size_eq, ← Node.length_preorder]
  exact (List.getElem?_eq_some_iff.mp hm).1

/-- The parts of an entry are those of the node. -/
theorem IsOutlined.mem_parts_iff (h : s.IsOutlined) {p n : Nat} {r : Role} :
    (r, n) ∈ (s.entry p).parts ↔ s.tree.Lists p r n := by
  constructor
  · intro hmem
    cases hp : s.tree.preorder[p]? with
    | none =>
        rw [entry, h.getElem?_outline, hp] at hmem
        cases hmem
    | some m =>
        rw [h.entry_eq hp] at hmem
        exact ⟨m, hp, hmem⟩
  · rintro ⟨m, hm, hmem⟩
    rw [h.entry_eq hm]
    exact hmem

theorem IsOutlined.mem_numbered (h : s.IsOutlined) {p n : Nat} {r : Role} {m : Node}
    (hm : s.tree.preorder[p]? = some m) (hr : (r, n) ∈ (s.entry p).parts) :
    (r, n) ∈ m.parts.numbered (p + 1) := by
  rw [h.entry_eq hm] at hr
  exact hr

/-- From the root one comes, by way of parts, to every node and nothing else. -/
theorem IsOutlined.reaches_iff (h : s.IsOutlined) {n : Nat} :
    Relation.ReflTransGen s.Lists 0 n ↔ n < s.size := by
  constructor
  · intro hreach
    cases hreach with
    | refl =>
        rw [h.size_eq, Node.size_eq]
        exact Nat.succ_pos _
    | tail _ hlast =>
        obtain ⟨r, hr⟩ := hlast
        obtain ⟨-, -, child, -, hchild, -⟩ := (h.mem_parts_iff.mp hr).part
        exact h.lt_size hchild
  · intro hn
    induction n using Nat.strongRecOn with
    | ind n ih =>
        rcases Nat.eq_zero_or_pos n with rfl | hpos
        · exact .refl
        · obtain ⟨p, r, hlists⟩ := s.tree.exists_lists hpos (h.size_eq ▸ hn)
          have hlt := hlists.part.1
          exact (ih p hlt (by omega)).tail ⟨r, h.mem_parts_iff.mpr hlists⟩

end Script

end Zensight
