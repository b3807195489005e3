import Zensight.Proofs.Placement
import Zensight.Proofs.Spans

/-!
# The innermost node at a place

Going down from the root to parts that contain a place ends at a node that contains it, unless
that is the root, and has no part that does (`Node.idAtFrom_descends`). That much holds of every
tree. Where spans nest, no more than one part of a node contains the place, and what a part
contains the node does too. So whatever contains the place is on the way down
(`Node.Descends.encloses`).
-/

namespace Zensight

/-! ## Places in spans -/

namespace Span

variable {a b : Span} {line column : Int}

theorem contains_iff_lines : a.contains line column = true ↔
    (a.start.line < line ∨ a.start.line = line ∧ a.start.column ≤ column) ∧
      (line < a.stop.line ∨ line = a.stop.line ∧ column < a.stop.column) := by
  simp only [contains, Bool.and_eq_true, Bool.not_eq_true', Bool.or_eq_false_iff,
    Bool.and_eq_false_iff, decide_eq_false_iff_not, beq_eq_false_iff_ne]
  omega

theorem Inside.contains (h : a.Inside b) (ha : a.contains line column = true) :
    b.contains line column = true := by
  obtain ⟨hstart, hstop⟩ := h
  rw [Place.le_iff] at hstart hstop
  rw [contains_iff_lines] at ha ⊢
  omega

theorem Precedes.not_contains (h : a.Precedes b) (ha : a.contains line column = true) :
    b.contains line column ≠ true := by
  rw [Precedes, Place.le_iff] at h
  rw [contains_iff_lines] at ha
  rw [ne_eq, contains_iff_lines]
  omega

end Span

/-! ## Going down -/

/-- The node numbered `k` is that numbered `n`, or one of those above it. -/
def Node.Encloses (tree : Node) (k n : NodeId) : Prop :=
  Relation.ReflTransGen (fun p c => ∃ r, tree.Lists p r c) k n

/-- A node has a smaller number than those below it. -/
theorem Node.Encloses.le {tree : Node} {k n : Nat} (h : tree.Encloses k n) : k ≤ n := by
  induction h with
  | refl => exact Nat.le_refl k
  | tail _ hlast ih =>
      obtain ⟨r, hlists⟩ := hlast
      exact Nat.le_trans ih (Nat.le_of_lt hlists.part.1)

/-- Going down from the node numbered `id` to parts that contain the place ends at the node `m`
numbered `n`. -/
structure Node.Descends (tree : Node) (line column : Int) (id n : NodeId) (m : Node) : Prop where
  getElem? : tree.preorder[n]? = some m
  encloses_start : tree.Encloses id n
  contains : n ≠ id → m.span.contains line column = true
  stops : ∀ c ∈ m.children, c.span.contains line column = false

/-- One step further up, at a node that lists the one where the way starts. -/
theorem Node.Descends.from_part {tree m child : Node} {line column : Int} {p c n : NodeId}
    {r : Role} (h : tree.Descends line column c n m) (hr : tree.Lists p r c)
    (hchild : tree.preorder[c]? = some child) (hin : child.span.contains line column = true) :
    tree.Descends line column p n m where
  getElem? := h.getElem?
  encloses_start := .head ⟨r, hr⟩ h.encloses_start
  contains _ := by
    by_cases hn : n = c
    · subst hn
      cases hchild.symm.trans h.getElem?
      exact hin
    · exact h.contains hn
  stops := h.stops

section Descent

variable (tree : Node) (line column : Int)

mutual

theorem Node.idAtFrom_descends : (n : Node) → {id : NodeId} → tree.preorder[id]? = some n →
    tree.Descends line column id (n.idAtFrom line column id) (n.innermost line column)
  | .mk form span parts, id, hn => by
    have hparts := parts.idAtFrom_descends fun j hj => Node.getElem?_below hn hj
    rw [Node.idAtFrom, Node.innermost]
    cases hfound : parts.idAtFrom line column (id + 1) with
    | none =>
        obtain ⟨hnone, hstops⟩ := hparts.1 hfound
        rw [hnone]
        exact ⟨hn, .refl, fun hne => absurd rfl hne, hstops⟩
    | some found =>
        obtain ⟨r, c, child, m, hr, hchild, hin, hm, hdescends⟩ := hparts.2 found hfound
        rw [hm]
        exact hdescends.from_part ⟨_, hn, hr⟩ hchild hin

/-- Of the parts of a node, numbered from `id` on as in the whole tree, the first one that
contains the place is gone into. -/
theorem Parts.idAtFrom_descends : (ps : Parts) → {id : NodeId} →
    (∀ j < ps.size, tree.preorder[id + j]? = ps.preorder[j]?) →
    (ps.idAtFrom line column id = none → ps.innermost? line column = none ∧
      ∀ c ∈ ps.toList.map (·.2), c.span.contains line column = false) ∧
    ∀ found, ps.idAtFrom line column id = some found → ∃ r c child m,
      (r, c) ∈ ps.numbered id ∧ tree.preorder[c]? = some child ∧
        child.span.contains line column = true ∧ ps.innermost? line column = some m ∧
        tree.Descends line column c found m
  | .nil, _, _ => ⟨fun _ => ⟨rfl, by simp [Parts.toList]⟩, fun _ h => by cases h⟩
  | .cons role node rest, id, hat => by
    obtain ⟨hnode, hbehind⟩ := Parts.aligned_cons hat
    have hrest := rest.idAtFrom_descends hbehind
    rw [Parts.idAtFrom, Parts.innermost?, Parts.numbered, Parts.toList]
    by_cases hin : node.span.contains line column = true
    · rw [if_pos hin, if_pos hin]
      refine ⟨fun h => (by cases h), fun found hfound => ?_⟩
      cases hfound
      exact ⟨role, id, node, _, List.mem_cons_self, hnode, hin, rfl, node.idAtFrom_descends hnode⟩
    · rw [if_neg hin, if_neg hin]
      refine ⟨fun h => ?_, fun found hfound => ?_⟩
      · obtain ⟨hnone, hstops⟩ := hrest.1 h
        exact ⟨hnone, List.forall_mem_cons.mpr ⟨Bool.not_eq_true _ ▸ hin, hstops⟩⟩
      · obtain ⟨r, c, child, m, hr, hfound⟩ := hrest.2 found hfound
        exact ⟨r, c, child, m, List.mem_cons_of_mem _ hr, hfound⟩

end

end Descent

/-! ## Trees whose spans nest -/

/-- What holds of the earlier and the later of any two parts of a node holds of those that two
numbers mean. -/
theorem Parts.exists_of_pairwise {R : Node → Node → Prop} : (ps : Parts) → {id c c' : Nat} →
    {r r' : Role} → (ps.toList.map (·.2)).Pairwise R →
    (r, c) ∈ ps.numbered id → (r', c') ∈ ps.numbered id → c < c' →
    ∃ child child', ps.preorder[c - id]? = some child ∧ ps.preorder[c' - id]? = some child' ∧
      R child child'
  | .nil, _, _, _, _, _, _, h, _, _ => by
    rw [Parts.numbered] at h
    cases h
  | .cons role node rest, id, c, c', r, r', hpair, h, h', hlt => by
    rw [Parts.toList, List.map_cons, List.pairwise_cons] at hpair
    rw [Parts.numbered, List.mem_cons] at h h'
    have hlater : (r', c') ∈ rest.numbered (id + node.size) := by
      rcases h' with h' | h'
      · cases h'
        rcases h with h | h
        · cases h
          exact absurd hlt (Nat.lt_irrefl _)
        · have hle := (rest.mem_numbered h).1
          omega
      · exact h'
    rw [Parts.getElem?_later (rest.mem_numbered hlater).1]
    rcases h with h | h
    · cases h
      obtain ⟨-, child', hmem, hchild'⟩ := rest.mem_numbered hlater
      exact ⟨node, child', Parts.getElem?_first _, hchild',
        hpair.1 child' (List.mem_map_of_mem hmem)⟩
    · rw [Parts.getElem?_later (rest.mem_numbered h).1]
      exact rest.exists_of_pairwise hpair.2 h hlater hlt

section Nesting

variable {tree : Node} {line column : Int}

/-- What a part contains the node that lists it does too. -/
theorem Node.Lists.contains {p c : NodeId} {r : Role} {m child : Node} (h : tree.Lists p r c)
    (hm : tree.preorder[p]? = some m) (hnests : m.Nests) (hchild : tree.preorder[c]? = some child)
    (hin : child.span.contains line column = true) : m.span.contains line column = true := by
  obtain ⟨-, m', child', hm', hchild', hmem⟩ := h.part
  cases hm.symm.trans hm'
  cases hchild.symm.trans hchild'
  exact (hnests.inside child (List.mem_map_of_mem hmem)).contains hin

/-- Of two parts of a node only one contains the place. -/
theorem Node.Lists.not_contains {p c c' : Nat} {r r' : Role} {m child child' : Node}
    (h : tree.Lists p r c) (h' : tree.Lists p r' c') (hlt : c < c')
    (hm : tree.preorder[p]? = some m) (hnests : m.Nests)
    (hchild : tree.preorder[c]? = some child) (hchild' : tree.preorder[c']? = some child')
    (hin : child.span.contains line column = true) : child'.span.contains line column ≠ true := by
  obtain ⟨m₁, hm₁, hc⟩ := h
  cases hm.symm.trans hm₁
  obtain ⟨m₂, hm₂, hc'⟩ := h'
  cases hm.symm.trans hm₂
  rw [Node.getElem?_part hm hc] at hchild
  rw [Node.getElem?_part hm hc'] at hchild'
  obtain ⟨a, b, ha, hb, hapart⟩ := m.parts.exists_of_pairwise hnests.disjoint hc hc' hlt
  cases hchild.symm.trans ha
  cases hchild'.symm.trans hb
  intro hin'
  rcases hapart with hbefore | hbehind
  · exact hbefore.not_contains hin hin'
  · exact hbehind.not_contains hin' hin

/-- The nodes above one that contains the place contain it. -/
theorem Node.Encloses.contains (htree : tree.All Node.Nests) {k n : Nat} (h : tree.Encloses k n)
    {m m' : Node} (hm : tree.preorder[k]? = some m) (hm' : tree.preorder[n]? = some m')
    (hin : m'.span.contains line column = true) : m.span.contains line column = true := by
  induction h using Relation.ReflTransGen.head_induction_on generalizing m with
  | refl =>
      cases hm.symm.trans hm'
      exact hin
  | @head p c hfirst _ ih =>
      obtain ⟨r, hlists⟩ := hfirst
      obtain ⟨-, -, child, -, hchild, -⟩ := hlists.part
      exact hlists.contains hm (htree m (List.mem_of_getElem? hm)) hchild (ih hchild)

/-- Whatever contains the place is on the way down from the root. -/
theorem Node.Descends.encloses (htree : tree.All Node.Nests) {n : Nat} {m : Node}
    (h : tree.Descends line column 0 n m) {k : Nat} {m' : Node} (hm' : tree.preorder[k]? = some m')
    (hin : m'.span.contains line column = true) : tree.Encloses k n := by
  induction k using Nat.strongRecOn generalizing m' with
  | ind k ih =>
      rcases Nat.eq_zero_or_pos k with rfl | hpos
      · exact h.encloses_start
      · obtain ⟨p, r, hlists⟩ := tree.exists_lists hpos
          (tree.length_preorder ▸ (List.getElem?_eq_some_iff.mp hm').1)
        obtain ⟨hlt, parent, _, hparent, -, -⟩ := hlists.part
        have hnests := htree parent (List.mem_of_getElem? hparent)
        have hway := ih p hlt hparent (hlists.contains hparent hnests hm' hin)
        -- the way goes on from the node that lists `k`, and there is no other part to go to
        rcases hway.cases_head with rfl | ⟨c, ⟨r', hlists'⟩, hway⟩
        · cases hparent.symm.trans h.getElem?
          obtain ⟨-, m₁, child, hm₁, hchild, hmem⟩ := hlists.part
          cases hparent.symm.trans hm₁
          cases hm'.symm.trans hchild
          rw [h.stops m' (List.mem_map_of_mem hmem)] at hin
          cases hin
        · obtain ⟨hlt', -, child, -, hchild, -⟩ := hlists'.part
          have hle := Node.Encloses.le hway
          have hin' := Node.Encloses.contains htree hway hchild h.getElem?
            (h.contains (Nat.ne_of_gt (by omega)))
          rcases Nat.lt_trichotomy k c with hkc | rfl | hck
          · exact absurd hin' (hlists.not_contains hlists' hkc hparent hnests hm' hchild hin)
          · exact hway
          · exact absurd hin (hlists'.not_contains hlists hck hparent hnests hchild hm' hin')

end Nesting

/-- The node found at a place is the innermost one there. It contains the place unless it is the
script itself, and the nodes below the script that contain the place are that node and those
above it. -/
theorem Text.parse_at_innermost (source : Text) (h : source.parse.2.hasErrors = false)
    (line column : Int) :
    ∃ id m, source.parse.1.idAt? line column = some id ∧
      source.parse.1.at? line column = some m ∧ source.parse.1.preorder[id]? = some m ∧
      (m.form ≠ .file → m.span.contains line column = true) ∧
      ∀ k n, source.parse.1.preorder[k]? = some n → n.form ≠ .file →
        (n.span.contains line column = true ↔ source.parse.1.Encloses k id) := by
  have hfile := source.parse_isFile
  obtain ⟨body, eof, hscan, -, -, -, htree⟩ := Text.parse_reads h
  have hnests := htree.nests (Token.scan_stands hscan)
  have hdescends := Node.idAtFrom_descends source.parse.1 line column source.parse.1
    source.parse.1.getElem?_preorder_zero
  refine ⟨_, _, Node.idAt?_file hfile.form_eq line column, ?_, hdescends.getElem?, ?_, ?_⟩
  · rw [Node.at?, Node.covers, hfile.form_eq]
    rfl
  · intro hform
    exact hdescends.contains fun hzero =>
      hform ((hfile.form_eq_file_iff hdescends.getElem?).mpr hzero)
  · intro k n hn hform
    refine ⟨hdescends.encloses hnests hn, fun hway => ?_⟩
    refine hway.contains hnests hn hdescends.getElem? (hdescends.contains fun hzero => ?_)
    exact hform ((hfile.form_eq_file_iff hn).mpr (Nat.le_zero.mp (hzero ▸ hway.le)))

/-- At the bracket of a map type, in a script whose import is listed before what it follows. -/
theorem scatteredScript_at_innermost :
    scatteredScript.parse.2.hasErrors = false ∧
      ∃ id m, scatteredScript.parse.1.idAt? 2 13 = some id ∧
        scatteredScript.parse.1.at? 2 13 = some m ∧
        scatteredScript.parse.1.preorder[id]? = some m ∧
        (m.form ≠ .file → m.span.contains 2 13 = true) ∧
        ∀ k n, scatteredScript.parse.1.preorder[k]? = some n → n.form ≠ .file →
          (n.span.contains 2 13 = true ↔ scatteredScript.parse.1.Encloses k id) :=
  have h : scatteredScript.parse.2.hasErrors = false := by decide +kernel
  ⟨h, Text.parse_at_innermost scatteredScript h 2 13⟩

end Zensight
