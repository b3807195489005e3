import Zensight.Proofs.Numbering
import Zensight.Proofs.Spans

/-!
# The node that stands at a place

Looking for the innermost node at a place goes down from the root, each time to the first part
that contains it. Where spans overlap that may be the wrong one, but not for a place behind the
first token of a node: the parts listed before those on the way have ended there, or have not
begun (`Span.On.not_contains`). So going down from the root leads through every node that stands
on the place, to what is found inside that node (`Text.parse_seeks`).
-/

namespace Zensight

/-- The place lies behind the first token of the run and before the end of its last one. -/
structure Tokens.Shows (t : Tokens) (run : Nat × Nat) (q : Place) : Prop where
  lt : run.1 < run.2
  le : (t (run.1 + 1)).place ≤ q
  before : q.isBefore (t (run.2 - 1)).stop = true

theorem Span.contains_iff {span : Span} {q : Place} :
    span.contains q.line q.column = true ↔ span.start ≤ q ∧ q.isBefore span.stop = true := by
  rw [Place.le_iff, Place.isBefore_iff]
  simp only [Span.contains, Bool.and_eq_true, Bool.not_eq_true', Bool.or_eq_false_iff,
    Bool.and_eq_false_iff, decide_eq_false_iff_not, beq_eq_false_iff_ne]
  omega

namespace Span.On

variable {t : Tokens} {i j : Nat} {run : Nat × Nat} {span : Span} {q : Place}

theorem contains (h : span.On t i j) (ht : t.Legal) (hi : i ≤ run.1) (hj : run.2 ≤ j)
    (hq : t.Shows run q) : span.contains q.line q.column = true := by
  have hlt := hq.lt
  have hstart := Place.le_trans (Tokens.place_le (t := t) (show i ≤ run.1 + 1 by omega)) hq.le
  have hstop := h.covers ht (run.2 - 1) (by omega) (by omega)
  have hbefore := hq.before
  refine Span.contains_iff.mpr ⟨h.start_eq ▸ hstart, ?_⟩
  rw [Place.isBefore_iff] at *
  rw [Place.le_iff] at hstop
  omega

/-- A node on other tokens has ended where the second token of the run starts, or it starts
where the last one has ended. -/
theorem not_contains {outer : Nat × Nat} (h : span.On t i j) (ht : t.Legal)
    (hapart : Apart (i, j) outer) (hrun : outer.1 ≤ run.1) (hrun' : run.2 ≤ outer.2)
    (hq : t.Shows run q) : span.contains q.line q.column = false := by
  rw [Bool.eq_false_iff]
  intro hcontains
  obtain ⟨hstart, hstop⟩ := Span.contains_iff.mp hcontains
  have hle := hq.le
  have hbefore := hq.before
  have hlt := hq.lt
  rcases hapart with hapart | hapart
  · have hends := h.ends ht (run.1 + 1) (by dsimp only at hapart; omega)
    rw [Place.isBefore_iff] at hstop
    rw [Place.le_iff] at hends hle
    omega
  · have hbegins := Tokens.stop_le (ht.kind_ne (run.2 - 1))
      (show _ < i by dsimp only at hapart; omega)
    rw [h.start_eq, Place.le_iff] at hstart
    rw [Place.isBefore_iff] at hbefore
    rw [Place.le_iff] at hbegins
    omega

end Span.On

mutual

/-- Whatever stands below a node stands on a run inside its run, and going down from the node
to a place on that run leads through it. -/
theorem Node.seeks {t : Tokens} (ht : t.Legal) : (n : Node) → {run : Nat × Nat} → {k : Nat} →
    {m : Node} → n.On t run → n.preorder[k]? = some m →
    ∃ inner : Nat × Nat, (run.1 ≤ inner.1 ∧ inner.2 ≤ run.2) ∧ m.On t inner ∧
      ∀ q id, t.Shows inner q →
        n.idAtFrom q.line q.column id = m.idAtFrom q.line q.column (id + k)
  | .mk form span parts, run, k, m, hn, hm => by
    cases k with
    | zero =>
        cases hm
        exact ⟨run, ⟨Nat.le_refl _, Nat.le_refl _⟩, hn, fun _ _ _ => rfl⟩
    | succ k =>
        cases hn with
        | intro runs hspan hform hruns hapart hinside =>
            obtain ⟨outer, houter, inner, hinner, hm, hseeks⟩ := parts.seeks ht hruns hapart hm
            have hle := hinside outer houter
            refine ⟨inner, by omega, hm, fun q id hq => ?_⟩
            rw [Node.idAtFrom, hseeks q (id + 1) hq, Option.getD_some, Nat.add_assoc,
              Nat.add_comm 1 k]

theorem Parts.seeks {t : Tokens} (ht : t.Legal) : (ps : Parts) → {runs : List (Nat × Nat)} →
    {k : Nat} → {m : Node} → List.Forall₂ (Node.On t) (ps.toList.map (·.2)) runs → runs.Pairwise Apart →
    ps.preorder[k]? = some m →
    ∃ outer ∈ runs, ∃ inner : Nat × Nat, (outer.1 ≤ inner.1 ∧ inner.2 ≤ outer.2) ∧ m.On t inner ∧
      ∀ q id, t.Shows inner q →
        ps.idAtFrom q.line q.column id = some (m.idAtFrom q.line q.column (id + k))
  | .nil, _, _, _, _, _, hm => by
    rw [Parts.preorder] at hm
    cases hm
  | .cons role node rest, runs, k, m, hruns, hapart, hm => by
    rw [Parts.toList, List.map_cons] at hruns
    cases hruns with
    | @cons _ run _ runs hnode hrest =>
        obtain ⟨hfirst, hapart⟩ := List.pairwise_cons.mp hapart
        rw [Parts.preorder] at hm
        by_cases hk : k < node.size
        · rw [List.getElem?_append_left (by simpa using hk)] at hm
          obtain ⟨inner, hinner, hm, hseeks⟩ := node.seeks ht hnode hm
          refine ⟨run, List.mem_cons_self, inner, hinner, hm, fun q id hq => ?_⟩
          have hcontains := hnode.span_on.contains ht hinner.1 hinner.2 hq
          rw [Parts.idAtFrom, if_pos hcontains, hseeks q id hq]
        · rw [List.getElem?_append_right (by simpa using hk), node.length_preorder] at hm
          obtain ⟨outer, houter, inner, hinner, hm, hseeks⟩ := rest.seeks ht hrest hapart hm
          refine ⟨outer, List.mem_cons_of_mem _ houter, inner, hinner, hm, fun q id hq => ?_⟩
          have hnot := hnode.span_on.not_contains ht (hfirst outer houter) hinner.1 hinner.2 hq
          rw [Parts.idAtFrom, hnot, if_neg Bool.false_ne_true, hseeks q _ hq, Nat.add_assoc,
            Nat.add_sub_cancel' (Nat.le_of_not_lt hk)]

end

theorem Node.idAt?_file {tree : Node} (h : tree.form = .file) (line column : Int) :
    tree.idAt? line column = some (tree.idAtFrom line column 0) := by
  rw [Node.idAt?, Node.covers, h]
  rfl

/-- Every node below the root of a script stands on a run of its tokens, and it is on the way
to every place on that run. -/
theorem Text.parse_seeks {source : Text} {t : Tokens} (ht : t.Legal)
    (h : Token.scan source = t.body ++ [t.final]) {k : Nat} {m : Node} (hk : 0 < k)
    (hm : source.parse.1.preorder[k]? = some m) :
    ∃ run, m.On t run ∧ ∀ q : Place, t.Shows run q →
      source.parse.1.idAt? q.line q.column = some (m.idAtFrom q.line q.column k) := by
  have hform := source.parse_isFile.form_eq
  obtain ⟨moments, tree, last, hrun, -⟩ := Text.parse_ends source
  obtain ⟨-, -, -, -, -, -, runs, hruns, hapart⟩ :=
    Grammar.file_moves (Grammar.upTo_takes _) _ _ _ (Reader.StandsAt.ofText h) hrun.eq_some
  rw [Text.parse_eq hrun.eq_some] at hm hform ⊢
  obtain ⟨form, span, parts⟩ := tree
  obtain ⟨k, rfl⟩ := Nat.exists_eq_succ_of_ne_zero (Nat.ne_of_gt hk)
  obtain ⟨-, -, inner, -, hm, hseeks⟩ := parts.seeks ht hruns hapart hm
  refine ⟨inner, hm, fun q hq => ?_⟩
  rw [Node.idAt?_file hform, Node.idAtFrom, hseeks q _ hq, Nat.zero_add, Nat.add_comm 1 k]
  rfl

end Zensight
