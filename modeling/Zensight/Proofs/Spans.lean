import Zensight.Proofs.Placement.Scripts
import Zensight.Proofs.Spans.Phrases

/-!
# Spans nest

Tokens stand in order, so no node ends before it starts, whatever the faults of the
script; the rules of the grammar say so along with the shape of the tree
(`Grammar.file_moves`). A token that is not illegal has ended where the next one
starts (`Token.scan_stands`); with that the nodes of a script without faults stand in
rows, and their spans nest.
-/

namespace Zensight

/-! ## Scripts whatever their faults -/

theorem Text.parse_built (source : Text) :
    source.parse.1.IsFile ∧ source.parse.1.Sorted ∧ source.parse.1.Forward := by
  obtain ⟨moments, tree, last, hrun, -⟩ := Text.parse_ends source
  obtain ⟨t, ht⟩ := source.exists_tokens
  rw [Text.parse_eq hrun.eq_some]
  obtain ⟨-, -, -, hfile, hsorted, hforward, -⟩ :=
    Grammar.file_moves (Grammar.upTo_takes _) _ _ _ (Reader.StandsAt.ofText ht) hrun.eq_some
  exact ⟨hfile, hsorted, hforward⟩

/-- Every script has the tree of a file, whatever its faults. -/
theorem Text.parse_isFile (source : Text) : source.parse.1.IsFile := source.parse_built.1

/-- Whatever the faults of a script, the parts of its tree belong to the categories that their
roles ask for. -/
theorem Text.parse_sorted (source : Text) : source.parse.1.Sorted := source.parse_built.2.1

theorem Text.parse_forward (source : Text) : source.parse.1.Forward := source.parse_built.2.2

/-! ## Scripts without faults -/

/-- At the top level the imports stand in a row and so do the statements, and none of
the imports meets a statement. -/
structure TopLevelRow (ts : List Token) (imports stmts : List Node) : Prop where
  holdsImports : Holds ts imports
  holdsStmts : Holds ts stmts
  apart : ∀ a ∈ imports, ∀ b ∈ stmts, a.span.Precedes b.span ∨ b.span.Precedes a.span

theorem ReadsTopLevel.row {ts : List Token} {imports stmts : List Node}
    (h : ReadsTopLevel ts imports stmts) (hl : Laid ts) : TopLevelRow ts imports stmts := by
  induction h with
  | nil => exact ⟨.nil, .nil, by simp⟩
  | @importing ts us imports stmts n _ hn ih =>
      obtain ⟨himports, hstmts, hapart⟩ := ih hl.left
      have hnew := hn.lays.row.holds hl.right
      refine ⟨himports.append hnew, ?_, fun a ha b hb => ?_⟩
      · have hnone : Holds us [] := .nil
        simpa using hstmts.append hnone
      · rcases List.mem_append.mp ha with ha | ha
        · exact hapart a ha b hb
        · exact .inr (hstmts.precedes hnew hl b hb a ha)
  | @statement ts us imports stmts ns _ hns ih =>
      obtain ⟨himports, hstmts, hapart⟩ := ih hl.left
      have hnew := hns.lays.row.holds hl.right
      refine ⟨?_, hstmts.append hnew, fun a ha b hb => ?_⟩
      · have hnone : Holds us [] := .nil
        simpa using himports.append hnone
      · rcases List.mem_append.mp hb with hb | hb
        · exact hapart a ha b hb
        · exact .inl (himports.precedes hnew hl a ha b hb)

theorem Parts.all_several (role other : Role) (ns : List Node) (rest : List (Role × Node)) :
    (Parts.ofList (Rule.several role ns ++ rest)).all other =
      (if role = other then ns else []) ++ (Parts.ofList rest).all other := by
  induction ns with
  | nil => simp [Rule.several]
  | cons n ns ih =>
      simp only [Rule.several, List.map_cons, List.cons_append, ofList, all] at ih ⊢
      split <;> simp_all

/-- What stands on the tokens of a script lies between its start and its end. -/
theorem Token.Stands.inside {body us : List Token} {eof : Token} {span : Span}
    (h : Stands body eof) (hsub : us.Sublist body) (hspan : span.Covers us) :
    span.Inside ⟨.start, ⟨eof.place.line, eof.place.column + 1⟩⟩ := by
  obtain ⟨first, last, hfirst, hlast, hok, rfl⟩ := hspan
  have hstart := (h.le_eof first (hsub.subset (List.mem_of_mem_head? hfirst))).1
  have hstop := (h.le_eof last (hsub.subset (List.mem_of_getLast? hlast))).2.2 hok
  refine ⟨hstart, ?_⟩
  rw [Place.le_iff] at hstop ⊢
  dsimp only at hstop ⊢
  omega

theorem ReadsFile.nests {body : List Token} {eof : Token} {tree : Node}
    (h : ReadsFile body eof tree) (hstands : Token.Stands body eof) : tree.All Node.Nests := by
  cases h with
  | @intro imports stmts _ htop =>
      have hl := hstands.laid
      obtain ⟨himports, hstmts, hapart⟩ := htop.row hl
      have hmem : ∀ n ∈ imports ++ stmts, n.All Node.Nests ∧
          ∃ us, us.Sublist body ∧ n.span.Covers us := by
        intro n hn
        exact (List.mem_append.mp hn).elim (himports.mem n) (hstmts.mem n)
      generalize htree : Node.of .file _ _ = tree
      have hchildren : tree.children = imports ++ stmts := by
        rw [← htree, Node.children_of, List.map_append, Rule.map_snd_several,
          Rule.map_snd_several]
      have hgroups : tree.groups = [imports, stmts] := by
        have hall (role : Role) := Parts.all_several .importing role imports
          (Rule.several .statement stmts)
        have hall' (role : Role) := Parts.all_several .statement role stmts []
        simp only [List.append_nil] at hall'
        rw [← htree]
        show [(Parts.ofList _).all .importing, (Parts.ofList _).all .statement] = _
        rw [hall, hall, hall', hall']
        simp [Parts.ofList, Parts.all]
      have hbefore := himports.pairwise hl
      have hafter := hstmts.pairwise hl
      have hroot : tree.Nests := by
        refine ⟨?_, fun c hc => ?_, ?_, by rw [hchildren, hgroups]; simp, ?_⟩
        · have hstart := hstands.start_le
          rw [← htree, Place.isBefore_iff]
          rw [Place.le_iff] at hstart
          simp only [Node.of, Node.span]
          omega
        · rw [hchildren] at hc
          obtain ⟨-, us, hsub, hspan⟩ := hmem c hc
          rw [← htree]
          exact hstands.inside hsub hspan
        · rw [hchildren]
          exact List.pairwise_append.mpr ⟨hbefore.imp .inl, hafter.imp .inl, hapart⟩
        · rw [hgroups]
          simpa using ⟨hbefore, hafter⟩
      subst htree
      refine Node.all_of.mpr ⟨hroot, fun part hpart => ?_⟩
      refine (hmem part.2 ?_).1
      rw [← hchildren, Node.children_of]
      exact List.mem_map_of_mem hpart

/-- Spans nest. In the tree of every script no node ends before it starts. If the
script has no faults, no span is empty, the spans of the children of a node lie
inside its own and do not meet, and they come in the order in which the children
are listed, but that a script lists its imports before its statements. -/
theorem Text.parse_spans_nest (source : Text) :
    (∀ n ∈ source.parse.1.preorder, n.span.start ≤ n.span.stop) ∧
      (source.parse.2.hasErrors = false → ∀ n ∈ source.parse.1.preorder, n.Nests) := by
  refine ⟨source.parse_forward, fun h => ?_⟩
  obtain ⟨body, eof, hscan, -, -, -, htree⟩ := Text.parse_reads h
  exact htree.nests (Token.scan_stands hscan)

/-- A script with an import behind a statement, a bracket handler that holds what
is no token, and operators over lines. -/
def scatteredScript : Text :=
  txt "f(<a:@\x7b 1>\n" ++ txt " , -b as int[string]).c; ;" ++ txt "import x.in as y; d ? 1 : 2;"

theorem scatteredScript_spans_nest :
    scatteredScript.parse.2.hasErrors = false ∧
      ∀ n ∈ scatteredScript.parse.1.preorder, n.Nests :=
  ⟨by decide +kernel, (Text.parse_spans_nest scatteredScript).2 (by decide +kernel)⟩

end Zensight
