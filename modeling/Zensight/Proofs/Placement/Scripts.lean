import Mathlib.Data.List.Forall2
import Zensight.Proofs.Placement.Rules

/-!
# The tokens that a script stands on

At the top level imports and statements may stand in any order, but the tree lists the imports
first. So all that is known of their runs is that no two of them meet.
-/

namespace Zensight

/-- The nodes stand on runs that do not meet, in whatever order. -/
def Tokens.Places (t : Tokens) (ns : List Node) : Prop :=
  ∃ runs : List (Nat × Nat), List.Forall₂ (Node.On t) ns runs ∧ runs.Pairwise Apart

theorem Tokens.start_le (t : Tokens) (k : Nat) : Place.start ≤ (t k).place := by
  by_cases hk : k < t.body.length
  · exact (t.stands.le_eof _ (nth_of_lt hk).1).1
  · rw [nth_of_le (Nat.le_of_not_lt hk)]
    exact t.stands.start_le

namespace Grammar

open Read

variable {t : Tokens} {g : Grammar} {i : Nat}

/-- Imports and statements on runs before the token `j`. The runs of a kind are in order, but
an import may stand behind a statement. -/
structure Items (t : Tokens) (j : Nat) (items : List Node × List Node)
    (runs : List (Nat × Nat) × List (Nat × Nat)) : Prop where
  imports : List.Forall₂ (Node.On t) items.1 runs.1
  stmts : List.Forall₂ (Node.On t) items.2 runs.2
  apart : (runs.1 ++ runs.2).Pairwise Apart
  le : ∀ r ∈ runs.1 ++ runs.2, r.2 ≤ j
  filling : Filling .file (Rule.several .importing items.1 ++ Rule.several .statement items.2)

theorem Items.mono {j k : Nat} {items : List Node × List Node}
    {runs : List (Nat × Nat) × List (Nat × Nat)} (h : Items t j items runs) (hjk : j ≤ k) :
    Items t k items runs :=
  { h with le := fun r hr => Nat.le_trans (h.le r hr) hjk }

theorem topLevelItem_moves (hg : g.Takes t) :
    Moves t i (topLevelItem g) fun j items =>
      ∃ runs, Items t j items runs ∧ ∀ r ∈ runs.1 ++ runs.2, i ≤ r.1 := by
  refine .check ?_
  split
  · refine (Rule.importDecl_takes i).bind fun j n _ hn => .pure ?_
    exact ⟨([(i, j)], []), ⟨.cons hn.on .nil, .nil, by simp, by simp, .cons rfl hn.isA .nil⟩,
      by simp⟩
  · refine (Rule.statement_mayTake hg i).bind fun j n hij hn => .pure ?_
    cases n with
    | none => exact ⟨([], []), ⟨.nil, .nil, .nil, by simp, .nil⟩, by simp⟩
    | some n =>
        have hn := hn n rfl
        exact ⟨([], [(i, j)]), ⟨.nil, .cons hn.on .nil, by simp, by simp, .cons rfl hn.isA .nil⟩,
          by simp⟩

theorem Items.append {a j : Nat} {items new : List Node × List Node}
    {runs more : List (Nat × Nat) × List (Nat × Nat)} (h : Items t a items runs)
    (hnew : Items t j new more) (hbehind : ∀ r ∈ more.1 ++ more.2, a ≤ r.1) (haj : a ≤ j) :
    Items t j (items.1 ++ new.1, items.2 ++ new.2) (runs.1 ++ more.1, runs.2 ++ more.2) := by
  obtain ⟨runs, runs'⟩ := runs
  obtain ⟨more, more'⟩ := more
  have hperm : ((runs ++ more) ++ (runs' ++ more')).Perm ((runs ++ runs') ++ (more ++ more')) := by
    simp only [List.append_assoc]
    exact (List.perm_append_comm_assoc more runs' more').append_left runs
  have hsymm : ∀ {x y : Nat × Nat}, Apart x y → Apart y x := fun h => h.symm
  refine ⟨List.rel_append h.imports hnew.imports, List.rel_append h.stmts hnew.stmts, ?_, ?_, ?_⟩
  · refine (hperm.pairwise_iff hsymm).mpr (List.pairwise_append.mpr ⟨h.apart, hnew.apart, ?_⟩)
    exact fun r hr s hs => .inl (Nat.le_trans (h.le r hr) (hbehind s hs))
  · intro r hr
    rcases List.mem_append.mp (hperm.mem_iff.mp hr) with hr | hr
    · exact Nat.le_trans (h.le r hr) haj
    · exact hnew.le r hr
  · intro part hpart
    simp only [Rule.several, List.map_append, List.mem_append] at hpart
    rcases hpart with (hpart | hpart) | hpart | hpart
    · exact h.filling part (List.mem_append_left _ hpart)
    · exact hnew.filling part (List.mem_append_left _ hpart)
    · exact h.filling part (List.mem_append_right _ hpart)
    · exact hnew.filling part (List.mem_append_right _ hpart)

theorem topLevel_moves (hg : g.Takes t) :
    Moves t i (topLevel g) fun j items => ∃ runs, Items t j items runs := by
  refine .iterate _ ⟨([], []), .nil, .nil, .nil, by simp, .nil⟩ fun j items _ hitems => .check ?_
  obtain ⟨runs, hruns⟩ := hitems
  split
  · exact .pure ⟨runs, hruns⟩
  · next h =>
      have hj : (t j).kind ≠ .eof := fun heof => h (beq_iff_eq.mpr heof)
      refine (Rule.advancing_moves hj (topLevelItem_moves hg)).bind ?_
      rintro k new hjk ⟨l, hlk, more, hmore, hbehind⟩
      exact .pure ⟨_, hruns.append (hmore.mono hlk) hbehind hjk⟩

/-- Whatever the faults of a script, its tree is a file whose parts belong to the categories that
their roles ask for and stand on runs that do not meet, and no node ends before it starts. -/
theorem file_moves (hg : g.Takes t) :
    Moves t i (file g) fun _ tree =>
      tree.IsFile ∧ tree.Sorted ∧ tree.Forward ∧ t.Places tree.children := by
  refine (topLevel_moves hg).bind fun j items _ h => .current (.pure ?_)
  obtain ⟨runs, hruns⟩ := h
  have hspan : (⟨.start, ⟨(t j).place.line, (t j).place.column + 1⟩⟩ : Span).IsForward := by
    have hle := t.start_le j
    show Place.start ≤ _
    rw [Place.le_iff] at hle ⊢
    dsimp only
    omega
  refine ⟨⟨rfl, ?_, ?_⟩, hruns.filling.sorted_of, hruns.filling.forward_of hspan,
    runs.1 ++ runs.2, ?_, hruns.apart⟩
  · rw [Node.of, Node.parts, Parts.toList_ofList]
    exact fun part hpart => (hruns.filling part hpart).1
  · rw [Node.of, Node.parts, Parts.toList_ofList]
    exact fun part hpart => (hruns.filling part hpart).2.shaped
  · rw [Node.children_of, List.map_append, Rule.map_snd_several, Rule.map_snd_several]
    exact List.rel_append hruns.imports hruns.stmts

end Grammar

end Zensight
