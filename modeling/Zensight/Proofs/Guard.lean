import Zensight.Proofs.Resolution

/-!
# The guard is transparent

A node that is asked for while it is being typed is `any`. So the answer for a
node may depend on who asked: it is found with other nodes pending, and one of
them may come up again. This module says that nothing else makes a difference.
Where the search for the type of a node meets no pending node, every answer
along the way is the one that the node asked for has on its own.

`Asks` lists the questions of a search with what is pending at each. The proof
is that a search which never looks at what is pending gives the same answers
with less of it (`Asks.resolves`), down to nothing pending at all. Which rules
asked the questions plays no part, so operands, overloads, casters, expand
functions and the contexts of lambdas need no case of their own.
-/

namespace Zensight

namespace Inquiry

@[simp] theorem run_pure {α : Type} (types : NodeRef → Ty) (a : α) :
    (pure a : Inquiry α).run types = a := rfl

@[simp] theorem run_bind {α β : Type} (types : NodeRef → Ty) (q : Inquiry α)
    (f : α → Inquiry β) : (q >>= f).run types = (f (q.run types)).run types := by
  show (q.bind f).run types = _
  induction q with
  | answer a => rfl
  | ask n next ih => exact ih (types n)

end Inquiry

namespace View

/-- In the search for the type of `n`, the node `m` is asked for while `pending`
are being typed, with `fuel` left. -/
inductive Asks (v : View) (n : NodeRef) : Nat → List NodeRef → NodeRef → Prop where
  | root : Asks v n (v.env.nodeCount + 1) [] n
  | step {fuel : Nat} {pending : List NodeRef} {k m : NodeRef} :
      Asks v n (fuel + 1) pending k → k ∉ pending →
      m ∈ (v.rule k).asked (v.typeWithin fuel (k :: pending)) → Asks v n fuel (k :: pending) m

/-- The search never asks for a node that is being typed. -/
def Unguarded (v : View) (n : NodeRef) : Prop :=
  ∀ fuel pending m, Asks v n fuel pending m → m ∉ pending

variable {v : View} {n : NodeRef}

/-- The nodes being typed are distinct nodes of the environment, one for each
unit of fuel spent. -/
theorem Asks.pending_spec {fuel : Nat} {pending : List NodeRef} {m : NodeRef}
    (h : Asks v n fuel pending m) :
    pending.Nodup ∧ (∀ k ∈ pending, k ∈ v.env.nodes) ∧
      fuel + pending.length = v.env.nodeCount + 1 := by
  induction h with
  | root => exact ⟨List.nodup_nil, by simp, rfl⟩
  | @step fuel pending k m _ hnot hm ih =>
      obtain ⟨hnodup, hmem, hsum⟩ := ih
      have hk : k ∈ v.env.nodes := by
        -- What is no node has a rule that asks for nothing.
        by_contra hk
        rw [rule_of_not_mem hk] at hm
        cases hm
      refine ⟨List.nodup_cons.mpr ⟨hnot, hnodup⟩, ?_, ?_⟩
      · simpa [hk] using hmem
      · rw [List.length_cons]
        omega

theorem Asks.fuel_pos {fuel : Nat} {pending : List NodeRef} {m : NodeRef}
    (h : Asks v n fuel pending m) : 0 < fuel := by
  obtain ⟨hnodup, hmem, hsum⟩ := h.pending_spec
  have hle := length_le_nodeCount hnodup hmem
  omega

/-- Without a node that comes up again, the type found is found as well with
fewer nodes pending. -/
theorem Asks.resolves (hn : v.Unguarded n) : ∀ {fuel : Nat} {pending : List NodeRef} {m : NodeRef},
    Asks v n fuel pending m → ∀ {fewer : List NodeRef}, fewer ⊆ pending →
      Resolves v fewer m (v.typeWithin fuel pending m) := by
  intro fuel
  induction fuel with
  | zero => intro pending m h; exact absurd h.fuel_pos (Nat.lt_irrefl 0)
  | succ fuel ih =>
      intro pending m h fewer hsub
      have hnot : m ∉ pending := hn _ _ _ h
      have hwithin : v.typeWithin (fuel + 1) pending m =
          (v.rule m).run (v.typeWithin fuel (m :: pending)) := by
        rw [typeWithin, if_neg fun hin => hnot (List.contains_iff_mem.mp hin)]
      rw [hwithin]
      refine .rule _ (fun hin => hnot (hsub hin)) fun k hk => ?_
      exact ih (.step h hnot hk) (List.cons_subset_cons m hsub)

theorem Asks.typeWithin_eq (hn : v.Unguarded n) {fuel : Nat} {pending : List NodeRef}
    {m : NodeRef} (h : Asks v n fuel pending m) : v.typeWithin fuel pending m = v.typeOf m :=
  (resolves_iff v m _).mp (h.resolves hn (List.nil_subset pending))

/-- The type of a node is then what its rule makes of the types that the nodes it
asks for have on their own. -/
theorem Unguarded.typeOf_eq (hn : v.Unguarded n) : v.typeOf n = v.answer (v.rule n) := by
  show (v.rule n).run (v.typeWithin v.env.nodeCount [n]) = (v.rule n).run v.typeOf
  refine Inquiry.run_eq_of_asked fun m _ hm => ?_
  exact Asks.typeWithin_eq hn (.step .root (List.not_mem_nil) hm)

end View

end Zensight
