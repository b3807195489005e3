import Zensight.Proofs.Ancestry

/-!
# Subtyping is the relation that classes declare

`Ty.rank` says how well a type fits without casters. Equality comes first, then
`any`, then the constituents of an intersection and the lineage of a class. In a
table of classes this is no more and no less than what the classes declare: one
fits where another is wanted if it reaches a class of that name. Reaching is
transitive, so fitting is, as far as classes are concerned. It is not so for all
types, since `any` fits everywhere and everything fits it.
-/

namespace Zensight

theorem Rank.matched_iff (r : Rank) : r.matched = true ↔ r ≠ .mismatch := by
  cases r <;> decide

namespace Ty

variable {h : Hierarchy}

theorem isAny_iff {t : Ty} : t.isAny = true ↔ t = .any := by
  unfold isAny
  split
  · simp
  · next hne => exact iff_of_false (by simp) hne

theorem anyFits_iff {cs : List Ty} {u : Ty} :
    anyFits h cs u = true ↔ ∃ c ∈ cs, c.rank h u ≠ .mismatch := by
  induction cs with
  | nil => simp [anyFits]
  | cons c cs ih => simp [anyFits, Rank.matched_iff, ih]

theorem rank_eq_self_iff {t u : Ty} : t.rank h u = .self ↔ t.equal u = true := by
  rw [rank.eq_def]
  cases t.equal u with
  | true => simp
  | false =>
      simp only [Bool.false_eq_true, if_false, iff_false]
      split
      · simp
      · split
        · split <;> simp
        · split
          · split <;> simp
          · simp
        · simp

/-- What makes a type fit where another is wanted that is not equal to it: one of
them is `any`, a constituent fits, or the type is a class that reaches one of the
wanted name in one step or more. -/
def Descends (h : Hierarchy) (t u : Ty) : Prop :=
  t = .any ∨ u = .any ∨
    (∃ cs, t = .intersection cs ∧ ∃ c ∈ cs, c.rank h u ≠ .mismatch) ∨
    ∃ c d k, t = .classType c ∧ u = .classType d ∧ Relation.TransGen h.Extends c k ∧
      k.name = d.name

end Ty

namespace Hierarchy.Tabled

open Ty

variable {h : Hierarchy} {denotes : Text → Option ClassRef} {c d : ClassType}

/-- Under another name than its own, a class inherits what it reaches in one step
or more. -/
theorem inherits_iff_transGen (ht : h.Tabled denotes) (hc : c.Denoted denotes) {name : Text}
    (hne : c.name ≠ name) :
    h.inherits c name = true ↔ ∃ k, Relation.TransGen h.Extends c k ∧ k.name = name := by
  rw [ht.inherits_iff hc]
  refine exists_congr fun k => and_congr_left fun hname => ?_
  refine Relation.reflTransGen_iff_eq_or_transGen.trans (or_iff_right fun heq => hne ?_)
  rw [← heq, hname]

theorem rank_eq_inherit_iff (ht : h.Tabled denotes) {t u : Ty}
    (hclass : ∀ c, t = .classType c → c.Denoted denotes) :
    t.rank h u = .inherit ↔ t.equal u = false ∧ t.Descends h u := by
  rw [rank.eq_def, Descends]
  cases hequal : t.equal u with
  | true => simp
  | false =>
      simp only [Bool.false_eq_true, if_false, true_and]
      by_cases hu : u = .any
      · simp [hu, isAny_iff]
      by_cases hany : t = .any
      · simp [hany, isAny_iff]
      rw [if_neg (by simp [isAny_iff, hu, hany])]
      cases t with
      | intersection cs => simp [anyFits_iff, hu]
      | classType c =>
          cases u with
          | classType d =>
              -- Classes of one name are equal, so only a longer way is left.
              have hne : c.name ≠ d.name := by simpa [equal] using hequal
              simp [ht.inherits_iff_transGen (hclass c rfl) hne]
          | _ => simp_all
      | _ => simp_all

/-- A class fits where another is wanted if it reaches a class of that name, be it
itself. -/
theorem fits_iff (ht : h.Tabled denotes) (hc : c.Denoted denotes) :
    (classType c).rank h (.classType d) ≠ .mismatch ↔ ∃ k, h.Reaches c k ∧ k.name = d.name := by
  rw [rank.eq_def]
  by_cases hname : c.name = d.name
  · have hequal : (classType c).equal (.classType d) = true := by simpa [equal] using hname
    rw [if_pos hequal]
    exact iff_of_true (by decide) ⟨c, .refl, hname⟩
  · have hequal : (classType c).equal (.classType d) = false := by simpa [equal] using hname
    rw [hequal, if_neg Bool.false_ne_true, if_neg (by simp [isAny]), ← ht.inherits_iff hc]
    simp only [ne_eq, ite_eq_right_iff, reduceCtorEq, imp_false, not_not]

theorem fits_trans (ht : h.Tabled denotes) {k : ClassType} (hc : c.Denoted denotes)
    (hd : d.Denoted denotes) (hcd : (classType c).rank h (.classType d) ≠ .mismatch)
    (hdk : (classType d).rank h (.classType k) ≠ .mismatch) :
    (classType c).rank h (.classType k) ≠ .mismatch := by
  rw [ht.fits_iff hc] at hcd ⊢
  rw [ht.fits_iff hd] at hdk
  obtain ⟨d', hreach, hname⟩ := hcd
  obtain ⟨k', hreach', hname'⟩ := hdk
  have heq : d' = d := (ht.denoted_of_reaches hc hreach).eq_of_name hd hname
  exact ⟨k', (heq ▸ hreach).trans hreach', hname'⟩

/-- In a finite table of classes, subtyping is what the classes declare: the walk
that decides it ends by itself, equal types and no others rank as themselves, the
rest inherit as `Descends` says or do not match, and classes that fit each other in
a row fit. -/
theorem subtyping_declared (ht : h.Tabled denotes) :
    (∀ c, Visits h [] [c] (h.lineage c)) ∧
    (∀ t u : Ty, (∀ c, t = .classType c → c.Denoted denotes) →
      (t.rank h u = .self ↔ t.equal u = true) ∧
      (t.rank h u = .inherit ↔ t.equal u = false ∧ t.Descends h u) ∧
      (t.rank h u = .mismatch ↔ t.equal u = false ∧ ¬ t.Descends h u)) ∧
    ∀ c d k : ClassType, c.Denoted denotes → d.Denoted denotes →
      (classType c).rank h (.classType d) ≠ .mismatch →
      (classType d).rank h (.classType k) ≠ .mismatch →
      (classType c).rank h (.classType k) ≠ .mismatch := by
  refine ⟨ht.visits, fun t u hclass => ?_, fun c d k hc hd => ht.fits_trans hc hd⟩
  have hself : t.rank h u = .self ↔ t.equal u = true := rank_eq_self_iff
  have hinherit := ht.rank_eq_inherit_iff (u := u) hclass
  refine ⟨hself, hinherit, ?_⟩
  cases hrank : t.rank h u <;> simp_all

end Hierarchy.Tabled

/-- Two ways from `a` to `d`, and one back. -/
def roundabout : ClassTable := [
  ⟨txt "a", [txt "b", txt "c"], []⟩, ⟨txt "b", [txt "d"], []⟩, ⟨txt "c", [txt "d"], []⟩,
  ⟨txt "d", [txt "a", txt "unlisted"], []⟩]

theorem roundabout_subtyping_declared :
    roundabout.hierarchy.Tabled roundabout.denotes ∧
      (Ty.intersection [.int, .classType (roundabout.classNamed (txt "a"))]).Descends
        roundabout.hierarchy (.classType (roundabout.classNamed (txt "d"))) ∧
      (Ty.classType (roundabout.classNamed (txt "b"))).rank roundabout.hierarchy
        (.classType { name := txt "unlisted" }) ≠ .mismatch := by
  have htable := roundabout.hierarchy_tabled
  obtain ⟨-, hranks, htrans⟩ := htable.subtyping_declared
  refine ⟨htable, ?_, ?_⟩
  · have hrank : (Ty.intersection [.int, .classType (roundabout.classNamed (txt "a"))]).rank
        roundabout.hierarchy (.classType (roundabout.classNamed (txt "d"))) = .inherit := by
      decide +kernel
    exact ((hranks _ _ (by simp)).2.1.mp hrank).2
  · exact htrans _ (roundabout.classNamed (txt "d")) _ rfl rfl (by decide +kernel)
      (by decide +kernel)

end Zensight
