import Zensight.Proofs.Guard
import Zensight.Proofs.Subtyping

/-!
# A subclass has the members of its super classes

What a class offers comes from two sides. Its own members are those of all the
classes that it reaches, and the expand functions are those whose target it
fits. Both only grow on the way down: a class that fits where `d` is wanted
reaches `d`, so it reaches what `d` reaches and fits what `d` fits. A target that
is no class takes every class or none of them, so it makes no difference.

Nothing is asked of the types of targets here, only that both classes are judged
by the same ones.
-/

namespace Zensight

namespace Hierarchy.Tabled

variable {h : Hierarchy} {denotes : Text → Option ClassRef} {c d : ClassType}

/-- A class that fits where `d` is wanted fits wherever `d` does. -/
theorem fits_below (ht : h.Tabled denotes) (hc : c.Denoted denotes) (hd : d.Denoted denotes)
    (hcd : (Ty.classType c).rank h (.classType d) ≠ .mismatch) {u : Ty}
    (hdu : (Ty.classType d).rank h u ≠ .mismatch) : (Ty.classType c).rank h u ≠ .mismatch := by
  cases u with
  | classType k => exact ht.fits_trans hc hd hcd hdu
  | basic b =>
      unfold Ty.rank at hdu ⊢
      exact hdu
  | array | list | map | mapEntry | function | intersection => exact absurd rfl hdu

theorem mem_inheritedMembers_iff (ht : h.Tabled denotes) (hc : c.Denoted denotes) {s : Symbol} :
    s ∈ h.inheritedMembers c ↔ ∃ k, h.Reaches c k ∧ s ∈ h.members k := by
  rw [inheritedMembers, List.mem_flatMap]
  simp only [ht.mem_lineage_iff hc]

theorem inheritedMembers_subset (ht : h.Tabled denotes) (hc : c.Denoted denotes)
    (hd : d.Denoted denotes) (hcd : (Ty.classType c).rank h (.classType d) ≠ .mismatch) :
    h.inheritedMembers d ⊆ h.inheritedMembers c := by
  intro s hs
  rw [ht.mem_inheritedMembers_iff hd] at hs
  rw [ht.mem_inheritedMembers_iff hc]
  obtain ⟨k, hreach, hs⟩ := hs
  obtain ⟨d', hreach', hname⟩ := (ht.fits_iff hc).mp hcd
  have heq : d' = d := (ht.denoted_of_reaches hc hreach').eq_of_name hd hname
  exact ⟨k, (heq ▸ hreach').trans hreach, hs⟩

end Hierarchy.Tabled

namespace View

variable (v : View) (types : NodeRef → Ty)

/-- The expand functions whose target the type fits, when `types` tells the types
of nodes. -/
def fitting (t : Ty) : List Symbol :=
  v.registry.expands.filter fun s => (t.rank v.hierarchy ((v.expandTarget s).run types)).matched

theorem run_expandsFor (t : Ty) (expands : List Symbol) :
    (v.expandsFor t expands).run types =
      expands.filter fun s => (t.rank v.hierarchy ((v.expandTarget s).run types)).matched := by
  induction expands with
  | nil => rfl
  | cons s rest ih =>
      rw [expandsFor, List.filter_cons, ← ih]
      simp only [Inquiry.run_bind, Inquiry.run_pure]

/-- The members of a class are those of its lineage and the expand functions that
fit; classes that share its simple name add nothing. -/
theorem run_membersOf_classType (c : ClassType) :
    (v.membersOf (.classType c)).run types =
      v.hierarchy.inheritedMembers c ++ v.fitting types (.classType c) := by
  rw [membersOf, if_neg (by simp [Ty.isAny]), ownMembers]
  simp only [Inquiry.run_bind, Inquiry.run_pure, run_expandsFor, namesakeMembers,
    List.append_nil, fitting]

theorem membersOf_subset {denotes : Text → Option ClassRef} (ht : v.hierarchy.Tabled denotes)
    {c d : ClassType} (hc : c.Denoted denotes) (hd : d.Denoted denotes)
    (hcd : (Ty.classType c).rank v.hierarchy (.classType d) ≠ .mismatch) :
    (v.membersOf (.classType d)).run types ⊆ (v.membersOf (.classType c)).run types := by
  rw [run_membersOf_classType, run_membersOf_classType]
  refine List.append_subset.mpr ⟨?_, ?_⟩
  · exact List.subset_append_of_subset_left _ (ht.inheritedMembers_subset hc hd hcd)
  · refine List.subset_append_of_subset_right _ fun s hs => ?_
    rw [fitting, List.mem_filter, Rank.matched_iff] at hs ⊢
    exact ⟨hs.1, ht.fits_below hc hd hcd hs.2⟩

end View

namespace Environment

/-- Where a qualified name always denotes the same declaration, a class that fits
where another is wanted has all members of it. Its own members are those of the
classes that it reaches, itself among them, each class taken once; expand functions
come after them. -/
theorem Univocal.substitutable {e : Environment} {denotes : Text → Option ClassRef}
    (h : e.Univocal denotes) {c : ClassType} (hc : c.Denoted denotes) :
    (∀ d : ClassType, d.Denoted denotes →
      (Ty.classType c).rank e.hierarchy (.classType d) ≠ .mismatch →
      ∀ s ∈ e.view.answer (e.view.membersOf (.classType d)),
        s ∈ e.view.answer (e.view.membersOf (.classType c))) ∧
    ∃ classes : List ClassType, classes.Nodup ∧
      (∀ k, k ∈ classes ↔ e.hierarchy.Reaches c k) ∧
      e.view.answer (e.view.ownMembers (.classType c)) = classes.flatMap e.hierarchy.members ∧
      e.view.answer (e.view.membersOf (.classType c)) =
        classes.flatMap e.hierarchy.members ++ e.view.fitting e.view.typeOf (.classType c) := by
  have htable : e.view.hierarchy.Tabled denotes := h.tabled
  refine ⟨fun d hd hcd s hs => ?_, e.hierarchy.lineage c, h.tabled.nodup_lineage c,
    fun k => h.tabled.mem_lineage_iff hc, rfl, ?_⟩
  · exact e.view.membersOf_subset e.view.typeOf htable hc hd hcd hs
  · exact e.view.run_membersOf_classType e.view.typeOf c

/-- Two ways from `A` to `D` and one back, and a function that is added to `D`. -/
def diamond : Environment :=
  (((Environment.mk (txt "scripts") #[] #[] [] [] {}).intern
    (Script.parse (txt "a") (txt "p")
      (txt "zenClass A extends B,C\x7b\x7dzenClass B extends D\x7b\x7d" ++
        txt "zenClass C extends D\x7b\x7dzenClass D extends A\x7bfunction f();\x7d" ++
        txt "$expand D$g();"))).2).replace 0

/-- The classes of `diamond` by name. -/
def diamondDenotes (name : Text) : Option ClassRef :=
  (((diamond.script 0).classTypes 0).find? (·.name == name)).bind (·.decl)

def diamondClass (name : Text) : ClassType := ⟨name, diamondDenotes name⟩

theorem diamondClass_denoted (name : Text) : (diamondClass name).Denoted diamondDenotes := by
  rw [ClassType.Denoted, diamondClass]

theorem diamond_univocal : diamond.Univocal diamondDenotes := by
  have hnames : ∀ n ∈ diamond.nodes, ∀ c ∈ diamond.namedClass? n.script n.node,
      c.decl = diamondDenotes c.name := by
    decide +kernel
  exact univocal_of_named hnames

theorem diamond_substitutable :
    diamond.Univocal diamondDenotes ∧
      (Ty.classType (diamondClass (txt "p.A"))).rank diamond.hierarchy
        (.classType (diamondClass (txt "p.D"))) ≠ .mismatch ∧
      (∀ s ∈ diamond.view.answer (diamond.view.membersOf (.classType (diamondClass (txt "p.D")))),
        s ∈ diamond.view.answer
          (diamond.view.membersOf (.classType (diamondClass (txt "p.A"))))) := by
  have hrank : (Ty.classType (diamondClass (txt "p.A"))).rank diamond.hierarchy
      (.classType (diamondClass (txt "p.D"))) ≠ .mismatch := by
    decide +kernel
  exact ⟨diamond_univocal, hrank, (diamond_univocal.substitutable (diamondClass_denoted _)).1 _
    (diamondClass_denoted _) hrank⟩

end Environment

end Zensight
