import Mathlib.Data.List.Nodup
import Mathlib.Logic.Relation
import Zensight.Proofs.Lineage
import Zensight.Types.ClassTable

/-!
# The lineage of a class is all that it reaches

`Hierarchy.lineage` skips a class when it has seen one of the same name, on
whatever way it came there. So a class that is skipped could have led to more
than the one seen before it, and in a hierarchy where two declarations share a
name it does. Where each qualified name denotes one declaration, nothing is
lost: the walk leaves behind a list of classes that holds, with each class, what
that class extends, and such a list holds all that can be reached from its
members. Cycles and shared ancestors are no cases of their own.

`Hierarchy.Tabled` is that condition. It holds of every list of classes, and of
every environment whose scripts mean the same classes by the same names.
-/

namespace Zensight

/-- The class has the declaration that its name denotes. -/
def ClassType.Denoted (denotes : Text → Option ClassRef) (c : ClassType) : Prop :=
  c.decl = denotes c.name

theorem ClassType.Denoted.eq_of_name {denotes : Text → Option ClassRef} {c d : ClassType}
    (hc : c.Denoted denotes) (hd : d.Denoted denotes) (hname : c.name = d.name) : c = d := by
  have hdecl : c.decl = d.decl := by rw [hc, hd, hname]
  cases c
  cases d
  simp_all

namespace Hierarchy

/-- `s` is one of the classes that `c` extends directly. -/
def Extends (h : Hierarchy) (c s : ClassType) : Prop := s ∈ h.supers c

/-- The class is `c` or one that `c` extends, directly or not. -/
abbrev Reaches (h : Hierarchy) (c k : ClassType) : Prop := Relation.ReflTransGen h.Extends c k

/-- The hierarchy is a finite table of classes: each name denotes one declaration,
also where a class extends another, and no more names are extended than the
hierarchy counts. -/
structure Tabled (h : Hierarchy) (denotes : Text → Option ClassRef) : Prop where
  denoted : ∀ c s, c.Denoted denotes → h.Extends c s → s.Denoted denotes
  finite : ∃ names : List Text, h.ExtendsOnly names ∧ names.length ≤ h.size

variable {h : Hierarchy} {denotes : Text → Option ClassRef}

theorem hasName_iff {cs : List ClassType} {name : Text} :
    hasName cs name = true ↔ ∃ k ∈ cs, k.name = name := by
  simp [hasName]

/-! ## What a walk leaves behind -/

namespace Visits

variable {seen agenda out : List ClassType}

/-- What was seen stays seen. -/
theorem subset (hv : Visits h seen agenda out) : seen ⊆ out := by
  induction hv with
  | done => exact List.Subset.refl _
  | skip _ _ ih => exact ih
  | visit _ _ _ ih₁ ih₂ => exact fun k hk => ih₂ (ih₁ (List.mem_append_left _ hk))

/-- Each class of the agenda has its name seen in the end. -/
theorem covers (hv : Visits h seen agenda out) {c : ClassType} (hc : c ∈ agenda) :
    hasName out c.name = true := by
  induction hv with
  | done => cases hc
  | @skip seen rest out c' hseen hrest ih =>
      rcases List.mem_cons.mp hc with rfl | hc
      · exact hrest.hasName_mono _ hseen
      · exact ih hc
  | @visit seen mid rest out c' _ hsupers hrest _ ih =>
      rcases List.mem_cons.mp hc with rfl | hc
      · have hmem : c ∈ out := hrest.subset (hsupers.subset (by simp))
        exact hasName_iff.mpr ⟨c, hmem, rfl⟩
      · exact ih hc

/-- What a new class extends has its name seen in the end as well. -/
theorem closed (hv : Visits h seen agenda out) {k s : ClassType} (hk : k ∈ out)
    (hnew : k ∉ seen) (hs : h.Extends k s) : hasName out s.name = true := by
  induction hv with
  | done => exact absurd hk hnew
  | skip _ _ ih => exact ih hk hnew
  | @visit seen mid rest out c _ hsupers hrest ih₁ ih₂ =>
      by_cases hmid : k ∈ mid
      · refine hrest.hasName_mono _ ?_
        by_cases hkc : k = c
        · exact hsupers.covers (hkc ▸ hs)
        · exact ih₁ hmid (by simp [hnew, hkc])
      · exact ih₂ hk hmid

/-- A new class is one that the agenda leads to. -/
theorem reached (hv : Visits h seen agenda out) {k : ClassType} (hk : k ∈ out)
    (hnew : k ∉ seen) : ∃ c ∈ agenda, h.Reaches c k := by
  induction hv with
  | done => exact absurd hk hnew
  | skip _ _ ih =>
      obtain ⟨c, hc, hreach⟩ := ih hk hnew
      exact ⟨c, List.mem_cons_of_mem _ hc, hreach⟩
  | @visit seen mid rest out c _ _ _ ih₁ ih₂ =>
      by_cases hmid : k ∈ mid
      · refine ⟨c, List.mem_cons_self, ?_⟩
        by_cases hkc : k = c
        · rw [hkc]
        · obtain ⟨s, hs, hreach⟩ := ih₁ hmid (by simp [hnew, hkc])
          exact .head hs hreach
      · obtain ⟨d, hd, hreach⟩ := ih₂ hk hmid
        exact ⟨d, List.mem_cons_of_mem _ hd, hreach⟩

/-- No name is seen twice. -/
theorem nodup (hv : Visits h seen agenda out) (hseen : (seen.map (·.name)).Nodup) :
    (out.map (·.name)).Nodup := by
  induction hv with
  | done => exact hseen
  | skip _ _ ih => exact ih hseen
  | @visit seen mid rest out c hnew _ _ ih₁ ih₂ =>
      refine ih₂ (ih₁ ?_)
      have hnot : c.name ∉ seen.map (·.name) := by
        intro hmem
        obtain ⟨k, hk, hname⟩ := List.mem_map.mp hmem
        rw [hasName_iff.mpr ⟨k, hk, hname⟩] at hnew
        cases hnew
      rw [List.map_append, List.map_singleton]
      exact List.nodup_append.mpr ⟨hseen, by simp, by simpa using hnot⟩

end Visits

/-! ## The lineage of a class in a table -/

namespace Tabled

variable {c k : ClassType}

theorem visits (ht : h.Tabled denotes) (c : ClassType) : Visits h [] [c] (h.lineage c) := by
  obtain ⟨names, honly, hsize⟩ := ht.finite
  exact visits_lineage honly hsize c

/-- Whatever a class of the table reaches is of the table. -/
theorem denoted_of_reaches (ht : h.Tabled denotes) (hc : c.Denoted denotes)
    (hreach : h.Reaches c k) : k.Denoted denotes := by
  induction hreach with
  | refl => exact hc
  | tail _ hext ih => exact ht.denoted _ _ ih hext

theorem mem_lineage_iff (ht : h.Tabled denotes) (hc : c.Denoted denotes) :
    k ∈ h.lineage c ↔ h.Reaches c k := by
  have hv := ht.visits c
  have hsound : ∀ d ∈ h.lineage c, h.Reaches c d := by
    intro d hd
    obtain ⟨c', hc', hreach⟩ := hv.reached hd List.not_mem_nil
    rwa [List.mem_singleton.mp hc'] at hreach
  -- A name that is seen is that of the class itself, since it has one declaration.
  have hseen : ∀ d : ClassType, d.Denoted denotes → hasName (h.lineage c) d.name = true →
      d ∈ h.lineage c := by
    intro d hd hname
    obtain ⟨d', hd', hname⟩ := hasName_iff.mp hname
    have hdenoted := ht.denoted_of_reaches hc (hsound d' hd')
    rwa [hdenoted.eq_of_name hd hname] at hd'
  refine ⟨hsound k, fun hreach => ?_⟩
  induction hreach with
  | refl => exact hseen c hc (hv.covers List.mem_cons_self)
  | tail hreach hext ih =>
      have hdenoted := ht.denoted_of_reaches hc (hreach.tail hext)
      exact hseen _ hdenoted (hv.closed ih List.not_mem_nil hext)

/-- Each class that is reached stands in the lineage once. -/
theorem nodup_lineage (ht : h.Tabled denotes) (c : ClassType) : (h.lineage c).Nodup :=
  List.Nodup.of_map _ ((ht.visits c).nodup List.nodup_nil)

theorem inherits_iff (ht : h.Tabled denotes) (hc : c.Denoted denotes) (name : Text) :
    h.inherits c name = true ↔ ∃ k, h.Reaches c k ∧ k.name = name := by
  rw [inherits, hasName_iff]
  simp only [ht.mem_lineage_iff hc]

end Tabled

end Hierarchy

/-! ## Tables there are -/

namespace ClassTable

/-- The declaration that a name has in the list: the first of its name. -/
def denotes (table : ClassTable) (name : Text) : Option ClassRef :=
  (table.classNamed name).decl

theorem denoted_classNamed (table : ClassTable) (name : Text) :
    (table.classNamed name).Denoted table.denotes := rfl

/-- What a class of the list extends, it extends by name. -/
theorem exists_of_extends {table : ClassTable} {c s : ClassType}
    (hs : table.hierarchy.Extends c s) :
    ∃ listed ∈ table, ∃ name ∈ listed.supers, s = table.classNamed name := by
  unfold Hierarchy.Extends Hierarchy.supers at hs
  split at hs
  · next decl _ =>
      cases decl with
      | declared decl => cases hs
      | listed i =>
          simp only [hierarchy] at hs
          split at hs
          · next listed hlisted =>
              obtain ⟨name, hname, rfl⟩ := List.mem_map.mp hs
              exact ⟨listed, List.mem_of_getElem? hlisted, name, hname, rfl⟩
          · cases hs
  · cases hs

/-- Every list of classes is a table, whatever its classes extend. -/
theorem hierarchy_tabled (table : ClassTable) : table.hierarchy.Tabled table.denotes := by
  refine ⟨fun c s _ hs => ?_, table.flatMap (·.supers), ⟨fun c s hs => ?_⟩, Nat.le_refl _⟩
  · obtain ⟨_, _, name, _, rfl⟩ := exists_of_extends hs
    exact table.denoted_classNamed name
  · obtain ⟨listed, hlisted, name, hname, rfl⟩ := exists_of_extends hs
    exact List.mem_flatMap.mpr ⟨listed, hlisted, hname⟩

end ClassTable

namespace Environment

/-- A qualified name denotes the same declaration throughout the environment: a
class that is known by what its name denotes extends classes that are. -/
def Univocal (e : Environment) (denotes : Text → Option ClassRef) : Prop :=
  ∀ c s, c.Denoted denotes → e.hierarchy.Extends c s → s.Denoted denotes

theorem Univocal.tabled {e : Environment} {denotes : Text → Option ClassRef}
    (h : e.Univocal denotes) : e.hierarchy.Tabled denotes := by
  refine ⟨h, e.nodes.map e.namedText, hierarchy_extendsOnly e, ?_⟩
  rw [List.length_map, length_nodes]
  exact Nat.le_refl _

/-- It is enough that every node which names a class names the one denoted. -/
theorem univocal_of_named {e : Environment} {denotes : Text → Option ClassRef}
    (h : ∀ n ∈ e.nodes, ∀ c ∈ e.namedClass? n.script n.node, c.Denoted denotes) :
    e.Univocal denotes := by
  intro c s _ hs
  unfold Hierarchy.Extends Hierarchy.supers at hs
  split at hs
  · next decl _ =>
      cases decl with
      | listed i => cases hs
      | declared decl =>
          obtain ⟨n, -, hn⟩ := List.mem_filterMap.mp hs
          exact h ⟨decl.script, n⟩ (mem_nodes_of_namedClass? hn) s hn
  · cases hs

end Environment

end Zensight
