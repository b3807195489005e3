import Mathlib.Data.List.Basic
import Zensight.Typing.Names

/-!
# Class hierarchies are walked to their end

`Hierarchy.lineage` walks the super classes of a class on fuel, and a
hierarchy may be cyclic, so the fuel could be what ends the walk. It is not.
`Hierarchy.Visits` is the depth-first walk with no fuel at all: it ends only
because every class on its agenda has been dealt with. The fuelled walk is such
a walk whenever finitely many names, no more than the fuel, are extended by any
class at all, since every level of the walk below the first is at a new one of
those names.

In an environment that bound is the number of nodes: a class extends only what
some node of its script writes, and each node writes one name.
-/

namespace Zensight

namespace Hierarchy

/-- The depth-first walk over an agenda of classes, from the classes seen
before to those seen after it. A name seen before is skipped; any other is
added, and the classes it extends come before the rest of the agenda. -/
inductive Visits (h : Hierarchy) :
    List ClassType → List ClassType → List ClassType → Prop where
  | done {seen : List ClassType} : Visits h seen [] seen
  | skip {seen rest out : List ClassType} {c : ClassType} :
      hasName seen c.name = true → Visits h seen rest out →
      Visits h seen (c :: rest) out
  | visit {seen mid rest out : List ClassType} {c : ClassType} :
      hasName seen c.name = false →
      Visits h (seen ++ [c]) (h.supers c) mid → Visits h mid rest out →
      Visits h seen (c :: rest) out

/-- All the names that classes of the hierarchy extend. -/
structure ExtendsOnly (h : Hierarchy) (names : List Text) : Prop where
  mem : ∀ (c s : ClassType), s ∈ h.supers c → s.name ∈ names

theorem hasName_append (seen more : List ClassType) (name : Text) :
    hasName (seen ++ more) name = (hasName seen name || hasName more name) := by
  simp [hasName]

theorem hasName_singleton (c : ClassType) (name : Text) :
    hasName [c] name = (c.name == name) := by
  simp [hasName]

/-- How many of the names no class seen so far has. -/
def unseen (names : List Text) (seen : List ClassType) : Nat :=
  names.countP fun name => !hasName seen name

theorem unseen_le_length (names : List Text) (seen : List ClassType) :
    unseen names seen ≤ names.length :=
  List.countP_le_length

/-- Seeing more classes leaves no more names unseen. -/
theorem unseen_anti {names : List Text} {seen later : List ClassType}
    (h : ∀ name, hasName seen name = true → hasName later name = true) :
    unseen names later ≤ unseen names seen := by
  refine List.countP_mono_left fun name _ hlater => ?_
  cases hs : hasName seen name with
  | false => rfl
  | true => simp [h name hs] at hlater

/-- Seeing a class of a new name takes that name off the unseen ones. -/
theorem unseen_append_lt {names : List Text} {seen : List ClassType} {c : ClassType}
    (hmem : c.name ∈ names) (hnew : hasName seen c.name = false) :
    unseen names (seen ++ [c]) < unseen names seen := by
  unfold unseen
  obtain ⟨before, after, rfl⟩ := List.append_of_mem hmem
  have hle : ∀ part : List Text,
      part.countP (fun name => !hasName (seen ++ [c]) name) ≤
        part.countP fun name => !hasName seen name := fun part =>
    @unseen_anti part seen (seen ++ [c]) fun name h => by rw [hasName_append, h]; rfl
  have h1 := hle before
  have h2 := hle after
  have hc : hasName (seen ++ [c]) c.name = true := by
    rw [hasName_append, hasName_singleton]; simp
  simp only [List.countP_append, List.countP_cons, hc, hnew, Bool.not_true,
    Bool.not_false, if_true, if_neg Bool.false_ne_true]
  omega

theorem Visits.hasName_mono {h : Hierarchy} {seen agenda out : List ClassType}
    (hv : Visits h seen agenda out) (name : Text) (hs : hasName seen name = true) :
    hasName out name = true := by
  induction hv with
  | done => exact hs
  | skip _ _ ih => exact ih hs
  | visit _ _ _ ih₁ ih₂ => exact ih₂ (ih₁ (by rw [hasName_append, hs]; rfl))

/-- The walk over an agenda, on fuel that covers the names yet unseen. Without
fuel no name is unseen, and the whole agenda is skipped. -/
theorem visits_foldl_extendLineage {h : Hierarchy} {names : List Text}
    (hn : h.ExtendsOnly names) :
    ∀ (fuel : Nat) (agenda seen : List ClassType),
      (∀ c ∈ agenda, c.name ∈ names) → unseen names seen ≤ fuel →
      Visits h seen agenda (agenda.foldl (h.extendLineage fuel) seen) := by
  intro fuel
  induction fuel with
  | zero =>
      intro agenda seen hmem hfuel
      induction agenda with
      | nil => exact .done
      | cons c rest ih =>
          have hseen : hasName seen c.name = true := by
            by_contra hne
            have hlt := unseen_append_lt (hmem c (by simp)) (Bool.eq_false_iff.mpr hne)
            omega
          rw [List.foldl_cons, extendLineage]
          exact .skip hseen (ih fun d hd => hmem d (by simp [hd]))
  | succ fuel ihFuel =>
      intro agenda
      induction agenda with
      | nil => intro seen _ _; exact .done
      | cons c rest ih =>
          intro seen hmem hfuel
          have hrest : ∀ d ∈ rest, d.name ∈ names := fun d hd => hmem d (by simp [hd])
          rw [List.foldl_cons, extendLineage]
          cases hs : hasName seen c.name with
          | true =>
              rw [if_pos rfl]
              exact .skip hs (ih seen hrest hfuel)
          | false =>
              rw [if_neg Bool.false_ne_true]
              have hlt := unseen_append_lt (hmem c (by simp)) hs
              have hsub := ihFuel (h.supers c) (seen ++ [c]) (hn.mem c) (by omega)
              have hmono : unseen names
                  ((h.supers c).foldl (h.extendLineage fuel) (seen ++ [c])) ≤
                    unseen names (seen ++ [c]) := unseen_anti hsub.hasName_mono
              exact .visit hs hsub (ih _ hrest (by omega))

/-- The lineage of a class is the outcome of the walk from it alone. The class
itself need not be one that others extend. -/
theorem visits_lineage {h : Hierarchy} {names : List Text} (hn : h.ExtendsOnly names)
    (hsize : names.length ≤ h.size) (c : ClassType) : Visits h [] [c] (h.lineage c) := by
  have hsub := visits_foldl_extendLineage hn h.size (h.supers c) [c] (hn.mem c)
    (Nat.le_trans (unseen_le_length names [c]) hsize)
  exact .visit rfl hsub .done

end Hierarchy

namespace Environment

/-- The nodes of all scripts. -/
def nodes (e : Environment) : List NodeRef :=
  (List.range e.scripts.size).flatMap fun id =>
    (List.range (e.script id).size).map fun n => ⟨id, n⟩

theorem script_of_lt {e : Environment} {id : ScriptId} (h : id < e.scripts.size) :
    e.script id = e.scripts[id] := by
  rw [script, Array.getElem?_eq_getElem h, Option.getD_some]

theorem script_of_ge {e : Environment} {id : ScriptId} (h : e.scripts.size ≤ id) :
    e.script id = Script.parse [] [] [] := by
  rw [script, Array.getElem?_eq_none h, Option.getD_none]

theorem mem_nodes {e : Environment} {n : NodeRef} :
    n ∈ e.nodes ↔ n.script < e.scripts.size ∧ n.node < (e.script n.script).size := by
  obtain ⟨id, node⟩ := n
  simp [nodes]

theorem length_nodes (e : Environment) : e.nodes.length = e.nodeCount := by
  have hfold : ∀ (l : List Script) (n : Nat),
      l.foldl (fun n s => n + s.size) n = n + (l.map Script.size).sum := by
    intro l
    induction l with
    | nil => intro n; simp
    | cons s rest ih => intro n; rw [List.foldl_cons, ih]; simp; omega
  have hlist : (List.range e.scripts.size).map (fun id => (e.script id).size)
      = e.scripts.toList.map Script.size := by
    refine List.ext_getElem (by simp) fun i h₁ h₂ => ?_
    simp only [List.length_map, List.length_range] at h₁
    simp [script_of_lt h₁]
  rw [nodes, List.length_flatMap]
  simp only [List.length_map, List.length_range]
  rw [hlist, nodeCount, ← Array.foldl_toList, hfold, Nat.zero_add]

/-- A number that no node has gives the placeholder of a statement, or the empty
file if its script is missing too. -/
theorem form_of_not_mem {e : Environment} {n : NodeRef} (h : n ∉ e.nodes) :
    (e.script n.script).form n.node = .file ∨ (e.script n.script).form n.node = .badStmt := by
  have hempty : ∀ m, (Script.parse [] [] []).form m = .file ∨
      (Script.parse [] [] []).form m = .badStmt
    | 0 => .inl rfl
    | _ + 1 => .inr rfl
  rcases Nat.lt_or_ge n.script e.scripts.size with hid | hid
  · have hge : (e.script n.script).size ≤ n.node :=
      Nat.le_of_not_lt fun hlt => h (mem_nodes.mpr ⟨hid, hlt⟩)
    refine .inr ?_
    rw [Script.form, Script.entry, Array.getElem?_eq_none hge]
    rfl
  · rw [script_of_ge hid]
    exact hempty n.node

/-! ## The names that nodes write -/

/-- The name that a node stands for as a class. -/
def namedText (e : Environment) (n : NodeRef) : Text :=
  ((e.namedClass? n.script n.node).map (·.name)).getD []

theorem mem_nodes_of_namedClass? {e : Environment} {id : ScriptId} {n : NodeId}
    {c : ClassType} (h : e.namedClass? id n = some c) : (⟨id, n⟩ : NodeRef) ∈ e.nodes := by
  by_contra hmem
  rw [namedClass?] at h
  rcases form_of_not_mem hmem with hf | hf <;> simp only [hf] at h <;> cases h

/-- Whatever a class extends is named by one of the nodes. -/
theorem hierarchy_extendsOnly (e : Environment) :
    e.hierarchy.ExtendsOnly (e.nodes.map e.namedText) := by
  refine ⟨fun c s hs => ?_⟩
  unfold Hierarchy.supers at hs
  split at hs
  · next decl _ =>
      cases decl with
      | listed i => cases hs
      | declared decl =>
          obtain ⟨n, -, hn⟩ := List.mem_filterMap.mp hs
          refine List.mem_map.mpr ⟨⟨decl.script, n⟩, mem_nodes_of_namedClass? hn, ?_⟩
          rw [namedText, hn]
          rfl
  · cases hs

/-- In every environment the lineage of a class is the whole walk from it,
whatever cycles its hierarchy has. -/
theorem hierarchy_visits_lineage (e : Environment) (c : ClassType) :
    Hierarchy.Visits e.hierarchy [] [c] (e.hierarchy.lineage c) := by
  refine Hierarchy.visits_lineage (hierarchy_extendsOnly e) ?_ c
  rw [List.length_map, length_nodes]
  exact Nat.le_refl _

end Environment

end Zensight
