import Mathlib.Data.List.Basic
import Zensight.Script

/-!
# Parents and scopes are numbered before what they contain

The walk that binds a script numbers every node after the node it is a part of,
and every scope after the scope around it. Both orders are what ends the two
upward searches of the library: the search for the scopes around a node and the
search for the expression around a parenthesised one.

What the walk declares does not matter here, only where it stands. `Skeleton`
is that part of the bindings, and every step that declares something leaves it
alone.
-/

namespace Zensight

namespace Bindings

/-- Where nodes and scopes stand, without what is declared in them. -/
structure Skeleton where
  surroundings : Array (Option Surroundings)
  /-- The scope around each scope, and the node that opened it. -/
  scopes : Array (Option ScopeId × NodeId)

def skeleton (b : Bindings) : Skeleton :=
  ⟨b.surroundings, b.scopes.map fun s => (s.parent, s.owner)⟩

/-! ## Declaring leaves the skeleton alone -/

@[simp] theorem skeleton_note (b : Bindings) (d : Declaration) :
    (b.note d).skeleton = b.skeleton := rfl

@[simp] theorem skeleton_enter (b : Bindings) (scope : ScopeId) (d : Declaration) :
    (b.enter scope d).skeleton = b.skeleton := by
  have hscopes : (b.scopes.modify scope (·.define d)).map (fun s => (s.parent, s.owner))
      = b.scopes.map fun s => (s.parent, s.owner) := by
    refine Array.ext (by simp) fun i h₁ h₂ => ?_
    simp only [Array.getElem_map, Array.getElem_modify]
    split
    · next h => subst h; rfl
    · rfl
  rw [skeleton, skeleton, ← hscopes]
  rfl

@[simp] theorem skeleton_warnTaken (b : Bindings) (name : Text) (p : Place) :
    (b.warnTaken name p).skeleton = b.skeleton := rfl

@[simp] theorem skeleton_declare (b : Bindings) (scope : ScopeId) (d : Declaration)
    (p : Place) : (b.declare scope d p).skeleton = b.skeleton := by
  unfold declare
  simp only []
  split <;> simp

@[simp] theorem skeleton_declareConstructor (b : Bindings) (scope : ScopeId)
    (d : Declaration) : (b.declareConstructor scope d).skeleton = b.skeleton := by
  unfold declareConstructor
  simp only []
  split <;> rfl

@[simp] theorem skeleton_declareExpand (b : Bindings) (d : Declaration) :
    (b.declareExpand d).skeleton = b.skeleton := rfl

@[simp] theorem skeleton_declareClass (b : Bindings) (scope : ScopeId) (d : Declaration)
    (p : Place) : (b.declareClass scope d p).skeleton = b.skeleton := by
  unfold declareClass
  simp only []
  split
  · exact skeleton_declare b scope d p
  · exact skeleton_declare b scope d p

@[simp] theorem skeleton_declareNode (b : Bindings) (role : Role) (id : NodeId)
    (scope : ScopeId) (form : Form) (start : Place) (parts : Parts) :
    (b.declareNode role id scope form start parts).skeleton = b.skeleton := by
  unfold declareNode
  split <;> try simp
  split <;> simp

@[simp] theorem skeleton_declareThis (b : Bindings) (id : NodeId) (scope : ScopeId)
    (form : Form) (parts : Parts) :
    (b.declareThis id scope form parts).skeleton = b.skeleton := by
  unfold declareThis
  split
  · simp
  · split <;> simp
  · rfl

theorem size_skeleton (b : Bindings) : b.skeleton.scopes.size = b.scopes.size := by
  simp [skeleton]

theorem skeleton_record (b : Bindings) (id : NodeId) (parent : Option NodeId)
    (scope : ScopeId) : (b.record id parent scope).skeleton =
      { b.skeleton with
        surroundings := b.skeleton.surroundings.setIfInBounds id (some ⟨parent, scope⟩) } :=
  rfl

theorem skeleton_openScope (b : Bindings) (owner : NodeId) (parent : Option ScopeId) :
    (b.openScope owner parent).skeleton =
      { b.skeleton with scopes := b.skeleton.scopes.push (parent, owner) } := by
  simp [skeleton, openScope]

/-! ## The order -/

/-- Every node has a greater number than the one it is a part of, and every
scope than the one around it. -/
structure Skeleton.Ordered (k : Skeleton) : Prop where
  parent_lt : ∀ (id p : NodeId) (s : Surroundings),
    k.surroundings[id]? = some (some s) → s.parent = some p → p < id
  outer_lt : ∀ (i outer : ScopeId) (owner : NodeId),
    k.scopes[i]? = some (some outer, owner) → outer < i

theorem Skeleton.Ordered.record {b : Bindings} (h : b.skeleton.Ordered) {id : NodeId}
    {parent : Option NodeId} (hlt : ∀ p, parent = some p → p < id) (scope : ScopeId) :
    (b.record id parent scope).skeleton.Ordered := by
  refine ⟨fun i p s hs hp => ?_, h.outer_lt⟩
  rw [skeleton_record] at hs
  rw [Array.getElem?_setIfInBounds] at hs
  split at hs
  · next heq =>
      subst heq
      split at hs
      · injection hs with hs
        injection hs with hs
        subst hs
        exact hlt p hp
      · cases hs
  · exact h.parent_lt i p s hs hp

theorem Skeleton.Ordered.openScope {b : Bindings} (h : b.skeleton.Ordered)
    {parent : Option ScopeId} (hlt : ∀ p, parent = some p → p < b.scopes.size)
    (owner : NodeId) : (b.openScope owner parent).skeleton.Ordered := by
  refine ⟨h.parent_lt, fun i outer o ho => ?_⟩
  rw [skeleton_openScope] at ho
  rw [Array.getElem?_push] at ho
  split at ho
  · next heq =>
      injection ho with ho
      injection ho with hparent _
      rw [heq, size_skeleton]
      exact hlt outer hparent
  · exact h.outer_lt i outer o ho

/-- What a walk does to the skeleton: it keeps the order and closes no scope. -/
structure Extends (b b' : Bindings) : Prop where
  ordered : b.skeleton.Ordered → b'.skeleton.Ordered
  size_le : b.scopes.size ≤ b'.scopes.size

theorem Extends.refl (b : Bindings) : Extends b b := ⟨id, Nat.le_refl _⟩

theorem Extends.trans {a b c : Bindings} (h₁ : Extends a b) (h₂ : Extends b c) :
    Extends a c :=
  ⟨fun h => h₂.ordered (h₁.ordered h), Nat.le_trans h₁.size_le h₂.size_le⟩

theorem Extends.of_skeleton_eq {b b' : Bindings} (h : b'.skeleton = b.skeleton) :
    Extends b b' := by
  have hsize : b.scopes.size = b'.scopes.size := by
    rw [← size_skeleton b, ← size_skeleton b', h]
  exact ⟨fun hb => h ▸ hb, Nat.le_of_eq hsize⟩

theorem Extends.record (b : Bindings) {id parent : NodeId} (hlt : parent < id)
    (scope : ScopeId) : Extends b (b.record id (some parent) scope) :=
  ⟨fun h => h.record (fun _ hp => Option.some.inj hp ▸ hlt) scope, Nat.le_refl _⟩

theorem Extends.openScope (b : Bindings) {scope : ScopeId} (hlt : scope < b.scopes.size)
    (owner : NodeId) : Extends b (b.openScope owner (some scope)) := by
  refine ⟨fun h => h.openScope (fun _ hp => Option.some.inj hp ▸ hlt) owner, ?_⟩
  simp [Bindings.openScope]

end Bindings

open Bindings (Extends)

mutual

/-- Walking a node keeps the order, if the node comes after its parent and the
scope it lies in is open. -/
theorem Node.bind_extends (n : Node) (role : Role) (id parent : NodeId) (scope : ScopeId)
    (b : Bindings) (hid : parent < id) (hscope : scope < b.scopes.size) :
    Extends b (n.bind role id parent scope b) := by
  match n with
  | .mk form span parts =>
      have hdecl : Extends b
          ((b.record id (some parent) scope).declareNode role id scope form span.start parts) :=
        (Extends.record b hid scope).trans (.of_skeleton_eq (by simp))
      have hopen := Nat.lt_of_lt_of_le hscope hdecl.size_le
      rw [Node.bind]
      simp only []
      split
      · -- The header lies in the scope around the node, all else in the new one.
        have hheader := Parts.bind_extends parts (·.isHeader) (id + 1) id scope _
          (Nat.lt_succ_self id) hopen
        have hnew := Extends.openScope _ (Nat.lt_of_lt_of_le hopen hheader.size_le) id
        refine hdecl.trans (hheader.trans (hnew.trans (Extends.trans
          (.of_skeleton_eq (Bindings.skeleton_declareThis _ _ _ _ _))
          (Parts.bind_extends parts _ _ _ _ _ (Nat.lt_succ_self id) ?_))))
        rw [← Bindings.size_skeleton, Bindings.skeleton_declareThis, Bindings.size_skeleton]
        simp [Bindings.openScope, Bindings.nextScope]
      · exact hdecl.trans (Parts.bind_extends parts _ _ _ _ _ (Nat.lt_succ_self id) hopen)

theorem Parts.bind_extends (ps : Parts) (wanted : Role → Bool) (id parent : NodeId)
    (scope : ScopeId) (b : Bindings) (hid : parent < id) (hscope : scope < b.scopes.size) :
    Extends b (ps.bind wanted id parent scope b) := by
  match ps with
  | .nil => rw [Parts.bind]; exact .refl b
  | .cons role node rest =>
      rw [Parts.bind]
      split
      · have hnode := Node.bind_extends node role id parent scope b hid hscope
        exact hnode.trans (Parts.bind_extends rest wanted _ parent scope _ (Nat.lt_add_right _ hid)
          (Nat.lt_of_lt_of_le hscope hnode.size_le))
      · exact Parts.bind_extends rest wanted _ parent scope b (Nat.lt_add_right _ hid) hscope

end

theorem Bindings.ofTree_ordered (tree : Node) (package : Text) (report : Report) :
    (ofTree tree package report).skeleton.Ordered := by
  have hempty : (empty tree.size package report).skeleton.Ordered := by
    refine ⟨fun id p s hs _ => ?_, fun i outer o ho => ?_⟩
    · simp only [skeleton, empty] at hs
      rw [Array.getElem?_replicate] at hs
      split at hs <;> simp at hs
    · simp [skeleton, empty] at ho
  have hopen := @Skeleton.Ordered.openScope _ hempty none (fun p hp => by cases hp) 0
  have hroot := @Skeleton.Ordered.record _ hopen 0 none (fun p hp => by cases hp) 0
  exact (Parts.bind_extends tree.parts _ 1 0 0 _ Nat.zero_lt_one
    (by simp [Bindings.openScope, Bindings.record])).ordered hroot

namespace Script

theorem parse_ordered (path package source : Text) :
    (parse path package source).bindings.skeleton.Ordered :=
  Bindings.ofTree_ordered _ _ _

/-- The scopes around a scope, itself first, found with no bound on their
number. -/
inductive Enclosed (s : Script) : ScopeId → List Scope → Prop where
  | missing {id : ScopeId} : s.scopes[id]? = none → Enclosed s id []
  | outermost {id : ScopeId} {scope : Scope} :
      s.scopes[id]? = some scope → scope.parent = none → Enclosed s id [scope]
  | inner {id outer : ScopeId} {scope : Scope} {rest : List Scope} :
      s.scopes[id]? = some scope → scope.parent = some outer → Enclosed s outer rest →
      Enclosed s id (scope :: rest)

theorem scopeChain_enclosed {s : Script} (h : s.bindings.skeleton.Ordered) :
    ∀ (fuel id : Nat), id < fuel ∨ s.scopes.size ≤ id →
      Enclosed s id (s.scopeChain fuel id) := by
  intro fuel
  induction fuel with
  | zero =>
      intro id hid
      rw [scopeChain]
      exact .missing (Array.getElem?_eq_none (by omega))
  | succ fuel ih =>
      intro id hid
      rw [scopeChain]
      split
      · next hnone => exact .missing hnone
      · next scope hscope =>
          split
          · next outer houter =>
              have hlt : (outer : Nat) < id := by
                refine h.outer_lt id outer scope.owner ?_
                rw [← houter]
                simp only [Bindings.skeleton, Array.getElem?_map]
                rw [show s.bindings.scopes[id]? = some scope from hscope]
                rfl
              have hin : id < s.scopes.size :=
                (Array.getElem?_eq_some_iff.mp hscope).1
              exact .inner hscope houter
                (ih outer (.inl (Nat.lt_of_lt_of_le hlt (by omega))))
          · next hnone => exact .outermost hscope hnone

/-- The scopes around a node of a script as it was read are all there are. -/
theorem scopesAround_enclosed {s : Script} (h : s.bindings.skeleton.Ordered) (id : NodeId) :
    Enclosed s (s.scopeAt id) (s.scopesAround id) :=
  scopeChain_enclosed h _ _ (Nat.lt_or_ge _ _)

theorem parent?_lt {s : Script} (h : s.bindings.skeleton.Ordered) {id p : NodeId}
    (hp : s.parent? id = some p) : p < id := by
  unfold parent? at hp
  cases hs : s.bindings.surroundings[id]? with
  | none => rw [hs] at hp; cases hp
  | some slot =>
      cases slot with
      | none => rw [hs] at hp; cases hp
      | some place =>
          rw [hs] at hp
          exact h.parent_lt id p place hs hp

end Script

end Zensight
