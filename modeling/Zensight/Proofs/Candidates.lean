import Zensight.Proofs.Defaults
import Zensight.Proofs.Indexes
import Zensight.Proofs.Substitutability

/-!
# Where candidates come from

A call or an operator chooses among symbols that are members of a type or that a scope holds.
Whatever the types of nodes are taken to be, such a symbol comes with its type or was declared
by a script of the environment (`Environment.Knows`): no question makes up a symbol. Those that come
with a type have names (`Environment.Offers`).
-/

namespace Zensight

namespace Environment

/-- The symbols that may be asked about: those that come with their types, and what the scripts
declare. -/
def Knows (e : Environment) : Symbol → Prop
  | .stated _ => True
  | .declared id d => (e.script id).Knows d

/-- The symbols that are members: those that come with their types have names. -/
def Offers (e : Environment) : Symbol → Prop
  | .stated s => Rule.isPlaceholder s.name = false
  | .declared id d => (e.script id).Knows d

theorem Offers.knows {e : Environment} {s : Symbol} (h : e.Offers s) : e.Knows s := by
  cases s with
  | stated => trivial
  | declared => exact h

variable (e : Environment)

theorem offers_of_mem_classMembers {id : ScriptId} {decl : NodeId} {d : Declaration}
    (hd : d ∈ (e.script id).classMembers decl) : e.Offers (.declared id d) := by
  rw [Script.classMembers] at hd
  split at hd
  · next scope hscope =>
      exact .inr (.inl ⟨scope, Array.mem_of_find?_eq_some hscope, List.mem_of_mem_tail hd⟩)
  · cases hd

theorem offers_of_mem_members {c : ClassType} {s : Symbol} (hs : s ∈ e.hierarchy.members c) :
    e.Offers s := by
  rw [Hierarchy.members] at hs
  split at hs
  · next r _ =>
      cases r with
      | declared decl =>
          obtain ⟨d, hd, rfl⟩ := List.mem_map.mp hs
          exact e.offers_of_mem_classMembers hd
      | listed _ => cases hs
  · cases hs

theorem offers_of_mem_inheritedMembers {c : ClassType} {s : Symbol}
    (hs : s ∈ e.hierarchy.inheritedMembers c) : e.Offers s := by
  obtain ⟨d, -, hs⟩ := List.mem_flatMap.mp hs
  exact e.offers_of_mem_members hs

/-! ## Members -/

theorem offers_operation (op : Operator) (result : Ty) (params : List Ty) :
    e.Offers (.operation op result params) := op.name_genuine

theorem offers_method {name : Text} (result : Ty) (params : List Ty) :
    e.Offers (.method name result params) ↔ Rule.isPlaceholder name = false := .rfl

theorem offers_field {name : Text} (type : Option Ty) (modifiers : Modifiers) :
    e.Offers (.field name type modifiers) ↔ Rule.isPlaceholder name = false := .rfl

theorem offers_of_mem_basicMembers (b : Basic) : ∀ s ∈ b.members, e.Offers s := by
  unfold Basic.members
  split
  · rw [Basic.numericMembers]
    split <;> simp [offers_operation]
  · split <;> simp [Basic.boolMembers, Basic.stringMembers, Basic.intRangeMembers,
      offers_operation, offers_method, offers_field]
    all_goals decide

theorem offers_of_mem_builtinMembers (t : Ty) : ∀ s ∈ t.builtinMembers, e.Offers s := by
  cases t with
  | basic b => exact e.offers_of_mem_basicMembers b
  | array | list | map | mapEntry =>
      simp [Ty.builtinMembers, Ty.arrayMembers, Ty.listMembers, Ty.mapMembers,
        Ty.mapEntryMembers, offers_operation, offers_method, offers_field]
      decide
  | _ => simp [Ty.builtinMembers]

end Environment

namespace Inquiry

variable {α β : Type} {G : α → Prop} {H : β → Prop}

/-- Whatever it is told, the inquiry gives an answer of which `G` holds. -/
def Yields (G : α → Prop) (q : Inquiry α) : Prop := ∀ types, G (q.run types)

theorem Yields.pure {a : α} (h : G a) : Yields G (pure a) := fun _ => h

theorem Yields.bind {q : Inquiry α} {f : α → Inquiry β} (h : Yields G q)
    (hf : ∀ a, G a → Yields H (f a)) : Yields H (q >>= f) := by
  intro types
  rw [run_bind]
  exact hf _ (h types) types

theorem Yields.mapM {g : β → Inquiry α} {xs : List β} (h : ∀ x ∈ xs, Yields G (g x)) :
    Yields (fun as => ∀ a ∈ as, G a) (xs.mapM g) := by
  have hloop : ∀ (xs : List β) (acc : List α), (∀ x ∈ xs, Yields G (g x)) → (∀ a ∈ acc, G a) →
      Yields (fun as => ∀ a ∈ as, G a) (List.mapM.loop g xs acc) := by
    intro xs
    induction xs with
    | nil =>
        intro acc _ hacc
        exact .pure fun a ha => hacc a (List.mem_reverse.mp ha)
    | cons x xs ih =>
        intro acc hxs hacc
        refine (hxs x List.mem_cons_self).bind fun a ha => ?_
        exact ih (a :: acc) (fun y hy => hxs y (List.mem_cons_of_mem _ hy))
          (List.forall_mem_cons.mpr ⟨ha, hacc⟩)
  exact hloop xs [] h (List.forall_mem_nil _)

end Inquiry

open Inquiry (Yields)

theorem Symbol.mem_of_mem_firstOfEachKey {s : Symbol} {keyed : List (Text × Symbol)}
    {seen : List Text} (h : s ∈ firstOfEachKey seen keyed) : ∃ key, (key, s) ∈ keyed := by
  induction keyed generalizing seen with
  | nil => cases h
  | cons x keyed ih =>
      obtain ⟨key, t⟩ := x
      rw [firstOfEachKey] at h
      split at h
      · obtain ⟨k, hk⟩ := ih h
        exact ⟨k, List.mem_cons_of_mem _ hk⟩
      · rcases List.mem_cons.mp h with rfl | h
        · exact ⟨key, List.mem_cons_self⟩
        · obtain ⟨k, hk⟩ := ih h
          exact ⟨k, List.mem_cons_of_mem _ hk⟩

namespace View

variable (v : View)

/-- All symbols of a list may be asked about. -/
abbrev AllKnown (v : View) (ss : List Symbol) : Prop := ∀ s ∈ ss, v.env.Knows s

/-- All symbols of a list may be members. -/
abbrev AllOffered (v : View) (ss : List Symbol) : Prop := ∀ s ∈ ss, v.env.Offers s

theorem merge_offered {groups : List (List Symbol)} (h : ∀ group ∈ groups, v.AllOffered group) :
    Yields v.AllOffered (v.merge groups) := by
  have hkeyed : Yields (fun keyed : List (Text × Symbol) => ∀ x ∈ keyed, v.env.Offers x.2)
      (groups.flatten.mapM fun s => return (← v.conflictKey s, s)) := by
    refine Yields.mapM fun s hs types => ?_
    obtain ⟨group, hgroup, hs⟩ := List.mem_flatten.mp hs
    rw [Inquiry.run_bind]
    exact h group hgroup s hs
  refine hkeyed.bind fun keyed hkeyed => .pure fun s hs => ?_
  obtain ⟨key, hmem⟩ := Symbol.mem_of_mem_firstOfEachKey hs
  exact hkeyed (key, s) hmem

/-- A view takes what it knows of classes and of the workspace from its environment. -/
structure Plain (v : View) : Prop where
  hierarchy_eq : v.hierarchy = v.env.hierarchy
  expands_offered : v.AllOffered v.registry.expands

theorem plain_view {e : Environment} (h : e.Reachable) : e.view.Plain := by
  refine ⟨rfl, fun s hs => ?_⟩
  have hs : s ∈ e.registry.expands := hs
  rw [h.indexed.expands] at hs
  obtain ⟨id, -, hs⟩ := List.mem_flatMap.mp hs
  obtain ⟨d, hd, rfl⟩ := List.mem_map.mp hs
  exact .inr (.inr (.inl hd))

namespace Plain

variable {v : View}

mutual

theorem ownMembers_offered (hv : v.Plain) : (t : Ty) → Yields v.AllOffered (v.ownMembers t)
  | .classType c => by
    rw [ownMembers, hv.hierarchy_eq]
    exact .pure fun s hs => v.env.offers_of_mem_inheritedMembers hs
  | .intersection cs => by
    rw [ownMembers]
    exact (hv.ownMemberGroups_offered cs).bind fun groups hgroups => v.merge_offered hgroups
  | .basic _ | .array _ | .list _ | .map _ _ | .mapEntry _ _ | .function _ _ => by
    rw [ownMembers]
    · exact .pure (v.env.offers_of_mem_builtinMembers _)
    all_goals simp

theorem ownMemberGroups_offered (hv : v.Plain) : (ts : List Ty) →
    Yields (fun groups => ∀ group ∈ groups, v.AllOffered group) (v.ownMemberGroups ts)
  | [] => by
    rw [ownMemberGroups]
    exact .pure (List.forall_mem_nil _)
  | t :: ts => by
    rw [ownMemberGroups]
    refine (hv.ownMembers_offered t).bind fun group hgroup => ?_
    refine (hv.ownMemberGroups_offered ts).bind fun groups hgroups => ?_
    exact .pure (List.forall_mem_cons.mpr ⟨hgroup, hgroups⟩)

end

theorem membersOf_offered (hv : v.Plain) (t : Ty) : Yields v.AllOffered (v.membersOf t) := by
  rw [membersOf]
  split
  · exact .pure (List.forall_mem_nil _)
  · refine (hv.ownMembers_offered t).bind fun own hown types => ?_
    rw [Inquiry.run_bind, run_expandsFor]
    intro s hs
    rcases List.mem_append.mp hs with hs | hs
    · rcases List.mem_append.mp hs with hs | hs
      · exact hown s hs
      · exact hv.expands_offered s (List.mem_filter.mp hs).1
    · unfold namesakeMembers at hs
      split at hs
      · cases hs
      · obtain ⟨c, -, hs⟩ := List.mem_flatMap.mp hs
        rw [hv.hierarchy_eq] at hs
        exact v.env.offers_of_mem_members hs

theorem memberCandidates_known (hv : v.Plain) (t : Ty) (name : Text) :
    Yields v.AllKnown (v.memberCandidates t name) := by
  rw [memberCandidates]
  split
  · exact .pure (List.forall_mem_nil _)
  · refine (hv.membersOf_offered t).bind fun members hmembers => .pure fun s hs => ?_
    exact (hmembers s (List.mem_filter.mp hs).1).knows

end Plain

end View

namespace Script

variable {s : Script}

theorem mem_scopes_of_mem_scopeChain {scope : Scope} {fuel : Nat} {id : ScopeId}
    (h : scope ∈ s.scopeChain fuel id) : scope ∈ s.scopes := by
  induction fuel generalizing id with
  | zero => cases h
  | succ fuel ih =>
      rw [scopeChain] at h
      split at h
      · cases h
      · next inner hinner =>
          rcases List.mem_cons.mp h with rfl | h
          · exact Array.mem_of_getElem? hinner
          · split at h
            · exact ih h
            · cases h

theorem knows_of_mem_lookupAll {n : NodeId} {name : Text} {d : Declaration}
    (hd : d ∈ s.lookupAll n name) : s.Knows d := by
  rw [lookupAll] at hd
  cases hfound : ((s.scopesAround n).map (·.named name)).find? (!·.isEmpty) with
  | none =>
      rw [hfound] at hd
      cases hd
  | some named =>
      rw [hfound] at hd
      obtain ⟨scope, hscope, rfl⟩ := List.mem_map.mp (List.mem_of_find?_eq_some hfound)
      exact .inr (.inl ⟨scope, mem_scopes_of_mem_scopeChain hscope, (List.mem_filter.mp hd).1⟩)

end Script

/-- What a call chooses from may be asked about. -/
theorem View.Plain.callCandidates_known {v : View} (hv : v.Plain) (call : NodeRef) :
    Yields v.AllKnown (v.callCandidates call) := by
  unfold callCandidates
  split
  · exact .pure (List.forall_mem_nil _)
  · split
    · intro types
      rw [Inquiry.run_bind]
      exact hv.memberCandidates_known _ _ types
    · dsimp only
      split
      · refine .pure fun s hs => ?_
        obtain ⟨d, hd, rfl⟩ := List.mem_map.mp hs
        exact Script.knows_of_mem_lookupAll hd
      · exact .pure (List.forall_mem_nil _)
    · exact .pure (List.forall_mem_nil _)

end Zensight
