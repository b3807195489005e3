import Mathlib.Data.List.Perm.Subperm
import Zensight.Proofs.Histories
import Zensight.Proofs.Lineage
import Zensight.Proofs.Nesting
import Zensight.Typing.Session

/-!
# Every question about types is answered

The rules of typing ask for the types of other nodes, in circles if the script
does, and `View.typeWithin` runs them on fuel. `Resolves` says what the type of
a node is with no fuel: a node that is being typed already is `any`, and any
other has the answer of its rule, where what the rule asks for resolves with
the node among those being typed. A derivation of `Resolves` is a finite tree,
so a node that resolves is one on which the search comes to an end by itself.

The measure is the number of nodes that are not being typed. Only nodes of the
environment have rules that ask at all, so those being typed are distinct nodes
of the environment, and there are no more of them than nodes. Nothing about the
rules enters but that, which is why cyclic declarations, lambdas that depend on
the call they stand in, and expand functions whose targets mention each other
need no case of their own.

What the rules do between two questions ends by itself as well: a search for
scopes and one for parentheses go to smaller numbers, a walk over a class
hierarchy meets each name once, and all else follows the structure of types.
The super classes of a class are found without asking; `typeOf_namedType` says
that asking for them afresh would give the same.
-/

namespace Zensight

namespace Inquiry

/-- What an inquiry answers depends on the types it asks for alone. -/
theorem run_eq_of_asked {α : Type} {types types' : NodeRef → Ty} {q : Inquiry α}
    (h : ∀ n ∈ q.asked types, n ∈ q.asked types' → types' n = types n) :
    q.run types' = q.run types := by
  induction q with
  | answer a => rfl
  | ask n next ih =>
      have hn : types' n = types n := h n (by simp [asked]) (by simp [asked])
      rw [run, run, hn]
      refine ih (types n) fun m hm hm' => h m ?_ ?_
      · rw [asked]; exact List.mem_cons_of_mem _ hm
      · rw [asked, hn]; exact List.mem_cons_of_mem _ hm'

end Inquiry

namespace View

/-- The type of a node while the nodes `pending` are being typed. -/
inductive Resolves (v : View) : List NodeRef → NodeRef → Ty → Prop where
  | pending {pending : List NodeRef} {n : NodeRef} :
      n ∈ pending → Resolves v pending n .any
  | rule {pending : List NodeRef} {n : NodeRef} (types : NodeRef → Ty) :
      n ∉ pending →
      (∀ m ∈ (v.rule n).asked types, Resolves v (n :: pending) m (types m)) →
      Resolves v pending n ((v.rule n).run types)

/-- The answer of an inquiry, each node it asks for being typed afresh. -/
def Answers {α : Type} (v : View) (q : Inquiry α) (a : α) : Prop :=
  ∃ types, (∀ m ∈ q.asked types, Resolves v [] m (types m)) ∧ q.run types = a

/-- A node has one type at most. -/
theorem Resolves.unique {v : View} {pending : List NodeRef} {n : NodeRef} {t t' : Ty}
    (h : Resolves v pending n t) (h' : Resolves v pending n t') : t' = t := by
  induction h generalizing t' with
  | pending hmem =>
      cases h' with
      | pending => rfl
      | rule _ hnot => exact absurd hmem hnot
  | rule types hnot _ ih =>
      cases h' with
      | pending hmem => exact absurd hmem hnot
      | rule types' _ hasked' =>
          exact Inquiry.run_eq_of_asked fun m hm hm' => ih m hm (hasked' m hm')

theorem Answers.unique {α : Type} {v : View} {q : Inquiry α} {a a' : α}
    (h : Answers v q a) (h' : Answers v q a') : a' = a := by
  obtain ⟨types, hasked, rfl⟩ := h
  obtain ⟨types', hasked', rfl⟩ := h'
  exact Inquiry.run_eq_of_asked fun m hm hm' => (hasked m hm).unique (hasked' m hm')

/-! ## The fuel is enough -/

/-- The rule of what is no node asks for nothing. -/
theorem rule_of_not_mem {v : View} {n : NodeRef} (h : n ∉ v.env.nodes) :
    v.rule n = .answer .any := by
  have hform : (v.entry n).form = .file ∨ (v.entry n).form = .badStmt :=
    Environment.form_of_not_mem h
  rcases hform with hf | hf <;> rw [rule, hf] <;> rfl

/-- Distinct nodes are no more than there are. -/
theorem length_le_nodeCount {e : Environment} {pending : List NodeRef}
    (hnodup : pending.Nodup) (hmem : ∀ m ∈ pending, m ∈ e.nodes) :
    pending.length ≤ e.nodeCount := by
  rw [← e.length_nodes]
  exact (List.subperm_of_subset hnodup hmem).length_le

/-- Fuel for the nodes that are not being typed is enough. -/
theorem typeWithin_resolves (v : View) : ∀ (fuel : Nat) (pending : List NodeRef) (n : NodeRef),
    pending.Nodup → (∀ m ∈ pending, m ∈ v.env.nodes) →
    v.env.nodeCount < fuel + pending.length →
    Resolves v pending n (v.typeWithin fuel pending n) := by
  intro fuel
  induction fuel with
  | zero =>
      intro pending n hnodup hmem hfuel
      have hle := length_le_nodeCount hnodup hmem
      omega
  | succ fuel ih =>
      intro pending n hnodup hmem hfuel
      rw [typeWithin]
      split
      · next hin => exact .pending (List.contains_iff_mem.mp hin)
      · next hout =>
          have hnot : n ∉ pending := fun hin => hout (List.contains_iff_mem.mpr hin)
          refine .rule _ hnot fun m hm => ?_
          by_cases hn : n ∈ v.env.nodes
          · refine ih (n :: pending) m (List.nodup_cons.mpr ⟨hnot, hnodup⟩) ?_ ?_
            · intro k hk
              rcases List.mem_cons.mp hk with rfl | hk
              · exact hn
              · exact hmem k hk
            · rw [List.length_cons]; omega
          · rw [rule_of_not_mem hn] at hm
            cases hm

theorem typeOf_resolves (v : View) (n : NodeRef) : Resolves v [] n (v.typeOf n) :=
  typeWithin_resolves v _ [] n List.nodup_nil (fun m hm => by cases hm)
    (by rw [List.length_nil]; omega)

/-- A node has exactly one type, the one it is said to have. -/
theorem resolves_iff (v : View) (n : NodeRef) (t : Ty) :
    Resolves v [] n t ↔ t = v.typeOf n :=
  ⟨(typeOf_resolves v n).unique, fun h => h ▸ typeOf_resolves v n⟩

/-- Every inquiry has exactly one answer, whatever it asks for. -/
theorem answers_iff {α : Type} (v : View) (q : Inquiry α) (a : α) :
    Answers v q a ↔ a = v.answer q := by
  have h : Answers v q (v.answer q) := ⟨v.typeOf, fun m _ => typeOf_resolves v m, rfl⟩
  exact ⟨h.unique, fun ha => ha ▸ h⟩

/-! ## Searches that need no answers -/

/-- The expression around the parentheses of a node, and what it is a part of,
found with no bound on the number of parentheses. -/
inductive OutsideParens (v : View) : NodeRef → NodeRef × Option NodeRef → Prop where
  | root {n : NodeRef} : v.parent? n = none → OutsideParens v n (n, none)
  | plain {n p : NodeRef} :
      v.parent? n = some p → (v.entry p).form ≠ .parenExpr → OutsideParens v n (n, some p)
  | paren {n p : NodeRef} {out : NodeRef × Option NodeRef} :
      v.parent? n = some p → (v.entry p).form = .parenExpr → OutsideParens v p out →
      OutsideParens v n out

theorem parent?_lt {v : View} (h : ∀ id, (v.script id).bindings.skeleton.Ordered)
    {n p : NodeRef} (hp : v.parent? n = some p) : p.node < n.node := by
  unfold parent? at hp
  obtain ⟨id, hid, rfl⟩ := Option.map_eq_some_iff.mp hp
  exact Script.parent?_lt (h n.script) hid

theorem outsideParens_spec {v : View} (h : ∀ id, (v.script id).bindings.skeleton.Ordered) :
    ∀ (fuel : Nat) (n : NodeRef), n.node ≤ fuel →
      OutsideParens v n (v.outsideParens fuel n) := by
  intro fuel
  induction fuel with
  | zero =>
      intro n hn
      rw [outsideParens]
      cases hp : v.parent? n with
      | none => exact .root hp
      | some p => exact absurd (Nat.lt_of_lt_of_le (parent?_lt h hp) hn) (Nat.not_lt_zero _)
  | succ fuel ih =>
      intro n hn
      rw [outsideParens]
      split
      · next hp => exact .root hp
      · next p hp =>
          have hlt := Nat.lt_of_lt_of_le (parent?_lt h hp) hn
          split
          · next hform => exact .paren hp hform (ih p (Nat.le_of_lt_succ hlt))
          · next hform => exact .plain hp hform

end View

namespace Environment

/-- An import that a name stands for is an import of the same script. -/
theorem form_of_namedTarget_imported {s : Script} {id : ScriptId} {r : Registry}
    {n decl : NodeId} {segments : List Text} {c : ClassType}
    (h : s.namedTarget id r n segments = .imported decl c) :
    ∃ path, s.form decl = .importDecl path := by
  unfold Script.namedTarget at h
  split at h
  · cases h
  · split at h
    · next target htarget =>
        subst h
        unfold Script.classInScope? at htarget
        split at htarget
        · split at htarget
          · obtain ⟨_, _, h⟩ := Option.map_eq_some_iff.mp htarget
            cases h
          · split at htarget
            · next path hpath =>
                injection htarget with htarget
                injection htarget with hdecl
                exact ⟨path, hdecl ▸ hpath⟩
            · cases htarget
          · cases htarget
        · cases htarget
    · split at h <;> cases h
  · cases h

/-- What a name written as a type stands for, asked for afresh in its own
script, is what is found without asking. -/
theorem typeOf_namedType {e : Environment} {id : ScriptId} {n : NodeId}
    {segments : List Text} (hform : (e.script id).form n = .namedType segments) :
    (View.ofScript e id).typeOf ⟨id, n⟩ =
      ((e.script id).namedTarget id (e.registryOf id) n segments).type
        (e.ownImportType id) := by
  refine ((View.resolves_iff _ _ _).mp ?_).symm
  have hrule : (View.ofScript e id).rule ⟨id, n⟩ =
      (View.ofScript e id).namedType ⟨id, n⟩ segments := by
    have hentry : ((View.ofScript e id).entry ⟨id, n⟩).form = .namedType segments := hform
    rw [View.rule, hentry]
  -- Only an import is asked for, and the rule of an import asks for nothing.
  have himport : ∀ decl path, (e.script id).form decl = .importDecl path →
      View.Resolves (View.ofScript e id) [⟨id, n⟩] ⟨id, decl⟩ (e.ownImportType id decl) := by
    intro decl path hpath
    have hne : (⟨id, decl⟩ : NodeRef) ∉ [(⟨id, n⟩ : NodeRef)] := by
      intro hmem
      have heq : decl = n := by simpa using hmem
      rw [heq, hform] at hpath
      cases hpath
    have hown : e.ownImportType id decl = (e.registryOf id).importType path := by
      rw [ownImportType, hpath]
    have hdecl : (View.ofScript e id).rule ⟨id, decl⟩ =
        .answer ((e.registryOf id).importType path) := by
      have hentry : ((View.ofScript e id).entry ⟨id, decl⟩).form = .importDecl path := hpath
      rw [View.rule, hentry]
      rfl
    have h := View.Resolves.rule (v := View.ofScript e id) (fun _ => .any) hne
      (by rw [hdecl]; intro m hm; cases hm)
    rw [hdecl] at h
    rw [hown]
    exact h
  have hres := @View.Resolves.rule (View.ofScript e id) [] ⟨id, n⟩
    (fun m => e.ownImportType id m.node) (by simp)
  rw [hrule] at hres
  unfold View.namedType at hres
  cases htarget : (e.script id).namedTarget id (e.registryOf id) n segments with
  | settled t =>
      have hview : ((View.ofScript e id).script id).namedTarget id
          (View.ofScript e id).registry n segments = .settled t := htarget
      simp only [hview] at hres
      exact hres (by intro m hm; cases hm)
  | imported decl c =>
      obtain ⟨path, hpath⟩ := form_of_namedTarget_imported htarget
      have hview : ((View.ofScript e id).script id).namedTarget id
          (View.ofScript e id).registry n segments = .imported decl c := htarget
      simp only [hview] at hres
      refine hres fun m hm => ?_
      obtain rfl : m = ⟨id, decl⟩ := by simpa [bind, Inquiry.bind, Inquiry.typeOf,
        Inquiry.asked, pure] using hm
      exact himport decl path hpath

/-- The class that a named type stands for to those that extend it is the one
that it resolves to, asked for afresh. -/
theorem namedClass?_eq_typeOf {e : Environment} {id : ScriptId} {n : NodeId}
    {segments : List Text} (hform : (e.script id).form n = .namedType segments) :
    e.namedClass? id n =
      match (View.ofScript e id).typeOf ⟨id, n⟩ with
      | .classType c => some c
      | _ => none := by
  rw [typeOf_namedType hform, namedClass?]
  split
  next other hother =>
    cases hform.symm.trans hother
    rfl
  next hne => exact absurd hform (hne segments)

theorem Reachable.ordered {e : Environment} (h : e.Reachable) (id : ScriptId) :
    (e.script id).bindings.skeleton.Ordered := by
  obtain ⟨path, package, source, hs⟩ := h.script_parsed id
  rw [hs]
  exact Script.parse_ordered path package source

/-- In every environment that comes about, each node of each script resolves to
exactly one type and each type has exactly one list of members, both found by
searches that end by themselves: those for types; the walks over class
hierarchies, whose edges are what names resolve to afresh; and those for the
scopes and the parentheses around a node. -/
theorem resolution_total {e : Environment} (h : e.Reachable) :
    (∀ path id, e.unit? path = some id → ∀ n < (e.script id).size, ∀ t,
      View.Resolves e.view [] ⟨id, n⟩ t ↔ t = e.view.typeOf ⟨id, n⟩) ∧
    (∀ t members, View.Answers e.view (e.view.membersOf t) members ↔
      members = e.view.answer (e.view.membersOf t)) ∧
    (∀ c, Hierarchy.Visits e.hierarchy [] [c] (e.hierarchy.lineage c)) ∧
    (∀ id n segments, (e.script id).form n = .namedType segments →
      ∃ t, View.Resolves (View.ofScript e id) [] ⟨id, n⟩ t ∧
        e.namedClass? id n = match t with | .classType c => some c | _ => none) ∧
    (∀ id n, Script.Enclosed (e.script id) ((e.script id).scopeAt n)
      ((e.script id).scopesAround n)) ∧
    (∀ n, View.OutsideParens e.view n (e.view.outsideParens n.node n)) := by
  refine ⟨fun _ id _ n _ t => e.view.resolves_iff ⟨id, n⟩ t,
    fun t members => e.view.answers_iff _ members, e.hierarchy_visits_lineage,
    fun id n segments hform => ⟨_, View.typeOf_resolves _ _, namedClass?_eq_typeOf hform⟩,
    fun id n => Script.scopesAround_enclosed (h.ordered id) n,
    fun n => ?_⟩
  exact @View.outsideParens_spec e.view (fun id => h.ordered id) _ n (Nat.le_refl _)

/-- One script with a class that extends itself and a variable that is its own
value. -/
def selfReferring : Environment :=
  (((Environment.mk (txt "scripts") #[] #[] [] [] {}).intern
    (Script.parse (txt "a") (txt "scripts.a")
      (txt "zenClass A extends A\x7b\x7dvar x=x;"))).2).replace 0

theorem selfReferring_reachable : selfReferring.Reachable :=
  .replace (.read _ _ _ (.new _)) (by decide)

theorem selfReferring_resolution_total :
    selfReferring.Reachable ∧ selfReferring.unit? (txt "a") = some 0 ∧
      3 < (selfReferring.script 0).size ∧
      ∀ t, View.Resolves selfReferring.view [] ⟨0, 3⟩ t ↔
        t = selfReferring.view.typeOf ⟨0, 3⟩ := by
  have hunit : selfReferring.unit? (txt "a") = some 0 := by decide
  have hsize : 3 < (selfReferring.script 0).size := by decide
  exact ⟨selfReferring_reachable, hunit, hsize,
    (resolution_total selfReferring_reachable).1 _ 0 hunit 3 hsize⟩

end Environment

end Zensight
