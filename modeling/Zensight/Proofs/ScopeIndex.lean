import Zensight.Proofs.Scoping

/-!
# One name and all of its overloads are found in the same scope

A scope has its declarations in a list and the place of each name's first one in an index. A name
that stands for one thing is looked up in the index, the overloads of a name are gathered from the
list, and each search goes up the scopes by itself. They agree because the index of every scope is
about its list (`Scope.Indexed`): the scope in which one search stops is that of the other.
-/

namespace Zensight

/-! ## Within a scope -/

namespace Scope

variable {s : Scope}

/-- The index has the least place of a declaration of the name. -/
theorem Indexed.lookup_index_iff (h : s.Indexed) {name : Text} {i : Nat} :
    s.index.lookup name = some i ↔ ∃ d, s.symbols[i]? = some d ∧ d.name = name ∧
      ∀ j < i, ∀ d', s.symbols[j]? = some d' → d'.name ≠ name := by
  rw [h name, List.findIdx?_eq_some_iff_getElem]
  constructor
  · rintro ⟨hi, hname, hfirst⟩
    refine ⟨s.symbols[i], List.getElem?_eq_getElem hi, eq_of_beq hname, fun j hj d' hd' heq => ?_⟩
    obtain ⟨hlt, rfl⟩ := List.getElem?_eq_some_iff.mp hd'
    exact hfirst j hj (beq_of_eq heq)
  · rintro ⟨d, hd, hname, hfirst⟩
    obtain ⟨hi, rfl⟩ := List.getElem?_eq_some_iff.mp hd
    refine ⟨hi, beq_of_eq hname, fun j hj heq => ?_⟩
    exact hfirst j hj _ (List.getElem?_eq_getElem (Nat.lt_trans hj hi)) (eq_of_beq heq)

/-- A name is free as long as nothing is declared under it. -/
theorem Indexed.declares_eq_false_iff (h : s.Indexed) {name : Text} :
    s.declares name = false ↔ ∀ d ∈ s.symbols, d.name ≠ name := by
  rw [declares, h name, Option.isSome_eq_false_iff, Option.isNone_iff_eq_none,
    List.findIdx?_eq_none_iff]
  simp only [beq_eq_false_iff_ne]

/-- The first of the overloads is what the name stands for. -/
theorem Indexed.head?_named (h : s.Indexed) (name : Text) :
    (s.named name).head? = s.lookup name := by
  rw [named, List.head?_filter, h.lookup_eq]

theorem Indexed.named_eq_nil_iff (h : s.Indexed) {name : Text} :
    s.named name = [] ↔ s.declares name = false := by
  rw [h.declares_eq_false_iff, named, List.filter_eq_nil_iff]
  simp only [beq_iff_eq, ne_eq]

theorem indexed_new (id : ScopeId) (parent : Option ScopeId) (owner : NodeId) :
    ({ id, parent, owner } : Scope).Indexed := fun _ => rfl

end Scope

/-! ## Up the scopes -/

namespace Script

variable {s : Script}

theorem Parsed.indexed_of_mem (h : s.Parsed) {n : NodeId} {scope : Scope}
    (hscope : scope ∈ s.scopesAround n) : scope.Indexed := by
  obtain ⟨i, hi⟩ := (scopesAround_enclosed h.ordered n).exists_getElem? scope hscope
  exact h.indexed hi

/-- Both searches stop in the same scope, or neither stops. -/
theorem Parsed.searches_stop (h : s.Parsed) (n : NodeId) (name : Text) :
    (s.lookup? n name = none ∧ s.lookupAll n name = []) ∨
    ∃ inner scope outer, s.scopesAround n = inner ++ scope :: outer ∧
      (∀ t ∈ inner, t.declares name = false) ∧ scope.declares name = true ∧
      s.lookup? n name = scope.lookup name ∧ s.lookupAll n name = scope.named name := by
  have hindexed : ∀ scope ∈ s.scopesAround n, scope.Indexed := fun _ => h.indexed_of_mem
  rw [lookup?, lookupAll]
  -- The induction goes up the scopes; those that do not declare the name are passed by both.
  generalize s.scopesAround n = chain at hindexed
  induction chain with
  | nil => exact .inl ⟨rfl, rfl⟩
  | cons scope outer ih =>
      have hscope := hindexed scope List.mem_cons_self
      rw [List.findSome?_cons, List.map_cons, List.find?_cons, ← hscope.head?_named]
      cases hdeclares : scope.declares name with
      | false =>
          rw [hscope.named_eq_nil_iff.mpr hdeclares]
          rcases ih fun t ht => hindexed t (List.mem_cons_of_mem _ ht) with
            hnone | ⟨inner, found, rest, rfl, hinner, hfound, hone, hall⟩
          · exact .inl hnone
          · exact .inr ⟨scope :: inner, found, rest, rfl,
              List.forall_mem_cons.mpr ⟨hdeclares, hinner⟩, hfound, hone, hall⟩
      | true =>
          refine .inr ⟨[], scope, outer, rfl, List.forall_mem_nil _, hdeclares, ?_⟩
          cases hnamed : scope.named name with
          | nil =>
              rw [hscope.named_eq_nil_iff.mp hnamed] at hdeclares
              cases hdeclares
          | cons d ds => exact ⟨by rw [← hscope.head?_named, hnamed]; rfl, rfl⟩

/-- The index of a scope and its list are two views of what was declared. After any declarations
the list has them in order, and the index has for each name that is declared the least place of
one with that name, and nothing for others; a declaration finds its name free if and only if it
is the first with that name. So at every node of every script a name means the first of its
overloads, it means nothing if and only if it has none, and both are found in the innermost scope
that declares it. -/
theorem overloads_of_meaning :
    (∀ (id : ScopeId) (parent : Option ScopeId) (owner : NodeId) (ds : List Declaration),
      let scope := ({ id, parent, owner } : Scope).defineAll ds
      scope.symbols = ds ∧
      (∀ name i, scope.index.lookup name = some i ↔ ∃ d, ds[i]? = some d ∧ d.name = name ∧
        ∀ j < i, ∀ d', ds[j]? = some d' → d'.name ≠ name) ∧
      ∀ name, scope.declares name = false ↔ ∀ d ∈ ds, d.name ≠ name) ∧
    ∀ path package source n name,
      let s := parse path package source
      (s.lookupAll n name).head? = s.lookup? n name ∧
      (s.lookup? n name = none ↔ s.lookupAll n name = []) ∧
      ∀ d, s.lookup? n name = some d → ∃ inner scope outer,
        s.scopesAround n = inner ++ scope :: outer ∧
        (∀ t ∈ inner, t.declares name = false) ∧
        scope.lookup name = some d ∧ s.lookupAll n name = scope.named name := by
  refine ⟨fun id parent owner ds => ?_, fun path package source n name => ?_⟩
  · have hsymbols : (({ id, parent, owner } : Scope).defineAll ds).symbols = ds := by simp
    have hindexed : (({ id, parent, owner } : Scope).defineAll ds).Indexed :=
      (Scope.indexed_new id parent owner).defineAll
    refine ⟨hsymbols, fun name i => ?_, fun name => ?_⟩
    · rw [hindexed.lookup_index_iff, hsymbols]
    · rw [hindexed.declares_eq_false_iff, hsymbols]
  · have hparsed := parse_parsed path package source
    rcases hparsed.searches_stop n name with
      ⟨hone, hall⟩ | ⟨inner, scope, outer, haround, hinner, hdeclares, hone, hall⟩
    · refine ⟨by rw [hone, hall]; rfl, by simp [hone, hall], fun d hd => ?_⟩
      rw [hone] at hd
      cases hd
    · have hindexed : scope.Indexed := hparsed.indexed_of_mem (n := n) (by simp [haround])
      have hnamed : scope.named name ≠ [] := fun hnil => by
        rw [hindexed.named_eq_nil_iff.mp hnil] at hdeclares
        cases hdeclares
      refine ⟨by rw [hone, hall, hindexed.head?_named], ?_, fun d hd => ?_⟩
      · rw [hone, hall, ← hindexed.head?_named, List.head?_eq_none_iff]
      · exact ⟨inner, scope, outer, haround, hinner, hone ▸ hd, hall⟩

end Script

end Zensight
