import Mathlib.Data.List.Perm.Basic
import Zensight.Proofs.Tables

/-!
# What the walk over a tree warns about

A declaration finds its name taken if another one with that name has been entered into the scope
before it. Executables may share a name; about all other such declarations there is a warning, and
about nothing else. The scopes are filled in turns as the walk goes up and down, so the warnings do
not come in the order of the scopes, but at every step there is one for each declaration that is
repeated in some scope so far (`Bindings.Warned`).
-/

namespace Zensight

/-! ## Repeated declarations -/

/-- Of some declarations those that come behind another one with their name, without those that may
share it. The names in `taken` come before them all. -/
def repeated (taken : List Text) : List Declaration → List Declaration
  | [] => []
  | d :: ds =>
    (if taken.contains d.name && !d.kind.isExecutable then [d] else []) ++
      repeated (d.name :: taken) ds

theorem repeated_concat (taken : List Text) (ds : List Declaration) (d : Declaration) :
    repeated taken (ds ++ [d]) = repeated taken ds ++
      if (taken.contains d.name || ds.any (·.name == d.name)) && !d.kind.isExecutable then [d]
      else [] := by
  induction ds generalizing taken with
  | nil => simp [repeated]
  | cons x ds ih =>
      rw [List.cons_append, repeated, ih, repeated, List.append_assoc, List.contains_cons,
        List.any_cons, BEq.comm (a := d.name)]
      congr 5
      rw [Bool.or_comm (x.name == d.name), Bool.or_assoc]

/-- A repeated declaration has another one before it. -/
theorem mem_repeated_iff {taken : List Text} {ds : List Declaration} {d : Declaration} :
    d ∈ repeated taken ds ↔ d.kind.isExecutable = false ∧
      (d ∈ ds ∧ d.name ∈ taken ∨ ∃ d', [d', d].Sublist ds ∧ d'.name = d.name) := by
  induction ds generalizing taken with
  | nil => simp [repeated]
  | cons x ds ih =>
      have hpair : ∀ d', [d', d].Sublist (x :: ds) ↔ [d', d].Sublist ds ∨ d' = x ∧ d ∈ ds := by
        intro d'
        rw [List.sublist_cons_iff]
        simp
      rw [repeated, List.mem_append, ih]
      simp only [hpair, List.mem_cons]
      constructor
      · rintro (hx | ⟨hkind, ⟨hd, hname | hname⟩ | ⟨d', hsub, hname⟩⟩)
        · split at hx
          · next htaken =>
              obtain rfl := List.mem_singleton.mp hx
              simp only [Bool.and_eq_true, List.contains_iff_mem, Bool.not_eq_true'] at htaken
              exact ⟨htaken.2, .inl ⟨.inl rfl, htaken.1⟩⟩
          · cases hx
        · exact ⟨hkind, .inr ⟨x, .inr ⟨rfl, hd⟩, hname.symm⟩⟩
        · exact ⟨hkind, .inl ⟨.inr hd, hname⟩⟩
        · exact ⟨hkind, .inr ⟨d', .inl hsub, hname⟩⟩
      · rintro ⟨hkind, ⟨rfl | hd, hname⟩ | ⟨d', hsub | ⟨rfl, hd⟩, hname⟩⟩
        · exact .inl (by simp [hkind, hname])
        · exact .inr ⟨hkind, .inl ⟨hd, .inr hname⟩⟩
        · exact .inr ⟨hkind, .inr ⟨d', hsub, hname⟩⟩
        · exact .inr ⟨hkind, .inl ⟨hd, .inl hname.symm⟩⟩

/-! ## One warning for each -/

/-- What is said about a declaration whose name is taken. -/
def Declaration.notice (d : Declaration) : Text :=
  d.name.quote ++ txt " is already declared in this scope"

namespace Bindings

/-- The declarations that are repeated in their scopes. -/
def repeated (b : Bindings) : List Declaration :=
  b.scopes.toList.flatMap fun scope => Zensight.repeated [] scope.symbols

/-- Since `start` there is one warning for each repeated declaration. -/
structure Warned (start : Report) (b : Bindings) : Prop where
  file_eq : b.report.file = start.file
  indexed : ∀ (i : Nat) (scope : Scope), b.scopes[i]? = some scope → scope.Indexed
  warnings : ∃ warnings, b.report.items = start.items ++ warnings ∧
    (∀ w ∈ warnings, w.severity = .warning ∧ w.file = start.file) ∧
    (warnings.map (·.message)).Perm (b.repeated.map Declaration.notice)

theorem repeated_enter {b : Bindings} {i : Nat} {scope : Scope} (hs : b.scopes[i]? = some scope)
    (d : Declaration) : (b.enter i d).repeated.Perm (b.repeated ++
      if scope.symbols.any (·.name == d.name) && !d.kind.isExecutable then [d] else []) := by
  obtain ⟨hi, hscope⟩ := Array.getElem?_eq_some_iff.mp hs
  obtain ⟨before, s, after, hsplit, hlength, hmodified⟩ :=
    List.exists_of_modify (·.define d) (Array.length_toList ▸ hi)
  obtain rfl : s = scope := by
    rw [← hscope, ← Array.getElem_toList hi]
    simp [hsplit, ← hlength]
  rw [repeated, repeated, enter, Array.toList_modify, hmodified, hsplit]
  simp only [List.flatMap_append, List.flatMap_cons, Scope.define, repeated_concat,
    List.contains_nil, Bool.false_or, List.append_assoc]
  exact (List.perm_append_comm.append_left _).append_left _

namespace Warned

variable {start : Report} {b b' : Bindings} (h : b.Warned start)

include h

/-- Scopes and the report are all that matters. -/
theorem congr (hscopes : b'.scopes = b.scopes) (hreport : b'.report = b.report) :
    b'.Warned start := by
  obtain ⟨hfile, hindexed, hwarnings⟩ := h
  rw [← hscopes] at hindexed
  rw [← hreport] at hfile hwarnings
  refine ⟨hfile, hindexed, ?_⟩
  rwa [repeated, hscopes]

/-- A step that enters a declaration, and warns if it finds the name taken. -/
theorem entered {i : Nat} {scope : Scope} (hs : b.scopes[i]? = some scope) {d : Declaration}
    (hscopes : b'.scopes = (b.enter i d).scopes) (p : Place)
    (hreport : b'.report = if scope.declares d.name && !d.kind.isExecutable then
      b.report.addWarning p.line p.column d.notice else b.report) : b'.Warned start := by
  have htaken : scope.declares d.name = scope.symbols.any (·.name == d.name) := by
    rw [Scope.declares, h.indexed i scope hs, List.findIdx?_isSome]
  have hperm := (repeated_enter hs d).map Declaration.notice
  rw [repeated, ← hscopes, ← repeated, ← htaken, List.map_append] at hperm
  obtain ⟨hfile, hindexed, warnings, hitems, hsort, hmessages⟩ := h
  refine ⟨?_, fun j s hj => ?_, ?_⟩
  · rw [hreport]
    split <;> exact hfile
  · rw [hscopes, enter, Array.getElem?_modify] at hj
    split at hj
    · obtain ⟨old, hold, rfl⟩ := Option.map_eq_some_iff.mp hj
      exact (hindexed _ old hold).define d
    · exact hindexed j s hj
  · rw [hreport]
    split at hperm
    · next hwarned =>
        rw [if_pos hwarned]
        refine ⟨warnings ++ [⟨.warning, [], d.notice, p.line, p.column, start.file, []⟩],
          ?_, ?_, ?_⟩
        · simp [Report.addWarning, Report.add, hitems, hfile]
        · rw [List.forall_mem_append]
          exact ⟨hsort, by simp⟩
        · rw [List.map_append]
          exact (hmessages.append_right _).trans hperm.symm
    · next hquiet =>
        rw [if_neg hquiet]
        rw [List.map_nil, List.append_nil] at hperm
        exact ⟨warnings, hitems, hsort, hmessages.trans hperm.symm⟩

theorem declare (i : ScopeId) (d : Declaration) (p : Place) : (b.declare i d p).Warned start := by
  cases hs : b.scopes[i]? with
  | none =>
      -- There is no such scope, so nothing is entered and no name is taken.
      have hsame : b.scopes.modify i (·.define d) = b.scopes := by
        rw [← Array.toList_inj, Array.toList_modify, List.modify_eq_self]
        simpa using Array.getElem?_eq_none_iff.mp hs
      simp only [Bindings.declare, isTaken, hs, Option.any_none, Bool.false_and]
      exact h.congr hsame rfl
  | some scope =>
      refine h.entered (d := d) hs ?_ p ?_ <;>
        simp only [Bindings.declare, isTaken, hs, Option.any_some]
      all_goals split <;> rfl

theorem declareNode (role : Role) (id : NodeId) (i : ScopeId) (form : Form) (p : Place)
    (parts : Parts) : (b.declareNode role id i form p parts).Warned start := by
  cases form with
  | importDecl _ | varDecl _ | param | funcDecl _ | operatorDecl _ => exact h.declare _ _ _
  | classDecl =>
      rw [Bindings.declareNode, declareClass]
      dsimp only
      split
      · exact (h.declare _ _ _).congr rfl rfl
      · exact h.declare _ _ _
  | constructorDecl =>
      rw [Bindings.declareNode, declareConstructor]
      split <;> exact h.congr rfl rfl
  | expandFuncDecl => exact h.congr rfl rfl
  | ident name =>
      rw [Bindings.declareNode]
      split
      · exact h.declare _ _ _
      · exact h
  | _ => exact h

theorem openScope (owner : NodeId) (parent : Option ScopeId) :
    (b.openScope owner parent).Warned start := by
  obtain ⟨hfile, hindexed, hwarnings⟩ := h
  refine ⟨hfile, fun i s hi => ?_, ?_⟩
  · rw [Bindings.openScope, Array.getElem?_push] at hi
    split at hi
    · cases hi
      exact fun _ => rfl
    · exact hindexed i s hi
  · simpa [repeated, Bindings.openScope, Zensight.repeated] using hwarnings

/-- The `this` of a scope that was just opened finds nothing there. -/
theorem openThis (id : NodeId) (parent : Option ScopeId) (form : Form) (parts : Parts) :
    ((b.openScope id parent).declareThis id b.nextScope form parts).Warned start := by
  have hopened := h.openScope id parent
  have henter (d : Declaration) : ((b.openScope id parent).enter b.nextScope d).Warned start :=
    have hs : (b.openScope id parent).scopes[b.nextScope]? =
        some { id := b.nextScope, parent, owner := id } := by simp [Bindings.openScope, nextScope]
    hopened.entered hs rfl .start rfl
  cases form with
  | classDecl => exact henter _
  | expandFuncDecl =>
      rw [declareThis]
      dsimp only
      split
      · exact henter _
      · exact hopened
  | _ => exact hopened

end Warned

/-- The warnings about a tree are those about its repeated declarations. -/
theorem ofTree_warned (tree : Node) (package : Text) (report : Report) :
    (ofTree tree package report).Warned report := by
  have hempty : (empty tree.size package report).Warned report :=
    ⟨rfl, fun i s hi => by simp [empty] at hi, [], (List.append_nil _).symm, by simp, by rfl⟩
  have hrecord {b : Bindings} (h : b.Warned report) (id : NodeId) (parent : Option NodeId)
      (scope : ScopeId) : (b.record id parent scope).Warned report := h.congr rfl rfl
  have hkept : Invariant (Warned report) tree.Plays :=
    ⟨fun _ h _ _ => (hrecord h ..).declareNode .., fun _ h _ => h.openThis ..,
      fun hm => Node.plays_parts hm.1⟩
  exact hkept.ofTree (hrecord (hempty.openScope 0 none) ..)

end Bindings

end Zensight
