import Mathlib.Data.List.Nodup
import Zensight.Proofs.PlainNames
import Zensight.Proofs.Reports

/-!
# Parameters that nothing refers to

The report on a script names the parameters that are not used. Whether one is used is asked of all
identifiers of the script that stand for something, and it is the parameter itself that they have
to mean: one of the same name in between takes the reference away, and a lambda or a default value
may refer to it as well as a statement (`Environment.mem_referents_iff`).
-/

namespace Zensight

/-- Functions, expand functions, operators and constructors. -/
def Form.takesParams : Form → Bool
  | funcDecl _ | expandFuncDecl | operatorDecl _ | constructorDecl => true
  | _ => false

namespace Script

variable {s : Script}

/-- The node is the name or the local name of another, the variable of a loop or the key of an
entry of a map. -/
def IsName (s : Script) (n : NodeId) : Prop :=
  ∃ p, (s.entry p).get? .name = some n ∨ (s.entry p).get? .localName = some n ∨
    n ∈ (s.entry p).all .loopVar ∨ s.form p = .mapEntry ∧ (s.entry p).get? .key = some n

/-- The node is an identifier that stands for what its name means. A name that is missing and that
of the root package stand for nothing. -/
structure Refers (s : Script) (n : NodeId) (name : Text) : Prop where
  form_eq : s.form n = .ident name
  isGiven : Rule.isPlaceholder name = false
  ne_root : name ≠ Package.root
  not_isName : ¬ s.IsName n

/-- What a report calls an executable. -/
def calledName (s : Script) (n : NodeId) : Text :=
  match s.form n with
  | .operatorDecl sign => txt "operator " ++ sign
  | .constructorDecl => constructorName
  | _ => s.partName n .name

namespace Parsed

variable (h : s.Parsed)

include h

/-- Only the node that a name is a part of can have it for a name. -/
theorem isName_iff (n : NodeId) : s.IsName n ↔ ∃ p, s.parent? n = some p ∧
    ((s.entry p).get? .name = some n ∨ (s.entry p).get? .localName = some n ∨
      n ∈ (s.entry p).all .loopVar ∨ s.form p = .mapEntry ∧ (s.entry p).get? .key = some n) := by
  have hget {p : NodeId} {role : Role} (hn : (s.entry p).get? role = some n) :
      s.parent? n = some p :=
    (h.parent?_eq_some_iff n p).mpr
      ⟨role, Entry.mem_all_iff.mp (List.mem_of_mem_head? hn)⟩
  constructor
  · rintro ⟨p, hp⟩
    refine ⟨p, ?_, hp⟩
    rcases hp with hn | hn | hn | ⟨-, hn⟩
    · exact hget hn
    · exact hget hn
    · exact (h.parent?_eq_some_iff n p).mpr ⟨_, Entry.mem_all_iff.mp hn⟩
    · exact hget hn
  · rintro ⟨p, -, hp⟩
    exact ⟨p, hp⟩

/-- A parameter has one symbol: what is declared at it. -/
theorem symbolFor?_param {o p : NodeId} (ho : (s.form o).takesParams = true)
    (hp : (Role.param, p) ∈ (s.entry o).parts) {owner : NodeId} {d : Declaration}
    (hd : s.Declares owner d) : s.symbolFor? p = some d ↔ d.node = p := by
  have hform : s.form p = .param := by
    have hcategory := h.belongsTo hp
    cases hform : s.form o <;> rw [hform] at ho hcategory <;>
      first | exact hcategory | cases ho
  constructor
  · intro hsymbol
    obtain ⟨p', r, m, hr, hm, hsymbol⟩ := h.listed_of_symbolFor? hsymbol
    have hparam : m.form = .param := (h.isOutlined.form_eq hm).symm.trans hform
    obtain ⟨form, span, parts⟩ := m
    cases hparam
    exact Node.declaration?_node
      (show (Node.mk .param span parts).declaration? s.package r p = some d from hsymbol)
  · rintro rfl
    cases hd with
    | node _ hr hm hdeclared =>
        obtain rfl := Node.declaration?_node hdeclared
        rw [h.symbolFor?_eq hr hm]
        exact Node.symbol?_of_declaration? hdeclared
    | this hm hthis =>
        obtain ⟨-, rfl, hclass⟩ := Node.this?_eq_some hthis
        rw [← h.isOutlined.form_eq hm, hform] at hclass
        simp at hclass

end Parsed

end Script

namespace Environment

variable {e : Environment}

section References

variable (he : e.Reachable)

include he

theorem Reachable.declares_of_lookup? {n : NodeRef} {name : Text} {id : ScriptId}
    {d : Declaration} (h : e.view.lookup? n name = some (.declared id d)) :
    ∃ o, (e.script id).Declares o d := by
  rw [View.lookup?, Script.resolve?] at h
  split at h
  · next hd =>
      cases h
      have hs : (e.script n.script).Parsed := he.script_parsed n.script
      exact hs.declares_of_lookup? hd
  · obtain ⟨_, o, _, heq, hd, -⟩ := he.exists_of_global? h
    cases heq
    exact ⟨o, hd⟩

/-- Whether an identifier is a name is asked of the node right above it. -/
theorem Reachable.isNaming_iff (id : ScriptId) (n : NodeId) :
    Lint.isNaming e.view ⟨id, n⟩ = true ↔ (e.script id).IsName n := by
  have hs : (e.script id).Parsed := he.script_parsed id
  have hpart (p : NodeId) (role : Role) :
      (e.view.part? ⟨id, p⟩ role == some ⟨id, n⟩) = true ↔
        ((e.script id).entry p).get? role = some n := by
    rw [beq_iff_eq, View.part?, Option.map_eq_some_iff]
    simp [View.entry, View.script, Environment.view, View.ofEnvironment]
  have hloop (p : NodeId) : (e.view.partsOf ⟨id, p⟩ .loopVar).contains ⟨id, n⟩ = true ↔
      n ∈ ((e.script id).entry p).all .loopVar := by
    rw [List.contains_iff_mem, View.partsOf, List.mem_map]
    simp [View.entry, View.script, Environment.view, View.ofEnvironment]
  have hparent : e.view.parent? ⟨id, n⟩ = ((e.script id).parent? n).map fun p => ⟨id, p⟩ := rfl
  rw [hs.isName_iff, Lint.isNaming, hparent]
  cases (e.script id).parent? n with
  | none => simp
  | some p =>
      simp only [Option.map_some, Bool.or_eq_true, Bool.and_eq_true, hpart, hloop, or_assoc]
      simp [View.entry, View.script, Environment.view, View.ofEnvironment, Script.form]

theorem Reachable.reference?_iff (id : ScriptId) (n : NodeId) (name : Text) :
    Lint.reference? e.view ⟨id, n⟩ = some name ↔ (e.script id).Refers n name := by
  have hnaming := he.isNaming_iff id n
  rw [Lint.reference?]
  constructor
  · intro hreference
    split at hreference
    · next name' hform =>
        split at hreference
        · next hrefers =>
            cases hreference
            simp only [Lint.isReference, Bool.and_eq_true, Bool.not_eq_true', bne_iff_ne] at hrefers
            exact ⟨hform, hrefers.1.1, hrefers.1.2, by simp [← hnaming, hrefers.2]⟩
        · cases hreference
    · cases hreference
  · intro hrefers
    have hform : (e.view.entry ⟨id, n⟩).form = .ident name := hrefers.form_eq
    have hfree : Lint.isNaming e.view ⟨id, n⟩ = false := by
      simpa [← hnaming] using hrefers.not_isName
    simp [hform, Lint.isReference, hrefers.isGiven, hrefers.ne_root, hfree]

/-- The nodes referred to are those that declare what the references mean. -/
theorem Reachable.mem_referents_iff (id : ScriptId) (p : NodeId) :
    ⟨id, p⟩ ∈ e.referents id ↔ ∃ n name o d, (e.script id).Refers n name ∧
      e.view.lookup? ⟨id, n⟩ name = some (.declared id d) ∧ (e.script id).Declares o d ∧
      d.node = p := by
  rw [referents, List.mem_filterMap]
  constructor
  · rintro ⟨_, hn, hreferent⟩
    obtain ⟨n, -, rfl⟩ := List.mem_map.mp hn
    obtain ⟨name, hname, hreferent⟩ := Option.bind_eq_some_iff.mp hreferent
    obtain ⟨symbol, hsymbol, hreferent⟩ := Option.bind_eq_some_iff.mp hreferent
    cases symbol with
    | stated => cases hreferent
    | declared script d =>
        obtain ⟨rfl, rfl⟩ : script = id ∧ d.node = p := by simpa using hreferent
        obtain ⟨o, hdeclares⟩ := he.declares_of_lookup? hsymbol
        exact ⟨n, name, o, d, (he.reference?_iff script n name).mp hname, hsymbol, hdeclares, rfl⟩
  · rintro ⟨n, name, o, d, hrefers, hlookup, -, rfl⟩
    have hn : n < (e.script id).size := by
      by_contra hn
      have hform := hrefers.form_eq
      rw [Script.form, Script.entry, Array.getElem?_eq_none (Nat.le_of_not_lt hn)] at hform
      cases hform
    refine ⟨⟨id, n⟩, List.mem_map_of_mem (List.mem_range.mpr hn), ?_⟩
    rw [Lint.referent?, (he.reference?_iff id n name).mpr hrefers]
    simp only [bind, Option.bind, hlookup]

end References

/-- The parameter of an executable whose body has a statement, which no reference in the script
means. -/
structure Unused (e : Environment) (id : ScriptId) (owner p : NodeId) : Prop where
  executable : ((e.script id).form owner).takesParams = true
  param : (Role.param, p) ∈ ((e.script id).entry owner).parts
  body : ∃ body statement, ((e.script id).entry owner).get? .body = some body ∧
    (Role.statement, statement) ∈ ((e.script id).entry body).parts
  unread : ∀ n name d, (e.script id).Refers n name →
    e.view.lookup? ⟨id, n⟩ name = some (.declared id d) → (e.script id).symbolFor? p ≠ some d

/-- What the report says about it. -/
def unusedNotice (e : Environment) (id : ScriptId) (owner p : NodeId) : Diagnostic where
  severity := .warning
  code := txt "unused-parameter"
  message := txt "parameter '" ++ (e.script id).partName p .name ++ txt "' in '"
    ++ (e.script id).calledName owner ++ txt "' is never used"
  line := ((e.script id).entry p).span.start.line
  column := ((e.script id).entry p).span.start.column
  file := (e.script id).path

/-- The parameters of a node that the check finds. -/
def unusedOf (e : Environment) (id : ScriptId) (o : NodeId) : List NodeId :=
  if ((e.script id).form o).takesParams = true ∧
      0 < (Lint.bodyStatements? e.view ⟨id, o⟩).getD 0 then
    (((e.script id).entry o).all .param).filter fun p => !(e.referents id).contains ⟨id, p⟩
  else []

theorem executableName?_eq (id : ScriptId) (o : NodeId) :
    Lint.executableName? e.view ⟨id, o⟩ = if ((e.script id).form o).takesParams then
      some ((e.script id).calledName o) else none := by
  have hform : (e.view.entry ⟨id, o⟩).form = (e.script id).form o := rfl
  rw [Lint.executableName?, Script.calledName, hform]
  cases (e.script id).form o <;> rfl

theorem map_unusedOf (id : ScriptId) (o : NodeId) :
    (Lint.check e.view ⟨id, o⟩ (e.referents id) .unusedParameter).map
      (·.diagnostic (e.script id).path) = (e.unusedOf id o).map (e.unusedNotice id o) := by
  rw [Lint.check, Lint.unusedParameters, unusedOf, executableName?_eq]
  by_cases hform : ((e.script id).form o).takesParams = true
  · rw [if_pos hform]
    rcases hbody : Lint.bodyStatements? e.view ⟨id, o⟩ with _ | _ | k
    · simp
    · simp
    · have hparts : e.view.partsOf ⟨id, o⟩ .param =
          (((e.script id).entry o).all .param).map fun p => ⟨id, p⟩ := rfl
      rw [if_pos ⟨hform, Nat.succ_pos k⟩]
      simp only [hparts, List.filter_map, List.map_map]
      rfl
  · rw [if_neg hform, if_neg fun h => hform h.1]
    rfl

theorem bodyStatements?_pos_iff (id : ScriptId) (o : NodeId) :
    0 < (Lint.bodyStatements? e.view ⟨id, o⟩).getD 0 ↔
      ∃ body statement, ((e.script id).entry o).get? .body = some body ∧
        (Role.statement, statement) ∈ ((e.script id).entry body).parts := by
  rw [Lint.bodyStatements?, View.part?]
  change 0 < (((((e.script id).entry o).get? .body).map _).map _).getD 0 ↔ _
  cases ((e.script id).entry o).get? .body with
  | none => simp
  | some body =>
      simp [View.partsOf, List.length_pos_iff_exists_mem, ← Entry.mem_all_iff]
      rfl

theorem Reachable.mem_unusedOf_iff (he : e.Reachable) (id : ScriptId) (o p : NodeId) :
    p ∈ e.unusedOf id o ↔ e.Unused id o p := by
  have hs : (e.script id).Parsed := he.script_parsed id
  have hbody := bodyStatements?_pos_iff (e := e) id o
  have hunread (ho : ((e.script id).form o).takesParams = true)
      (hp : (Role.param, p) ∈ ((e.script id).entry o).parts) :
      ⟨id, p⟩ ∉ e.referents id ↔ ∀ n name d, (e.script id).Refers n name →
        e.view.lookup? ⟨id, n⟩ name = some (.declared id d) →
        (e.script id).symbolFor? p ≠ some d := by
    rw [he.mem_referents_iff]
    constructor
    · intro hnot n name d hrefers hlookup hsymbol
      obtain ⟨owner, hd⟩ := he.declares_of_lookup? hlookup
      exact hnot ⟨n, name, owner, d, hrefers, hlookup, hd, (hs.symbolFor?_param ho hp hd).mp hsymbol⟩
    · rintro hall ⟨n, name, owner, d, hrefers, hlookup, hd, hnode⟩
      exact hall n name d hrefers hlookup ((hs.symbolFor?_param ho hp hd).mpr hnode)
  rw [unusedOf]
  constructor
  · intro hp
    split at hp
    · next h =>
        obtain ⟨hp, hnot⟩ := List.mem_filter.mp hp
        have hp := Entry.mem_all_iff.mp hp
        exact ⟨h.1, hp, hbody.mp h.2, (hunread h.1 hp).mp (by simpa using hnot)⟩
    · cases hp
  · intro h
    rw [if_pos ⟨h.executable, hbody.mpr h.body⟩, List.mem_filter]
    exact ⟨Entry.mem_all_iff.mpr h.param, by simpa using (hunread h.executable h.param).mpr h.unread⟩

/-- The report names the parameters that are not used and no others, each once and at its place,
and all that it says is in the order of the places. -/
theorem unused_params_reported (he : e.Reachable) (id : ScriptId) :
    (∃ unused : List (NodeId × NodeId),
      (unused.map Prod.snd).Nodup ∧ (∀ owner p, (owner, p) ∈ unused ↔ e.Unused id owner p) ∧
      ((e.lint id).items.filter (·.code = txt "unused-parameter")).Perm
        (unused.map fun (owner, p) => e.unusedNotice id owner p)) ∧
    (e.lint id).items.Pairwise Diagnostic.NoLater := by
  have hs : (e.script id).Parsed := he.script_parsed id
  refine ⟨⟨(e.script id).nodes.flatMap fun o => (e.unusedOf id o).map fun p => (o, p),
    ?_, fun owner p => ?_, ?_⟩, e.sorted_lint id⟩
  · rw [List.map_flatMap, List.nodup_flatMap]
    simp only [List.map_map, Function.comp_def, List.map_id']
    refine ⟨fun o _ => ?_, ?_⟩
    · rw [unusedOf]
      split
      · exact ((hs.isOutlined.sorted_all o .param).imp Nat.ne_of_lt).filter _
      · exact List.nodup_nil
    · refine List.nodup_range.imp fun hne p hp hp' => hne ?_
      rw [he.mem_unusedOf_iff] at hp hp'
      exact (hs.listed_unique hp.param hp'.param).1
  · simp only [List.mem_flatMap, List.mem_map, Prod.mk.injEq]
    constructor
    · rintro ⟨o, -, p', hp', rfl, rfl⟩
      exact (he.mem_unusedOf_iff id o p').mp hp'
    · intro h
      obtain ⟨m, hm, -⟩ := hs.isOutlined.mem_parts_iff.mp h.param
      have howner := List.mem_range.mpr (hs.isOutlined.lt_size hm)
      exact ⟨owner, howner, p, (he.mem_unusedOf_iff id owner p).mpr h, rfl, rfl⟩
  · refine (e.lint_topic_perm id .unusedParameter).trans (List.Perm.of_eq ?_)
    rw [List.map_flatMap, List.map_flatMap]
    simp only [map_unusedOf, List.map_map]
    rfl

/-- A function of which the first parameter is used by a default value and the third by a lambda,
while a variable takes the name of the second and the last is only the key of a map. -/
def shadowedParams : Environment :=
  ((({ root := txt "scripts" } : Environment).intern
    (Script.parse (txt "a") (txt "scripts.a")
      (txt "function f(a,b,c=a,d)\x7bvar b=1;var m=\x7bd:b\x7d;" ++
        txt "return function()\x7breturn c;\x7d;\x7d"))).2).replace 0

theorem shadowedParams_reported :
    shadowedParams.Reachable ∧ ∃ unused : List (NodeId × NodeId), (unused.map Prod.snd).Nodup ∧
      (∀ p, (1, p) ∈ unused ↔ p ∈ [5, 10]) ∧
      ((shadowedParams.lint 0).items.filter (·.code = txt "unused-parameter")).Perm
        (unused.map fun (owner, p) => shadowedParams.unusedNotice 0 owner p) := by
  have he : shadowedParams.Reachable := .replace (.read _ _ _ (.new _)) (by decide)
  have hfound : shadowedParams.unusedOf 0 1 = [5, 10] := by decide +kernel
  obtain ⟨⟨unused, hnodup, hunused, hperm⟩, -⟩ := unused_params_reported he 0
  refine ⟨he, unused, hnodup, fun p => ?_, hperm⟩
  rw [hunused, ← he.mem_unusedOf_iff, hfound]

end Environment

end Zensight
