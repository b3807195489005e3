import Zensight.Proofs.Candidates
import Zensight.Proofs.Checking
import Zensight.Proofs.Completing
import Zensight.Proofs.Declarations

/-!
# Names that are missing

Where a name is missing the reader puts a placeholder, and a declaration without a name is entered
under the placeholder like any other. Hovering, the listing of declarations and the checks leave it
out; completion and the warnings about repeated declarations do not. So a placeholder is offered
where a member of the receiver has lost its name, and it is called declared already where two
declarations of one scope have (`Environment.placeholders_offered_iff`).

Members that come with their types have names, and so has `this`: a placeholder always stands for a
declaration that the script has without its name (`Script.Nameless`), and a script without faults
has none.
-/

namespace Zensight

namespace Script

variable {s : Script}

/-- What a node of the script declares without a name. -/
structure Nameless (s : Script) (d : Declaration) : Prop where
  missing : Rule.isPlaceholder d.name = true
  declared : ∃ m role, s.tree.preorder[d.node]? = some m ∧
    m.form.symbolKind? role = some d.kind ∧ m.givenName = d.name

theorem Parsed.nameless (h : s.Parsed) {d : Declaration} (hd : s.Knows d)
    (hmissing : Rule.isPlaceholder d.name = true) : s.Nameless d := by
  obtain ⟨m, hm, hintroduces⟩ := h.exists_introduces hd
  refine ⟨hmissing, ?_⟩
  rcases hintroduces.named with hthis | ⟨hname, role, hkind⟩
  · rw [hthis] at hmissing
    cases hmissing
  · exact ⟨m, role, hm, hkind, hname.symm⟩

/-- In a script without faults all declarations have names. -/
theorem not_nameless_parse {path package source : Text} (h : source.parse.2.hasErrors = false)
    (d : Declaration) : ¬ (parse path package source).Nameless d := by
  rintro ⟨hmissing, m, role, hm, hkind, hname⟩
  have hdeclares : (m.form.symbolKind? role).isSome = true := by
    rw [hkind]
    rfl
  have hgenuine := Text.parse_givenName h (List.mem_of_getElem? hm) hdeclares
  rw [hname, hmissing] at hgenuine
  cases hgenuine

/-- A placeholder is repeated where two declarations of a scope lack their names. -/
theorem Parsed.mem_repeated_iff (h : s.Parsed) (d : Declaration) :
    d ∈ s.bindings.repeated ∧ Rule.isPlaceholder d.name = true ↔
      d.kind.isExecutable = false ∧ ∃ scope ∈ s.scopes, ∃ d', [d', d].Sublist scope.symbols ∧
        d'.name = d.name ∧ s.Nameless d' ∧ s.Nameless d := by
  have hknown {scope : Scope} {x : Declaration} (hscope : scope ∈ s.scopes)
      (hx : x ∈ scope.symbols) : s.Knows x := .inr (.inl ⟨scope, hscope, hx⟩)
  rw [Bindings.repeated, List.mem_flatMap]
  constructor
  · rintro ⟨⟨scope, hscope, hd⟩, hmissing⟩
    obtain ⟨hkind, ⟨-, hnil⟩ | ⟨d', hsub, hname⟩⟩ := Zensight.mem_repeated_iff.mp hd
    · cases hnil
    · have hscope : scope ∈ s.scopes := Array.mem_toList_iff.mp hscope
      exact ⟨hkind, scope, hscope, d', hsub, hname,
        h.nameless (hknown hscope (hsub.subset (by simp))) (hname ▸ hmissing),
        h.nameless (hknown hscope (hsub.subset (by simp))) hmissing⟩
  · rintro ⟨hkind, scope, hscope, d', hsub, hname, -, hd⟩
    exact ⟨⟨scope, Array.mem_toList_iff.mpr hscope,
      Zensight.mem_repeated_iff.mpr ⟨hkind, .inr ⟨d', hsub, hname⟩⟩⟩, hd.missing⟩

end Script

namespace Environment

variable {e : Environment}

/-- A member without a name is declared without one. -/
theorem Reachable.nameless_of_accessible (he : e.Reachable) {type : Ty} {m : Symbol}
    (hm : m ∈ e.accessible type) (hmissing : Rule.isPlaceholder m.name = true) :
    ∃ id d, m = .declared id d ∧ (e.script id).Nameless d := by
  have hoffers : e.Offers m :=
    (View.plain_view he).membersOf_offered type _ m (List.mem_filter.mp hm).1
  cases m with
  | stated s =>
      have hgenuine : Rule.isPlaceholder s.name = false := hoffers
      exact absurd (hgenuine.symm.trans hmissing) (by simp)
  | declared id d =>
      have hs : (e.script id).Parsed := he.script_parsed id
      exact ⟨id, d, rfl, hs.nameless hoffers hmissing⟩

/-- Placeholders come from declarations without names and from nothing else. Completing an access
offers one just if a member of the receiver has lost its name, if the placeholder begins with what
has been typed. There is one warning for each declaration that is repeated in its scope, and it is
about a placeholder just if the declaration and one before it have lost their names. Where a text
has no faults no declaration has. -/
theorem placeholders_offered_iff (he : e.Reachable) (id : ScriptId) :
    (∀ line column, ((e.script id).accessAt? line column = none →
        e.completions? id line column = none) ∧
      ∀ access, (e.script id).accessAt? line column = some access →
        ∃ cs, e.completions? id line column = some cs ∧
          ((∃ c ∈ cs, Rule.isPlaceholder c.name = true) ↔ ∃ k d, (e.script k).Nameless d ∧
            .declared k d ∈
              e.accessible (e.view.answer (e.view.partType ⟨id, access⟩ .operand)) ∧
            (e.script id).typedName access line column <+: d.name)) ∧
    ∃ path package source warnings, e.script id = Script.parse path package source ∧
      (e.script id).report.items =
        source.parse.2.items.map (fun d => { d with file := path }) ++ warnings ∧
      (warnings.map (·.message)).Perm
        ((e.script id).bindings.repeated.map Declaration.notice) ∧
      (∀ d, d ∈ (e.script id).bindings.repeated ∧ Rule.isPlaceholder d.name = true ↔
        d.kind.isExecutable = false ∧ ∃ scope ∈ (e.script id).scopes, ∃ d',
          [d', d].Sublist scope.symbols ∧ d'.name = d.name ∧ (e.script id).Nameless d' ∧
          (e.script id).Nameless d) ∧
      (source.parse.2.hasErrors = false → ∀ d, ¬ (e.script id).Nameless d) := by
  refine ⟨fun line column => ⟨fun hnone => ?_, fun access haccess => ?_⟩, ?_⟩
  · rw [completions?_eq_map, hnone]
    rfl
  · rw [completions?_eq_map, haccess]
    refine ⟨_, rfl, ?_⟩
    simp only [List.mem_map, List.mem_filter, decide_eq_true_iff]
    constructor
    · rintro ⟨_, ⟨m, ⟨hm, htyped⟩, rfl⟩, hmissing⟩
      obtain ⟨k, d, rfl, hd⟩ := he.nameless_of_accessible hm hmissing
      exact ⟨k, d, hd, hm, htyped⟩
    · rintro ⟨k, d, hd, hm, htyped⟩
      exact ⟨_, ⟨_, ⟨hm, htyped⟩, rfl⟩, hd.missing⟩
  · have hs : (e.script id).Parsed := he.script_parsed id
    obtain ⟨path, package, source, hscript⟩ := hs
    obtain ⟨warnings, hitems, -, hmessages⟩ := Script.report_parse path package source
    rw [← hscript] at hitems hmessages
    refine ⟨path, package, source, warnings, hscript, hitems, hmessages,
      Script.Parsed.mem_repeated_iff ⟨path, package, source, hscript⟩, fun hfaultless => ?_⟩
    rw [hscript]
    exact Script.not_nameless_parse hfaultless

/-- A class whose fields and function have lost their names, and an access to an instance. -/
def namelessMembers : Environment :=
  ((({ root := txt "scripts" } : Environment).intern
    (Script.parse (txt "a") (txt "scripts.a")
      (txt "zenClass A\x7bvar;var;function();\x7d" ++ txt "val a as A;a."))).2).replace 0

theorem namelessMembers_nameless :
    namelessMembers.Reachable ∧ ∃ k d, (namelessMembers.script k).Nameless d ∧
      .declared k d ∈ namelessMembers.accessible
        (namelessMembers.view.answer (namelessMembers.view.partType ⟨0, 13⟩ .operand)) := by
  have he : namelessMembers.Reachable := .replace (.read _ _ _ (.new _)) (by decide)
  obtain ⟨haccess, hoffered⟩ : (namelessMembers.script 0).accessAt? 1 45 = some 13 ∧
      (namelessMembers.completions? 0 1 45).any (·.any (Rule.isPlaceholder ·.name)) = true := by
    decide +kernel
  obtain ⟨cs, hcs, hiff⟩ := ((placeholders_offered_iff he 0).1 1 45).2 13 haccess
  rw [hcs, Option.any_some, List.any_eq_true] at hoffered
  obtain ⟨k, d, hd, hm, -⟩ := hiff.mp hoffered
  exact ⟨he, k, d, hd, hm⟩

/-- All three members are offered under the placeholder, and the second field is said to be declared
already. -/
theorem namelessMembers_offered :
    (namelessMembers.completions? 0 1 45).map (fun cs => cs.map (·.name)) =
        some [Rule.missingName, Rule.missingName, Rule.missingName] ∧
      (namelessMembers.script 0).report.warnings.map (·.message) =
        [txt "\"<error>\" is already declared in this scope"] := by
  decide +kernel

end Environment

end Zensight
