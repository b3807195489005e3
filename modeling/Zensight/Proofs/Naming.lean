import Zensight.Proofs.ClassMembers
import Zensight.Proofs.Pending
import Zensight.Query.Declarations

/-!
# Names have the types of what they name

The rule of a name asks for one node alone, the declaration or the access that it names. That node
is typed while the name is pending, and a cyclic script may come back to the name from there. It
makes no difference: the name would ask for the node, which is pending by then, and so be `any` all
the same. In other words, a node that passes on the type of another one is silent about it
(`View.silent_of_rule`).

A description of the name and the listing of declarations also agree on how the name is spelled,
since both take it from the same part (`Script.Parsed.identName_get?`).
-/

namespace Zensight

/-! ## Nodes that pass on the type of another -/

namespace View

variable {v : View} {d x : NodeRef}

theorem silent_of_rule (h : v.rule x = Inquiry.typeOf d) : v.Silent d x := by
  intro pending t hd hx
  by_cases hin : x ∈ pending
  · exact hx.eq_any hin
  · have htold := hx.told hin
    rw [h] at htold
    exact htold.of_typeOf.eq_any (List.mem_cons_of_mem _ hd)

/-- A node whose rule is to ask for another one has its type, also if that one comes back to it. -/
theorem typeOf_eq_of_rule (h : v.rule x = Inquiry.typeOf d) : v.typeOf x = v.typeOf d := by
  by_cases hne : d = x
  · rw [hne]
  have htold := (v.typeOf_resolves x).told List.not_mem_nil
  rw [h] at htold
  have hd : Resolves v [x] d (v.typeOf d) :=
    resolves_of_silent (by simpa using hne)
      (List.forall_mem_cons.mpr ⟨silent_of_rule h, List.forall_mem_nil _⟩)
  exact hd.unique htold.of_typeOf

/-- The identifier that names what a node declares or accesses. An import has one if it gives the
class another name. -/
def nameOf? (v : View) (d : NodeRef) : Option NodeRef :=
  match (v.entry d).form with
  | .varDecl _ | .param | .funcDecl _ | .expandFuncDecl | .classDecl | .memberExpr =>
    v.part? d .name
  | .importDecl _ => v.part? d .localName
  | _ => none

theorem part?_of_nameOf? (h : v.nameOf? d = some x) :
    ∃ role, (role = .name ∨ role = .localName) ∧ v.part? d role = some x := by
  rw [nameOf?] at h
  cases hform : (v.entry d).form with
  | varDecl _ | param | funcDecl _ | expandFuncDecl | classDecl | memberExpr =>
      rw [hform] at h
      exact ⟨.name, .inl rfl, h⟩
  | importDecl _ =>
      rw [hform] at h
      exact ⟨.localName, .inr rfl, h⟩
  | _ =>
      rw [hform] at h
      cases h

theorem script_of_nameOf? (h : v.nameOf? d = some x) : x.script = d.script := by
  obtain ⟨role, -, hpart⟩ := part?_of_nameOf? h
  exact (mem_parts_of_part? hpart).1

end View

namespace View

variable {v : View} {d x : NodeRef} (hv : ∀ id, (v.script id).Parsed) (hx : v.nameOf? d = some x)

include hv hx

theorem form_of_nameOf? : ∃ w, (v.entry x).form = .ident w := by
  obtain ⟨role, hrole, hpart⟩ := part?_of_nameOf? hx
  obtain ⟨hscript, hmem⟩ := mem_parts_of_part? hpart
  obtain ⟨script, x⟩ := x
  obtain rfl : script = d.script := hscript
  exact ((hv d.script).belongsTo hmem).exists_ident hrole

theorem parent?_of_nameOf? : v.parent? x = some d := by
  obtain ⟨role, -, hpart⟩ := part?_of_nameOf? hx
  obtain ⟨hscript, hmem⟩ := mem_parts_of_part? hpart
  obtain ⟨script, x⟩ := x
  obtain rfl : script = d.script := hscript
  have hparent := ((hv d.script).parent?_eq_some_iff x d.node).mpr ⟨_, hmem⟩
  exact congrArg (Option.map fun p => (⟨d.script, p⟩ : NodeRef)) hparent

/-- A name asks for the node that has it for a name, and for nothing else. -/
theorem rule_of_nameOf? : v.rule x = Inquiry.typeOf d := by
  obtain ⟨w, hw⟩ := form_of_nameOf? hv hx
  have hnamed : v.part? d .name = some x ∨ v.part? d .localName = some x := by
    obtain ⟨role, hrole | hrole, hpart⟩ := part?_of_nameOf? hx
    · exact .inl (hrole ▸ hpart)
    · exact .inr (hrole ▸ hpart)
  rw [rule, hw]
  show v.identType x w = _
  rw [identType, parent?_of_nameOf? hv hx]
  exact if_pos hnamed

end View

/-! ## How names are spelled -/

namespace Script.Parsed

variable {s : Script} (h : s.Parsed)

include h

/-- What a part spells is the same in the outline as in the tree. -/
theorem identName_get? {n : Nat} {m : Node} (hm : s.tree.preorder[n]? = some m) (role : Role) :
    ((s.entry n).get? role).map s.identName = (m.parts.get? role).map Node.identName := by
  have hall := congrArg List.head? (h.isOutlined.getElem?_all hm role)
  rw [List.head?_map, List.head?_map] at hall
  rw [Entry.get?, Parts.get?]
  cases hnode : (m.parts.all role).head? with
  | none =>
      rw [hnode] at hall
      rw [Option.map_eq_none_iff.mp hall]
      rfl
  | some child =>
      rw [hnode] at hall
      obtain ⟨c, hc, hchild⟩ := Option.map_eq_some_iff.mp hall
      rw [hc, Option.map_some, Option.map_some, identName, h.isOutlined.form_eq hchild]
      rfl

theorem declaredName_eq {n : Nat} {m : Node} (hm : s.tree.preorder[n]? = some m) :
    m.parts.declaredName = s.partName n .name := by
  have hname := h.identName_get? hm .name
  rw [Parts.declaredName, partName]
  cases hnode : m.parts.get? .name with
  | none =>
      rw [hnode] at hname
      rw [Option.map_eq_none_iff.mp hname]
  | some child =>
      rw [hnode] at hname
      obtain ⟨c, hc, hchild⟩ := Option.map_eq_some_iff.mp hname
      rw [hc]
      exact hchild.symm

theorem importName_eq {n c : Nat} {m : Node} (hm : s.tree.preorder[n]? = some m)
    (hc : (s.entry n).get? .localName = some c) (path : List Text) :
    Form.importName path m.parts = s.identName c := by
  have hname := h.identName_get? hm .localName
  rw [hc, Option.map_some] at hname
  obtain ⟨child, hchild, hname⟩ := Option.map_eq_some_iff.mp hname.symm
  rw [Form.importName, hchild]
  exact hname

/-- What is not the file is a part of some node. -/
theorem exists_listed {n : Nat} {m : Node} (hm : s.tree.preorder[n]? = some m)
    (hform : m.form ≠ .file) : ∃ p r, (r, n) ∈ (s.entry p).parts := by
  have hpos : 0 < n := Nat.pos_of_ne_zero fun hzero =>
    hform ((h.isFile.form_eq_file_iff hm).mpr hzero)
  obtain ⟨p, r, hlists⟩ := s.tree.exists_lists hpos (h.isOutlined.size_eq ▸ h.isOutlined.lt_size hm)
  exact ⟨p, r, h.isOutlined.mem_parts_iff.mpr hlists⟩

end Script.Parsed

/-- A node with a name declares a symbol of that name, unless it is an access. -/
theorem View.exists_symbolFor? {v : View} {d x : NodeRef} (hv : ∀ id, (v.script id).Parsed)
    (hx : v.nameOf? d = some x) (hdecl : (v.entry d).form ≠ .memberExpr) :
    ∃ symbol, (v.script d.script).symbolFor? d.node = some symbol ∧
      symbol.name = (v.script d.script).identName x.node := by
  have h := hv d.script
  obtain ⟨m, hm⟩ : ∃ m, (v.script d.script).tree.preorder[d.node]? = some m := by
    obtain ⟨role, -, hpart⟩ := part?_of_nameOf? hx
    obtain ⟨m, hm, -⟩ := h.isOutlined.mem_parts_iff.mp (mem_parts_of_part? hpart).2
    exact ⟨m, hm⟩
  have hform : (v.entry d).form = m.form := h.isOutlined.form_eq hm
  rw [nameOf?, hform] at hx
  rw [hform] at hdecl
  obtain ⟨p, r, hr⟩ := h.exists_listed hm fun hfile => by
    rw [hfile] at hx
    cases hx
  rw [h.symbolFor?_eq hr hm]
  have hname : ∀ role, v.part? d role = some x →
      ((v.script d.script).entry d.node).get? role = some x.node := by
    intro role hpart
    obtain ⟨c, hc, rfl⟩ := Option.map_eq_some_iff.mp hpart
    exact hc
  obtain ⟨form, span, parts⟩ := m
  cases form with
  | varDecl _ | param | funcDecl _ | expandFuncDecl | classDecl =>
      refine ⟨_, rfl, (h.declaredName_eq hm).trans ?_⟩
      rw [Script.partName, hname _ hx]
  | importDecl path => exact ⟨_, rfl, h.importName_eq hm (hname _ hx) path⟩
  | memberExpr => exact absurd rfl hdecl
  | _ => cases hx

namespace Environment

variable {e : Environment}

/-- The listing has whatever a node of the script declares. -/
theorem Reachable.mem_declarations (he : e.Reachable) {d : NodeRef} {entry : Declared}
    (hentry : e.declared? d = some entry) : entry ∈ e.declarations d.script := by
  have h : (e.script d.script).Parsed := he.script_parsed d.script
  obtain ⟨symbol, hsymbol, -⟩ := Option.bind_eq_some_iff.mp hentry
  obtain ⟨-, -, m, -, hm, -⟩ := h.listed_of_symbolFor? hsymbol
  exact List.mem_filterMap.mpr
    ⟨d.node, List.mem_range.mpr (h.isOutlined.lt_size hm), hentry⟩

/-- A name is described by what the listing says of its declaration. -/
theorem Reachable.describe?_name (he : e.Reachable) {d x : NodeRef}
    (hx : e.view.nameOf? d = some x) (hdecl : (e.view.entry d).form ≠ .memberExpr) :
    e.describe? x =
      (e.declared? d).map fun entry => entry.name ++ txt ": " ++ entry.type.text := by
  have hv : ∀ id, (e.view.script id).Parsed := he.script_parsed
  obtain ⟨w, hw⟩ := View.form_of_nameOf? hv hx
  obtain ⟨symbol, hsymbol, hname⟩ := View.exists_symbolFor? hv hx hdecl
  have hspelled : symbol.name = w := by
    rw [hname, ← View.script_of_nameOf? hx, Script.identName]
    rw [show (e.view.script x.script).form x.node = .ident w from hw]
  have hdeclared : e.declared? d = if Rule.isPlaceholder w then none else some
      { place := (e.view.entry d).span.start, kind := symbol.kind, name := w,
        type := e.view.typeOf d } := by
    rw [declared?, show (e.script d.script).symbolFor? d.node = some symbol from hsymbol,
      ← hspelled]
    rfl
  rw [describe?, show (e.script x.script).form x.node = .ident w from hw, hdeclared,
    View.typeOf_eq_of_rule (View.rule_of_nameOf? hv hx)]
  dsimp only
  split <;> rfl

/-- A name has the type of what it names, cyclic or not. So what is said of the name where it
stands is what the listing has for its declaration; of a name that is missing neither says
anything. -/
theorem name_shows_named (he : e.Reachable) {d x : NodeRef} (hx : e.view.nameOf? d = some x) :
    (∃ w, (e.view.entry x).form = .ident w) ∧ e.view.typeOf x = e.view.typeOf d ∧
    ((e.view.entry d).form ≠ .memberExpr →
      (∀ entry, e.declared? d = some entry → entry ∈ e.declarations d.script) ∧
      ∀ line column, (e.script d.script).nodeAt line column = x.node →
        e.hover? d.script line column =
          (e.declared? d).map fun entry => entry.name ++ txt ": " ++ entry.type.text) := by
  have hv : ∀ id, (e.view.script id).Parsed := he.script_parsed
  refine ⟨View.form_of_nameOf? hv hx, View.typeOf_eq_of_rule (View.rule_of_nameOf? hv hx),
    fun hdecl => ⟨fun entry => he.mem_declarations, fun line column hat => ?_⟩⟩
  rw [hover?, hat, ← View.script_of_nameOf? hx]
  exact he.describe?_name hx hdecl

/-- A variable whose value is an access to itself, behind an import with another name. -/
def selfAccess : Environment :=
  ((({ root := txt "scripts" } : Environment).intern
    (Script.parse (txt "a") (txt "scripts.a") (txt "import p.Q as R;var a=a.b;"))).2).replace 0

theorem selfAccess_name_shows_named :
    selfAccess.Reachable ∧ selfAccess.view.nameOf? ⟨0, 1⟩ = some ⟨0, 2⟩ ∧
    selfAccess.view.nameOf? ⟨0, 3⟩ = some ⟨0, 4⟩ ∧ selfAccess.view.nameOf? ⟨0, 5⟩ = some ⟨0, 7⟩ ∧
    (selfAccess.view.entry ⟨0, 3⟩).form ≠ .memberExpr ∧ (selfAccess.script 0).nodeAt 1 21 = 4 ∧
    selfAccess.view.typeOf ⟨0, 2⟩ = selfAccess.view.typeOf ⟨0, 1⟩ ∧
    selfAccess.view.typeOf ⟨0, 7⟩ = selfAccess.view.typeOf ⟨0, 5⟩ ∧
    selfAccess.hover? 0 1 21 = some (txt "a: any") := by
  have he : selfAccess.Reachable := .replace (.read _ _ _ (.new _)) (by decide)
  obtain ⟨himport, hvar, haccess, hform, hat, hdeclared⟩ :
      selfAccess.view.nameOf? ⟨0, 1⟩ = some ⟨0, 2⟩ ∧
      selfAccess.view.nameOf? ⟨0, 3⟩ = some ⟨0, 4⟩ ∧
      selfAccess.view.nameOf? ⟨0, 5⟩ = some ⟨0, 7⟩ ∧
      (selfAccess.view.entry ⟨0, 3⟩).form ≠ .memberExpr ∧
      (selfAccess.script 0).nodeAt 1 21 = 4 ∧
      ((selfAccess.declared? ⟨0, 3⟩).map fun entry =>
        entry.name ++ txt ": " ++ entry.type.text) = some (txt "a: any") := by
    decide +kernel
  refine ⟨he, himport, hvar, haccess, hform, hat, (name_shows_named he himport).2.1,
    (name_shows_named he haccess).2.1, ?_⟩
  exact (((name_shows_named he hvar).2.2 hform).2 1 21 hat).trans hdeclared

end Environment

end Zensight
