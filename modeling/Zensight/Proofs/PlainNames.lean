import Zensight.Proofs.ClassMembers
import Zensight.Proofs.Defaults

/-!
# What plain names mean

A name that stands alone means a variable, a parameter, an import, a class or a function.
Constructors and expand functions are in no scope, so no such name finds them. An operator function
is in the scope of its class, under the name of its operator, and that is an identifier which a
script may use for something else. In the body of such a class the name then means the operator,
and what is declared outside under the same name is out of reach (`Script.Captures`).

That this is the only way to an operator is a matter of categories: an operator function is a member
of a class (`Script.Parsed.operator_of_declares`), so no other scope holds one, and it is never
global.
-/

namespace Zensight

/-! ## Which phrases stand where -/

namespace Script.Parsed

variable {s : Script} (h : s.Parsed)

include h

/-- An import is a part of the file. -/
theorem form_of_importDecl {p n : Nat} {r : Role} {path : List Text}
    (hr : (r, n) ∈ (s.entry p).parts) (hform : s.form n = .importDecl path) :
    s.form p = .file := by
  have hbelongs := h.belongsTo hr
  rw [hform] at hbelongs
  have hadmits := h.admits hr
  rw [Form.role_of_expects.1 hbelongs.eq_importing] at hadmits
  exact Form.eq_file hadmits

/-- Constructors and operator functions are members of classes. -/
theorem form_of_member {p n : Nat} {r : Role} (hr : (r, n) ∈ (s.entry p).parts)
    (hform : s.form n = .constructorDecl ∨ ∃ sign, s.form n = .operatorDecl sign) :
    r = .member ∧ s.form p = .classDecl := by
  obtain rfl : r = .member := Form.role_of_expects.2 ((h.belongsTo hr).eq_member hform)
  exact ⟨rfl, Form.eq_classDecl (h.admits hr)⟩

end Script.Parsed

/-! ## The kinds of declarations -/

/-- Is it a kind of what plain names are given to? -/
def SymbolKind.isPlain : SymbolKind → Bool
  | var | param | importing | zenClass | function => true
  | constructor | operator | expand => false

/-- What a scope holds is of such a kind, or an operator. -/
theorem Node.kind_of_declaration? {package : Text} {role : Role} {id : NodeId} {n : Node}
    {d : Declaration} (h : n.declaration? package role id = some d) :
    d.kind.isPlain = true ∨
    d.kind = .operator ∧ d.modifiers = .none ∧ ∃ sign, n.form = .operatorDecl sign ∧
      d.name = (Operator.ofSign sign (n.parts.all .param).length).name := by
  obtain ⟨form, span, parts⟩ := n
  cases form with
  | importDecl _ | varDecl _ | param | funcDecl _ | classDecl =>
      cases h
      exact .inl rfl
  | operatorDecl sign =>
      cases h
      exact .inr ⟨rfl, rfl, sign, rfl, rfl⟩
  | ident name =>
      have h : (if role = .loopVar then _ else none) = some d := h
      split at h
      · cases h
        exact .inl rfl
      · cases h
  | _ => cases h

namespace Script

/-- The name at the node `n` is captured by `c`, an operator of the class `o`: the class is around
the node, no scope inside of it declares the name, and of what is declared under the name in the
class the operator comes first. -/
structure Captures (s : Script) (o c n : NodeId) (name : Text) : Prop where
  form_eq : s.form o = .classDecl
  member : (Role.member, c) ∈ (s.entry o).parts
  operator : ∃ sign, s.form c = .operatorDecl sign ∧
    name = (Operator.ofSign sign ((s.entry c).all .param).length).name
  around : ∃ inner outer, s.LiesIn n (inner ++ o :: outer) ∧
    ∀ o' ∈ inner, ∀ d, s.Declares o' d → d.name ≠ name
  first : ∀ d, s.Declares o d → d.name = name → c ≤ d.node

variable {s : Script}

namespace Parsed

variable (h : s.Parsed)

include h

theorem liesIn_member {o c : Nat} (ho : s.form o = .classDecl)
    (hc : (Role.member, c) ∈ (s.entry o).parts) : ∃ owners, s.LiesIn c (o :: owners) := by
  obtain ⟨m, hm, -⟩ := h.isOutlined.mem_parts_iff.mp hc
  obtain ⟨owners, hl⟩ := h.exists_liesIn (h.isOutlined.lt_size hm)
  exact ⟨owners, hl.within hc (by rw [ho]; rfl) (by simp)⟩

theorem length_params {n : Nat} {m : Node} (hm : s.tree.preorder[n]? = some m) :
    ((s.entry n).all .param).length = (m.parts.all .param).length := by
  simpa using congrArg List.length (h.isOutlined.getElem?_all hm .param)

/-- An operator is declared in the scope of the class that has it for a member, and nowhere
else. -/
theorem operator_of_declares {o : Nat} {d : Declaration} (hd : s.Declares o d) :
    d.kind.isPlain = true ∨
    d.kind = .operator ∧ d.modifiers = .none ∧ s.form o = .classDecl ∧
      (Role.member, d.node) ∈ (s.entry o).parts ∧ ∃ sign, s.form d.node = .operatorDecl sign ∧
        d.name = (Operator.ofSign sign ((s.entry d.node).all .param).length).name := by
  cases hd with
  | @node n p r owners m _ hl hr hm hd =>
      rcases Node.kind_of_declaration? hd with hkind | ⟨hkind, hmodifiers, sign, hform, hname⟩
      · exact .inl hkind
      · have hentry : s.form n = .operatorDecl sign := (h.isOutlined.form_eq hm).trans hform
        obtain ⟨rfl, hclass⟩ := h.form_of_member hr (.inr ⟨_, hentry⟩)
        obtain ⟨owners', hl'⟩ := h.liesIn_member hclass hr
        cases h.liesIn_unique hl hl'
        rw [Node.declaration?_node hd, h.length_params hm]
        exact .inr ⟨hkind, hmodifiers, hclass, hr, sign, hentry, hname⟩
  | @this m _ hm hd =>
      obtain ⟨form, span, parts⟩ := m
      cases form with
      | classDecl =>
          cases hd
          exact .inl rfl
      | expandFuncDecl =>
          obtain ⟨target, -, rfl⟩ := Option.map_eq_some_iff.mp hd
          exact .inl rfl
      | _ => cases hd

/-- The operator is what a captured name means. -/
theorem lookup?_of_captures {o c n : Nat} {name : Text} (hc : s.Captures o c n name) :
    ∃ d, s.lookup? n name = some d ∧ d.kind = .operator ∧ d.node = c := by
  obtain ⟨sign, hform, hname⟩ := hc.operator
  obtain ⟨inner, outer, hl, hinner⟩ := hc.around
  obtain ⟨owners, hl'⟩ := h.liesIn_member hc.form_eq hc.member
  obtain ⟨-, -, m, -, hm, -⟩ := (h.isOutlined.mem_parts_iff.mp hc.member).part
  rw [h.length_params hm] at hname
  rw [h.isOutlined.form_eq hm] at hform
  obtain ⟨form, span, parts⟩ := m
  cases hform
  exact ⟨_, (h.lookup?_eq_some_iff hl name _).mpr ⟨inner, o, outer, rfl, hinner,
    .node hl' hc.member hm rfl, hname.symm, hc.first⟩, rfl, rfl⟩

/-- A name is captured by the operator that it means. -/
theorem captures_iff {n : Nat} (hn : n < s.size) (name : Text) (c : NodeId) :
    (∃ d, s.lookup? n name = some d ∧ d.kind = .operator ∧ d.node = c) ↔
      ∃ o, s.Captures o c n name := by
  constructor
  · rintro ⟨d, hd, hkind, rfl⟩
    obtain ⟨owners, hl⟩ := h.exists_liesIn hn
    obtain ⟨inner, o, outer, rfl, hinner, hfirst⟩ := (h.lookup?_eq_some_iff hl _ _).mp hd
    rcases h.operator_of_declares hfirst.declares with hplain | ⟨-, -, hform, hmember, hoperator⟩
    · rw [hkind] at hplain
      cases hplain
    · rw [hfirst.name_eq] at hoperator
      exact ⟨o, hform, hmember, hoperator, ⟨inner, outer, hl, hinner⟩, hfirst.le⟩
  · rintro ⟨o, hc⟩
    exact h.lookup?_of_captures hc

end Parsed

end Script

namespace Environment

variable {e : Environment}

/-- A global variable is declared in some script. -/
theorem Reachable.exists_of_global? (he : e.Reachable) {name : Text} {symbol : Symbol}
    (h : e.registry.global? name = some symbol) : ∃ id o d, symbol = .declared id d ∧
      (e.script id).Declares o d ∧ d.modifiers.has .global = true := by
  have hmem := List.mem_of_find?_eq_some h
  rw [he.indexed.globals] at hmem
  obtain ⟨id, -, hmem⟩ := List.mem_flatMap.mp hmem
  obtain ⟨d, hd, rfl⟩ := List.mem_map.mp hmem
  obtain ⟨hd, hglobal⟩ := List.mem_filter.mp hd
  have hs : (e.script id).Parsed := he.script_parsed id
  obtain ⟨o, hdeclares⟩ := hs.declares_of_mem_topLevel hd
  exact ⟨id, o, d, rfl, hdeclares, hglobal⟩

/-- Global variables are not operators. -/
theorem Reachable.kind_of_global? (he : e.Reachable) {name : Text} {symbol : Symbol}
    (h : e.registry.global? name = some symbol) : symbol.kind.isPlain = true := by
  obtain ⟨id, o, d, rfl, hdeclares, hglobal⟩ := he.exists_of_global? h
  have hs : (e.script id).Parsed := he.script_parsed id
  rcases hs.operator_of_declares hdeclares with hkind | ⟨-, hmodifiers, -⟩
  · exact hkind
  · rw [hmodifiers] at hglobal
    exact absurd hglobal (by decide)

/-- If a name means an operator, a scope of its own script has it. -/
theorem Reachable.lookup?_cases (he : e.Reachable) {n : NodeRef} {name : Text} {symbol : Symbol}
    (h : e.view.lookup? n name = some symbol) :
    symbol.kind.isPlain = true ∨
    ∃ d, symbol = .declared n.script d ∧ d.kind = .operator ∧
      (e.script n.script).lookup? n.node name = some d := by
  rw [View.lookup?, Script.resolve?] at h
  split at h
  · next d hd =>
      cases h
      have hs : (e.script n.script).Parsed := he.script_parsed n.script
      obtain ⟨o, hdeclares⟩ := hs.declares_of_lookup? hd
      rcases hs.operator_of_declares hdeclares with hplain | ⟨hkind, -⟩
      · exact .inl hplain
      · exact .inr ⟨d, rfl, hkind, hd⟩
  · exact .inl (he.kind_of_global? h)

theorem lookup?_of_script {n : NodeRef} {name : Text} {d : Declaration}
    (h : (e.script n.script).lookup? n.node name = some d) :
    e.view.lookup? n name = some (.declared n.script d) := by
  rw [View.lookup?, Script.resolve?, show (e.view.script n.script).lookup? n.node name = _ from h]

/-- At every node a name means a variable, a parameter, an import, a class or a function, or else
an operator, and that if and only if it is captured by it. A name that is no operator's means
none. -/
theorem plainName_means (he : e.Reachable) {n : NodeRef}
    (hn : n.node < (e.script n.script).size) (name : Text) :
    (∀ symbol, e.view.lookup? n name = some symbol →
      symbol.kind.isPlain = true ∨ ∃ d, symbol = .declared n.script d ∧ d.kind = .operator) ∧
    (∀ c, (∃ d, e.view.lookup? n name = some (.declared n.script d) ∧ d.kind = .operator ∧
      d.node = c) ↔ ∃ o, (e.script n.script).Captures o c n.node name) ∧
    ((∀ op : Operator, op.name ≠ name) → ∀ symbol, e.view.lookup? n name = some symbol →
      symbol.kind.isPlain = true) := by
  have hs : (e.script n.script).Parsed := he.script_parsed n.script
  refine ⟨fun symbol h => ?_, fun c => ?_, fun hname symbol h => ?_⟩
  · rcases he.lookup?_cases h with hplain | ⟨d, hd, hkind, -⟩
    · exact .inl hplain
    · exact .inr ⟨d, hd, hkind⟩
  · rw [← hs.captures_iff hn name c]
    constructor
    · rintro ⟨d, h, hkind, hnode⟩
      rcases he.lookup?_cases h with hplain | ⟨d', hd', -, hlookup⟩
      · rw [show (Symbol.declared n.script d).kind = .operator from hkind] at hplain
        cases hplain
      · cases hd'
        exact ⟨d, hlookup, hkind, hnode⟩
    · rintro ⟨d, hlookup, hd⟩
      exact ⟨d, lookup?_of_script hlookup, hd⟩
  · refine (he.lookup?_cases h).resolve_right ?_
    rintro ⟨d, -, hkind, hlookup⟩
    obtain ⟨o, hc⟩ := (hs.captures_iff hn name d.node).mp ⟨d, hlookup, hkind, rfl⟩
    obtain ⟨sign, -, heq⟩ := hc.operator
    exact hname _ heq.symm

/-- A variable with the name of an operator, used in a class that has the operator. -/
def capturing : Environment :=
  ((({ root := txt "scripts" } : Environment).intern
    (Script.parse (txt "a") (txt "scripts.a")
      (txt "var ADD=1;zenClass V\x7boperator+(x as int)as string;" ++
        txt "function f()as int\x7breturn ADD;\x7d\x7d"))).2).replace 0

/-- Inside of the class the name means the operator; next to the variable, the variable. -/
theorem capturing_lookup? :
    (capturing.script 0).lookup? 16 (txt "ADD") = some
      { name := txt "ADD", kind := .operator, node := 6, detail := .operator .add 1 } ∧
    (capturing.script 0).lookup? 3 (txt "ADD") = some
      { name := txt "ADD", kind := .var, modifiers := .var, node := 1 } ∧
    (capturing.view.entry ⟨0, 16⟩).form = .ident (txt "ADD") ∧ 16 < (capturing.script 0).size := by
  decide +kernel

theorem capturing_plainName_means :
    capturing.Reachable ∧ 16 < (capturing.script 0).size ∧
    capturing.view.lookup? ⟨0, 16⟩ (txt "ADD") = some (.declared 0
      { name := txt "ADD", kind := .operator, node := 6, detail := .operator .add 1 }) ∧
    (∃ o, (capturing.script 0).Captures o 6 16 (txt "ADD")) ∧
    (∀ op : Operator, op.name ≠ txt "f") ∧
    ∀ symbol, capturing.view.lookup? ⟨0, 16⟩ (txt "f") = some symbol →
      symbol.kind.isPlain = true := by
  have he : capturing.Reachable := .replace (.read _ _ _ (.new _)) (by decide)
  obtain ⟨hlookup, -, -, hn⟩ := capturing_lookup?
  have hname (op : Operator) : op.name ≠ txt "f" := by
    cases op with
    | other _ => exact (by decide +kernel : txt "ERROR" ≠ txt "f")
    | _ => decide +kernel
  have hview := lookup?_of_script (e := capturing) (n := ⟨0, 16⟩) hlookup
  exact ⟨he, hn, hview,
    ((plainName_means he (n := ⟨0, 16⟩) hn (txt "ADD")).2.1 6).mp ⟨_, hview, rfl, rfl⟩, hname,
    (plainName_means he (n := ⟨0, 16⟩) hn (txt "f")).2.2 hname⟩

end Environment

end Zensight
