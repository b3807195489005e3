import Zensight.Proofs.Ancestry
import Zensight.Proofs.Indexes
import Zensight.Proofs.Spans
import Zensight.Proofs.Symbols

/-!
# The members that classes declare

The scope of a class holds what is declared in it, whatever stands there. That these are the
fields, functions and operators of its body is a matter of categories: a member of a class
declares nothing besides itself in the scope around it, because what it is made of are names,
types, expressions, and phrases that have scopes of their own (`Form.expects_isQuiet`).

Which node a class type refers to is a matter of names. Wherever a name stands for a class, the
class comes from the declaration of one, so the super classes of a class are classes too.
-/

namespace Zensight

/-! ## What declares nothing -/

/-- Does a phrase of the form declare nothing in the scope it lies in? The name of a loop variable
does, and no other. -/
def Form.isQuiet (form : Form) : Bool := form.isExpression || form.isType || form == .mapEntry

/-- Are all phrases of the category such? -/
def Category.isQuiet : Category → Bool
  | expression | type | name | className | memberName | entry => true
  | _ => false

theorem Form.BelongsTo.isQuiet {form : Form} {c : Category} (h : form.BelongsTo c)
    (hc : c.isQuiet = true) : form.isQuiet = true := by
  cases c with
  | expression => simp [Form.isQuiet, h.1]
  | type =>
      have htype : form.isType = true := h
      simp [Form.isQuiet, htype]
  | name | className =>
      obtain ⟨w, rfl, -⟩ := h
      rfl
  | memberName =>
      obtain ⟨w, rfl⟩ := h
      rfl
  | entry =>
      cases h
      rfl
  | _ => cases hc

/-- What lies in the scope around a member of a class, or around something quiet, is quiet. -/
theorem Form.expects_isQuiet {form : Form} {role : Role}
    (hform : form.isClassMember = true ∨ form.isQuiet = true) (hadmits : form.admits role = true)
    (hout : form.leavesOut role = true) :
    (form.expects role).isQuiet = true ∧ role ≠ .loopVar := by
  have hall : ∀ role ∈ form.roles, form.leavesOut role = true →
      (form.expects role).isQuiet = true ∧ role ≠ .loopVar := by
    cases form with
    | file | importDecl _ | param | expandFuncDecl | classDecl | block | exprStmt | returnStmt
    | ifStmt | foreachStmt | whileStmt | breakStmt | continueStmt =>
        rcases hform with hform | hform <;> cases hform
    | _ => simp [roles, leavesOut, opensScope, Role.isHeader, expects, Category.isQuiet]
  exact hall role (by simpa [admits] using hadmits) hout

theorem Node.declaration?_eq_none {package : Text} {role : Role} {id : NodeId} {n : Node}
    (hquiet : n.form.isQuiet = true) (hrole : role ≠ .loopVar) :
    n.declaration? package role id = none := by
  obtain ⟨form, span, parts⟩ := n
  cases form with
  | importDecl _ | varDecl _ | param | funcDecl _ | operatorDecl _ | classDecl => cases hquiet
  | ident name => exact if_neg hrole
  | _ => rfl

theorem Script.lt_size_of_form {s : Script} {n : NodeId} {form : Form} (h : s.form n = form)
    (hform : form ≠ .badStmt) : n < s.size := by
  by_contra hn
  rw [Script.form, entry, Array.getElem?_eq_none (Nat.le_of_not_lt hn)] at h
  exact hform h.symm

namespace Script.Parsed

variable {s : Script} (h : s.Parsed)

include h

theorem sorted : s.tree.Sorted := by
  obtain ⟨path, package, source, rfl⟩ := h
  exact Text.parse_sorted source

/-- A part belongs to the category that its role asks for. -/
theorem belongsTo {p c : Nat} {r : Role} (hr : (r, c) ∈ (s.entry p).parts) :
    (s.form c).BelongsTo ((s.form p).expects r) := by
  obtain ⟨-, m, child, hm, hchild, hpart⟩ := (h.isOutlined.mem_parts_iff.mp hr).part
  rw [h.isOutlined.form_eq hm, h.isOutlined.form_eq hchild]
  exact h.sorted m (List.mem_of_getElem? hm) (r, child) hpart

theorem admits {p c : Nat} {r : Role} (hr : (r, c) ∈ (s.entry p).parts) :
    (s.form p).admits r = true := by
  obtain ⟨-, m, child, hm, -, hpart⟩ := (h.isOutlined.mem_parts_iff.mp hr).part
  rw [h.isOutlined.form_eq hm]
  exact h.isFile.admits_part hm hpart

/-- What lies in the scope of a class is a member in its body, or declares nothing. -/
theorem member_or_isQuiet {n x : Nat} {owners : List NodeId} (hn : s.form n = .classDecl)
    (hl : s.LiesIn x (n :: owners)) : (Role.member, x) ∈ (s.entry n).parts ∨
      (s.form x).isQuiet = true ∧ ∀ p, (Role.loopVar, x) ∉ (s.entry p).parts := by
  generalize howners : n :: owners = os at hl
  -- On the way down from the body of the class, every step but the first stays in a header or in
  -- something that has no scope.
  induction hl with
  | file =>
      cases howners
      rw [h.isOutlined.form_eq s.tree.getElem?_preorder_zero, h.isFile.form_eq] at hn
      cases hn
  | @around p c r _ _ hr hout ih =>
      have hform : (s.form p).isClassMember = true ∨ (s.form p).isQuiet = true := by
        rcases ih howners with hmember | ⟨hquiet, -⟩
        · have hbelongs := h.belongsTo hmember
          rw [hn] at hbelongs
          exact .inl hbelongs
        · exact .inr hquiet
      have hleaves : (s.form p).leavesOut r = true := (Form.leavesOut_iff (h.admits hr)).mpr hout
      obtain ⟨hquiet, hrole⟩ := Form.expects_isQuiet hform (h.admits hr) hleaves
      refine .inr ⟨(h.belongsTo hr).isQuiet hquiet, fun q hr' => hrole ?_⟩
      exact (h.listed_unique hr hr').2
  | @within p c r _ header _ hr hheader hbody _ =>
      cases howners
      have hadmits := h.admits hr
      rw [hn] at hheader hadmits
      cases hheader
      have hroles : r = .name ∨ r = .super ∨ r = .member := by
        simpa [Form.admits, Form.roles] using hadmits
      have hrole : r ≠ .name ∧ r ≠ .super := by simpa using hbody
      exact .inl (((hroles.resolve_left hrole.1).resolve_left hrole.2) ▸ hr)

/-- What is declared in the scope of a class, besides `this`, is declared by the members in its
body. -/
theorem member_of_declares {n : Nat} {d : Declaration} (hn : s.form n = .classDecl)
    (hd : s.Declares n d) (hne : d.node ≠ n) :
    ∃ c m, (Role.member, c) ∈ (s.entry n).parts ∧ s.tree.preorder[c]? = some m ∧
      m.declaration? s.package .member c = some d := by
  cases hd with
  | @node x p r owners m _ hl hr hm hd =>
      rcases h.member_or_isQuiet hn hl with hmember | ⟨hquiet, hloop⟩
      · obtain ⟨-, rfl⟩ := h.listed_unique hr hmember
        exact ⟨x, m, hmember, hm, hd⟩
      · rw [h.isOutlined.form_eq hm] at hquiet
        have hrole : r ≠ .loopVar := fun hrole => hloop p (hrole ▸ hr)
        rw [Node.declaration?_eq_none hquiet hrole] at hd
        cases hd
  | this _ hd => exact absurd (Node.this?_eq_some hd).2.1 hne

/-- The scope of a class has `this` first and the members of the class behind it. -/
theorem exists_classScope {n : Nat} (hn : s.form n = .classDecl) :
    ∃ (i : Nat) (scope : Scope) (this : Declaration), s.scopes[i]? = some scope ∧
      scope.owner = n ∧ this.node = n ∧ scope.symbols = this :: s.classMembers n := by
  obtain ⟨m, hm⟩ := h.isOutlined.exists_node (lt_size_of_form hn (by decide))
  have hform : m.form = .classDecl := (h.isOutlined.form_eq hm).symm.trans hn
  obtain ⟨parent, around, hfits⟩ := h.describes.fits_of_getElem? hm
  obtain ⟨i, hs⟩ := hfits.exists_scope (by rw [hform]; rfl)
  obtain ⟨scope, hscope⟩ : ∃ scope, s.scopeOf? n = some scope :=
    Option.isSome_iff_exists.mp (Array.find?_isSome.mpr ⟨_, Array.mem_of_getElem? hs, by simp⟩)
  obtain ⟨j, hj⟩ := Array.mem_iff_getElem?.mp (Array.mem_of_find?_eq_some hscope)
  have howner : scope.owner = n := by simpa using Array.find?_some hscope
  obtain ⟨-, rfl⟩ := h.describes.eq_of_owner_eq hj hs (by simpa using howner)
  obtain ⟨this, hthis⟩ : ∃ this, m.this? n = some this := by
    obtain ⟨form, span, parts⟩ := m
    cases hform
    exact ⟨_, rfl⟩
  refine ⟨j, _, this, hj, howner, (Node.this?_eq_some hthis).2.1, ?_⟩
  simp [classMembers, hscope, Node.held, hthis]

theorem member_of_mem_classMembers {n : Nat} {d : Declaration} (hn : s.form n = .classDecl)
    (hd : d ∈ s.classMembers n) :
    ∃ c m, (Role.member, c) ∈ (s.entry n).parts ∧ s.tree.preorder[c]? = some m ∧
      m.declaration? s.package .member c = some d := by
  obtain ⟨i, scope, this, hs, howner, hthis, hsymbols⟩ := h.exists_classScope hn
  have hsorted := h.sorted_symbols hs
  rw [hsymbols] at hsorted
  have hdeclares : s.Declares scope.owner d :=
    h.declares_of_mem_symbols hs (hsymbols ▸ List.mem_cons_of_mem _ hd)
  have hlater : this.node < d.node := (List.pairwise_cons.mp hsorted).1 d hd
  exact h.member_of_declares hn (howner ▸ hdeclares) (Nat.ne_of_gt (hthis ▸ hlater))

end Script.Parsed

/-! ## What kind of members there are -/

/-- A member of a class: a field, or a function or an operator with its signature. In the names of
members no parenthesis opens. -/
inductive Script.DeclaresMember (s : Script) (d : Declaration) : Prop where
  | field : byte '(' ∉ d.name → d.kind = .var → s.DeclaresMember d
  | function {isStatic : Bool} {required : Nat} : byte '(' ∉ d.name → d.kind = .function →
      d.detail = .executable required → s.form d.node = .funcDecl isStatic → s.DeclaresMember d
  | operator {sign : Text} {op : Operator} {required : Nat} : d.name = op.name →
      d.kind = .operator → d.detail = .operator op required → s.form d.node = .operatorDecl sign →
      s.DeclaresMember d

theorem Text.IsGiven.paren_not_mem {w : Text} (h : w.IsGiven) : byte '(' ∉ w := by
  rcases h with h | rfl
  · intro hmem
    have hletter := (h.word rfl).2.1 _ hmem
    revert hletter
    decide
  · decide +kernel

theorem Parts.mem_toList_of_mem_all {role : Role} {n : Node} :
    (ps : Parts) → n ∈ ps.all role → (role, n) ∈ ps.toList
  | .nil, hn => by cases hn
  | .cons r node rest, hn => by
    rw [Parts.all] at hn
    rw [Parts.toList]
    split at hn
    · next hr =>
        rcases List.mem_cons.mp hn with rfl | hn
        · exact hr ▸ List.mem_cons_self
        · exact List.mem_cons_of_mem _ (rest.mem_toList_of_mem_all hn)
    · exact List.mem_cons_of_mem _ (rest.mem_toList_of_mem_all hn)

theorem Parts.paren_not_mem_declaredName {form : Form} {parts : Parts}
    (hform : form.expects .name = .name)
    (hparts : ∀ part ∈ parts.toList, part.2.form.BelongsTo (form.expects part.1)) :
    byte '(' ∉ parts.declaredName := by
  rw [Parts.declaredName]
  split
  · next n hn =>
      have hbelongs := hparts _ (parts.mem_toList_of_mem_all (List.mem_of_head? hn))
      rw [hform] at hbelongs
      obtain ⟨w, hw, hgiven⟩ := hbelongs
      rw [Node.identName, hw]
      exact hgiven.paren_not_mem
  · simp

namespace Script.Parsed

variable {s : Script} (h : s.Parsed)

include h

/-- The members that a class declares are fields, functions and operators. -/
theorem declaresMember {n : Nat} {d : Declaration} (hn : s.form n = .classDecl)
    (hd : d ∈ s.classMembers n) : s.DeclaresMember d := by
  obtain ⟨c, m, hmember, hm, hd⟩ := h.member_of_mem_classMembers hn hd
  have hbelongs := h.belongsTo hmember
  rw [hn] at hbelongs
  have hform := h.isOutlined.form_eq hm
  rw [hform] at hbelongs
  have hparts := h.sorted m (List.mem_of_getElem? hm)
  obtain ⟨form, span, parts⟩ := m
  cases form with
  | varDecl keyword =>
      cases hd
      exact .field (Parts.paren_not_mem_declaredName rfl hparts) rfl
  | funcDecl isStatic =>
      cases hd
      exact .function (Parts.paren_not_mem_declaredName rfl hparts) rfl rfl hform
  | operatorDecl sign =>
      cases hd
      exact .operator rfl rfl rfl hform
  | constructorDecl | badStmt => cases hd
  | _ => cases hbelongs

/-! ## What class types refer to -/

theorem form_of_declares {o : NodeId} {d : Declaration} {qualified : Text} (hd : s.Declares o d)
    (hclass : d.detail = .zenClass qualified) : s.form d.node = .classDecl := by
  cases hd with
  | node _ _ hm hd =>
      obtain ⟨hform, rfl⟩ := Node.form_of_zenClass (Node.symbol?_of_declaration? hd) hclass
      exact (h.isOutlined.form_eq hm).trans hform
  | @this m _ hm hd =>
      obtain ⟨-, rfl, hform | hform⟩ := Node.this?_eq_some hd
      · exact (h.isOutlined.form_eq hm).trans hform
      · obtain ⟨form, span, parts⟩ := m
        cases hform
        obtain ⟨target, -, htarget⟩ := Option.map_eq_some_iff.mp hd
        rw [← htarget] at hclass
        cases hclass

theorem form_of_symbolFor? {n : NodeId} {d : Declaration} {qualified : Text}
    (hd : s.symbolFor? n = some d) (hclass : d.detail = .zenClass qualified) :
    s.form d.node = .classDecl := by
  obtain ⟨p, r, m, -, hm, hd⟩ := h.listed_of_symbolFor? hd
  obtain ⟨hform, rfl⟩ := Node.form_of_zenClass hd hclass
  exact (h.isOutlined.form_eq hm).trans hform

theorem declares_of_lookup? {n : NodeId} {name : Text} {d : Declaration}
    (hd : s.lookup? n name = some d) : ∃ o, s.Declares o d := by
  obtain ⟨scope, hscope, hd⟩ := List.exists_of_findSome?_eq_some hd
  obtain ⟨i, hi⟩ := (scopesAround_enclosed h.ordered n).exists_getElem? scope hscope
  rw [(h.indexed hi).lookup_eq] at hd
  exact ⟨_, h.declares_of_mem_symbols hi (List.mem_of_find?_eq_some hd)⟩

theorem declares_of_mem_topLevel {d : Declaration} (hd : d ∈ s.topLevel) :
    ∃ o, s.Declares o d := by
  rw [topLevel] at hd
  split at hd
  · next scope hscope => exact ⟨_, h.declares_of_mem_symbols hscope hd⟩
  · cases hd

end Script.Parsed

/-- If the type refers to a declaration, it is that of a class. -/
def ClassType.FoundedIn (e : Environment) (c : ClassType) : Prop :=
  ∀ decl, c.decl = some (.declared decl) → e.form decl = .classDecl

theorem ClassType.foundedIn_of_decl_none {e : Environment} {c : ClassType} (h : c.decl = none) :
    c.FoundedIn e := by
  intro decl hdecl
  cases h.symm.trans hdecl

/-- What stands for classes in the registry is founded. -/
structure Registry.FoundedIn (e : Environment) (r : Registry) : Prop where
  named : ∀ name c, r.classNamed? name = some c → c.FoundedIn e
  globals : ∀ id d c, .declared id d ∈ r.globals → d.classType? id = some c → c.FoundedIn e

/-- If the type is a class, it is founded. -/
def Ty.FoundedIn (e : Environment) (t : Ty) : Prop := ∀ c, t = .classType c → c.FoundedIn e

theorem Ty.FoundedIn.classType {e : Environment} {c : ClassType} (h : c.FoundedIn e) :
    (Ty.classType c).FoundedIn e := by
  intro d hd
  cases hd
  exact h

theorem Ty.foundedIn_any {e : Environment} : Ty.any.FoundedIn e := by
  intro c hc
  cases hc

namespace Registry.FoundedIn

variable {e : Environment} {r : Registry}

theorem classOr (hr : r.FoundedIn e) (name : Text) : (r.classOr name).FoundedIn e := by
  refine .classType ?_
  cases hc : r.classNamed? name with
  | none => exact ClassType.foundedIn_of_decl_none rfl
  | some c => exact hr.named name c hc

theorem importType (hr : r.FoundedIn e) (path : List Text) : (r.importType path).FoundedIn e := by
  unfold Registry.importType
  split
  · next c hc => exact .classType (hr.named _ c hc)
  · exact Ty.foundedIn_any

end Registry.FoundedIn

/-- What a name refers to is founded. -/
def NamedTarget.FoundedIn (e : Environment) : NamedTarget → Prop
  | settled t => t.FoundedIn e
  | imported _ fallback => fallback.FoundedIn e

theorem NamedTarget.FoundedIn.type {e : Environment} {target : NamedTarget}
    {importType : NodeId → Ty} (h : target.FoundedIn e)
    (himport : ∀ n, (importType n).FoundedIn e) : (target.type importType).FoundedIn e := by
  cases target with
  | settled t => exact h
  | imported decl fallback =>
      unfold NamedTarget.type
      dsimp only
      split
      · next c hc => exact .classType (himport decl c hc)
      · exact .classType h

namespace Environment

/-- A symbol that some class has for a member. -/
def DeclaresMember (e : Environment) : Symbol → Prop
  | .declared id d => (e.script id).DeclaresMember d
  | .stated _ => False

variable {e : Environment}

theorem classType?_foundedIn {id : ScriptId} {d : Declaration} {c : ClassType}
    (hform : ∀ qualified, d.detail = .zenClass qualified →
      (e.script id).form d.node = .classDecl) (hc : d.classType? id = some c) : c.FoundedIn e := by
  rw [Declaration.classType?] at hc
  split at hc
  · next qualified hdetail =>
      cases hc
      intro decl hdecl
      cases hdecl
      exact hform qualified hdetail
  · cases hc

variable (he : e.Reachable)

include he

theorem Reachable.classTypes_foundedIn {id : ScriptId} {c : ClassType}
    (hc : c ∈ (e.script id).classTypes id) : c.FoundedIn e := by
  obtain ⟨n, -, hc⟩ := List.mem_filterMap.mp hc
  obtain ⟨d, hd, hc⟩ := Option.bind_eq_some_iff.mp hc
  have hs : (e.script id).Parsed := he.script_parsed id
  exact classType?_foundedIn (fun _ => hs.form_of_symbolFor? hd) hc

theorem Reachable.registry_foundedIn : e.registry.FoundedIn e := by
  refine ⟨fun name c hc => ?_, fun id d c hd hc => ?_⟩
  · rw [he.indexed.named] at hc
    have hmem := List.mem_of_find?_eq_some hc
    rw [he.indexed.classes] at hmem
    obtain ⟨id, -, hc⟩ := List.mem_flatMap.mp hmem
    exact he.classTypes_foundedIn hc
  · rw [he.indexed.globals] at hd
    obtain ⟨id', -, hd⟩ := List.mem_flatMap.mp hd
    obtain ⟨d', hd', heq⟩ := List.mem_map.mp hd
    cases heq
    have hs : (e.script id).Parsed := he.script_parsed id
    obtain ⟨o, hdeclares⟩ := hs.declares_of_mem_topLevel (List.mem_filter.mp hd').1
    exact classType?_foundedIn (fun _ => hs.form_of_declares hdeclares) hc

theorem Reachable.registryOf_foundedIn (id : ScriptId) : (e.registryOf id).FoundedIn e := by
  rw [registryOf]
  split
  · exact he.registry_foundedIn
  · refine ⟨fun name c hc => ?_, fun id d c hd => ?_⟩
    · cases hc
    · cases hd

/-- A declaration in scope stands for a class only if it is one. -/
theorem Reachable.classInScope?_foundedIn {id : ScriptId} {n : NodeId} {name : Text}
    {target : NamedTarget}
    (htarget : (e.script id).classInScope? id (e.registryOf id) n name = some target) :
    target.FoundedIn e := by
  have hs : (e.script id).Parsed := he.script_parsed id
  rw [Script.classInScope?] at htarget
  split at htarget
  · next owner d hd =>
      split at htarget
      · obtain ⟨c, hc, rfl⟩ := Option.map_eq_some_iff.mp htarget
        rw [Script.resolve?] at hd
        split at hd
        · next d' hd' =>
            cases hd
            obtain ⟨o, hdeclares⟩ := hs.declares_of_lookup? hd'
            exact .classType (classType?_foundedIn (fun _ => hs.form_of_declares hdeclares) hc)
        · have hmem := List.mem_of_find?_eq_some hd
          exact .classType ((he.registryOf_foundedIn id).globals _ _ _ hmem hc)
      · split at htarget
        · cases htarget
          exact ClassType.foundedIn_of_decl_none rfl
        · cases htarget
      · cases htarget
  · cases htarget

theorem Reachable.namedTarget_foundedIn (id : ScriptId) (n : NodeId) (segments : List Text) :
    ((e.script id).namedTarget id (e.registryOf id) n segments).FoundedIn e := by
  have hr := he.registryOf_foundedIn id
  unfold Script.namedTarget
  split
  · exact Ty.foundedIn_any
  · split
    · next target htarget => exact he.classInScope?_foundedIn htarget
    · split
      · next c hc => exact .classType (hr.named _ c hc)
      · exact hr.classOr _
  · exact hr.classOr _

/-- Wherever a name is written as a type, the class that it stands for is one. -/
theorem Reachable.namedClass?_foundedIn {id : ScriptId} {n : NodeId} {c : ClassType}
    (hc : e.namedClass? id n = some c) : c.FoundedIn e := by
  have himport (decl : NodeId) : (e.ownImportType id decl).FoundedIn e := by
    rw [ownImportType]
    split
    · exact (he.registryOf_foundedIn id).importType _
    · exact Ty.foundedIn_any
  rw [namedClass?] at hc
  split at hc
  · next segments _ =>
      have htype := (he.namedTarget_foundedIn id n segments).type himport
      split at hc
      · next d hd =>
          cases hc
          exact htype c hd
      · cases hc
  · cases hc

/-- What a class extends, directly or not, is a class. -/
theorem Reachable.foundedIn_of_reaches {c k : ClassType} (hc : c.FoundedIn e)
    (hk : e.hierarchy.Reaches c k) : k.FoundedIn e := by
  induction hk with
  | refl => exact hc
  | @tail b k _ hstep _ =>
      have hsuper : k ∈ e.hierarchy.supers b := hstep
      rw [Hierarchy.supers] at hsuper
      split at hsuper
      · next decl _ =>
          cases decl with
          | listed i => cases hsuper
          | declared decl =>
              obtain ⟨n, -, hn⟩ := List.mem_filterMap.mp hsuper
              exact he.namedClass?_foundedIn hn
      · cases hsuper

/-- The members of a class, inherited ones included, are fields, functions and operators of
classes. -/
theorem Reachable.declaresMember {c : ClassType} (hc : c.FoundedIn e) {m : Symbol}
    (hm : m ∈ e.hierarchy.inheritedMembers c) : e.DeclaresMember m := by
  obtain ⟨k, hk, hm⟩ := List.mem_flatMap.mp hm
  obtain ⟨_, hmem, hreaches⟩ := (e.hierarchy_visits_lineage c).reached hk (by simp)
  rw [List.mem_singleton.mp hmem] at hreaches
  have hfounded := he.foundedIn_of_reaches hc hreaches
  rw [Hierarchy.members] at hm
  split at hm
  · next decl hdecl =>
      cases decl with
      | listed i => cases hm
      | declared decl =>
          obtain ⟨d, hd, rfl⟩ := List.mem_map.mp hm
          have hs : (e.script decl.script).Parsed := he.script_parsed decl.script
          exact hs.declaresMember (hfounded decl hdecl) hd
  · cases hm

end Environment

end Zensight
