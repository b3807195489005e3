import Zensight.Proofs.Naming
import Zensight.Proofs.PlainNames
import Zensight.Query.Completion

/-!
# What `this` refers to

A class and an expand function enter `this` into the scope they open, and a use of it is looked up
like any name. That it means the nearest of them above the node comes down to two facts.

Nothing else that opens a scope declares `this`: names of declarations are identifiers, which
`this` is none of. The one exception is an import, whose name is the last segment of its path and
may be a keyword. It lies in the scope of the file, outside of all others, and is the import of no
class (`Environment.Reachable.importType_this`).

A node lies in the scope of each receiver above it, for what is in the header of one are names and
types, and no expression is below those (`Form.expects_isHeading`). So the scopes around a use of
`this` have the receivers above it in the same order (`Script.Parsed.receiver?_of_liesIn`).
-/

namespace Zensight

/-! ## The names of declarations -/

/-- What a declaration may have for a name: one that the script gives, that of a primitive type,
or nothing. -/
def Text.IsDeclared (w : Text) : Prop :=
  w = [] ∨ w.IsGiven ∨ ∃ k : Token.Kind, k.isPrimitive = true ∧ w = k.name

namespace Text.IsDeclared

variable {w : Text}

theorem ne_this (h : w.IsDeclared) : w ≠ txt "this" := by
  rintro rfl
  rcases h with h | (h | h) | ⟨k, hk, h⟩
  · cases h
  · have hword : Token.Kind.ofWord (txt "this") = .ident := (h.word rfl).2.2.1
    revert hword
    decide
  · cases h
  · revert k
    decide

theorem dot_not_mem (h : w.IsDeclared) : byte '.' ∉ w := by
  rcases h with rfl | (h | rfl) | ⟨k, hk, rfl⟩
  · simp
  · intro hmem
    have hletter := (h.word rfl).2.1 _ hmem
    revert hletter
    decide
  · decide
  · revert k
    decide

end Text.IsDeclared

theorem Parts.declaredName_isDeclared {form : Form} {parts : Parts} (hform : form ≠ .memberExpr)
    (hparts : ∀ part ∈ parts.toList, part.2.form.BelongsTo (form.expects part.1)) :
    parts.declaredName.IsDeclared := by
  rw [Parts.declaredName]
  split
  · next n hn =>
      have hbelongs := hparts _ (parts.mem_toList_of_mem_all (List.mem_of_head? hn))
      cases form with
      | memberExpr => exact absurd rfl hform
      | classDecl =>
          obtain ⟨w, hw, hgiven⟩ := hbelongs
          rw [Node.identName, hw]
          exact .inr hgiven
      | _ =>
          obtain ⟨w, hw, hgiven⟩ := hbelongs
          rw [Node.identName, hw]
          exact .inr (.inl hgiven)
  · exact .inl rfl

theorem Operator.name_ne_this (op : Operator) : op.name ≠ txt "this" := by
  cases op with
  | other _ => exact (by decide : txt "ERROR" ≠ txt "this")
  | _ => decide

/-- An import that is called `this` gives itself no other name. -/
theorem Form.importName_this {path : List Text} {parts : Parts}
    (hparts : ∀ part ∈ parts.toList, part.2.form.BelongsTo ((importDecl path).expects part.1))
    (h : importName path parts = txt "this") : path.getLast? = some (txt "this") := by
  rw [importName] at h
  split at h
  · next n hn =>
      obtain ⟨w, hw, hgiven⟩ := hparts _ (parts.mem_toList_of_mem_all (List.mem_of_head? hn))
      rw [Node.identName, hw] at h
      exact absurd h (Text.IsDeclared.ne_this (.inr (.inl hgiven)))
  · cases hlast : path.getLast? with
    | none =>
        rw [hlast] at h
        cases h
    | some w =>
        rw [hlast] at h
        exact congrArg some h

/-- Of what nodes declare only an import can be called `this`. -/
theorem Node.declaration?_this {package : Text} {role : Role} {id : NodeId} {n : Node}
    {d : Declaration} (hloop : role = .loopVar → n.form.BelongsTo .name)
    (hparts : ∀ part ∈ n.parts.toList, part.2.form.BelongsTo (n.form.expects part.1))
    (h : n.declaration? package role id = some d) (hname : d.name = txt "this") :
    ∃ path, n.form = .importDecl path ∧ path.getLast? = some (txt "this") ∧ d.detail = .plain := by
  obtain ⟨form, span, parts⟩ := n
  cases form with
  | importDecl path =>
      cases h
      exact ⟨path, rfl, Form.importName_this hparts hname, rfl⟩
  | varDecl _ | param | funcDecl _ | classDecl =>
      cases h
      exact absurd hname (Parts.declaredName_isDeclared (fun h => by cases h) hparts).ne_this
  | operatorDecl _ =>
      cases h
      exact absurd hname (Operator.name_ne_this _)
  | ident name =>
      have h : (if role = .loopVar then _ else none) = some d := h
      split at h
      · next hrole =>
          cases h
          obtain ⟨w, hw, hgiven⟩ := hloop hrole
          cases hw
          exact absurd hname (Text.IsDeclared.ne_this (.inr (.inl hgiven)))
      · cases h
  | _ => cases h

/-- Is it a receiver, which `this` may refer to? -/
def Form.isReceiver : Form → Bool
  | classDecl | expandFuncDecl => true
  | _ => false

theorem Form.isReceiver_iff {form : Form} :
    form.isReceiver = true ↔ form = .classDecl ∨ form = .expandFuncDecl := by
  cases form <;> simp [isReceiver]

namespace Script.Parsed

variable {s : Script} (h : s.Parsed)

include h

theorem form_zero : s.form 0 = .file := by
  rw [h.isOutlined.form_eq s.tree.getElem?_preorder_zero, h.isFile.form_eq]

/-- What stands at the top of the file lies in its scope. -/
theorem form_of_liesIn_file {p n o : Nat} {r : Role} {owners : List NodeId}
    (hl : s.LiesIn n (o :: owners)) (hr : (r, n) ∈ (s.entry p).parts) (hp : s.form p = .file) :
    s.form o = .file := by
  obtain ⟨m, hm, -⟩ := h.isOutlined.mem_parts_iff.mp hr
  rw [h.isOutlined.form_eq hm] at hp
  cases (h.isFile.form_eq_file_iff hm).mp hp
  cases h.liesIn_unique hl (LiesIn.file.around hr (by simp [h.form_zero, Form.header?]))
  exact h.form_zero

/-- Receivers declare `this`, and an import may be called so. -/
theorem declares_this_cases {o : Nat} {d : Declaration} (hd : s.Declares o d)
    (hname : d.name = txt "this") :
    (s.form o).isReceiver = true ∧ (∃ m, s.tree.preorder[o]? = some m ∧ m.this? o = some d) ∨
    s.form o = .file ∧ d.detail = .plain ∧ ∃ path, s.form d.node = .importDecl path ∧
      path.getLast? = some (txt "this") := by
  cases hd with
  | this hm hd =>
      refine .inl ⟨?_, _, hm, hd⟩
      rw [h.isOutlined.form_eq hm]
      exact Form.isReceiver_iff.mpr (Node.this?_eq_some hd).2.2
  | @node n p r owners m _ hl hr hm hd =>
      have hbelongs := h.belongsTo hr
      rw [h.isOutlined.form_eq hm] at hbelongs
      obtain ⟨path, hform, hlast, hdetail⟩ := Node.declaration?_this
        (fun hrole => by rw [hrole] at hbelongs; exact hbelongs)
        (h.sorted m (List.mem_of_getElem? hm)) hd hname
      have himport : s.form n = .importDecl path := (h.isOutlined.form_eq hm).trans hform
      rw [Node.declaration?_node hd]
      exact .inr ⟨h.form_of_liesIn_file hl hr (h.form_of_importDecl hr himport), hdetail, path,
        himport, hlast⟩

end Script.Parsed

/-! ## Receivers -/

/-- Is it a form that headers are made of, an identifier or a type? -/
def Form.isHeading : Form → Bool
  | ident _ => true
  | form => form.isType

/-- Is every phrase of the category such? -/
def Category.isHeading : Category → Bool
  | type | name | className => true
  | _ => false

theorem Form.BelongsTo.isHeading {form : Form} {c : Category} (h : form.BelongsTo c)
    (hc : c.isHeading = true) : form.isHeading = true := by
  cases c with
  | type =>
      cases form with
      | ident _ => rfl
      | _ => exact h
  | name | className =>
      obtain ⟨w, rfl, -⟩ := h
      rfl
  | _ => cases hc

/-- Types are made of types, and the headers of receivers of types and identifiers. -/
theorem Form.expects_isHeading {form : Form} {role : Role} (hadmits : form.admits role = true)
    (hform : form.isHeading = true ∨ form.isReceiver = true ∧ form.leavesOut role = true) :
    (form.expects role).isHeading = true := by
  have hall : ∀ role ∈ form.roles,
      form.isHeading = true ∨ form.isReceiver = true ∧ form.leavesOut role = true →
      (form.expects role).isHeading = true := by
    cases form with
    | classDecl | expandFuncDecl | ident _ | primitiveType _ | namedType _ | arrayType | listType
    | mapType | funcType | intersectionType | badType =>
        simp [roles, isHeading, isReceiver, isType, leavesOut, opensScope, Role.isHeader, expects,
          Category.isHeading]
    | _ =>
        intro role _ hform
        rcases hform with hform | ⟨hform, -⟩ <;> cases hform
  exact hall role (by simpa [admits] using hadmits) hform

namespace Script

/-- The nearest receiver above a node. -/
def receiver? (s : Script) (n : NodeId) : Option NodeId :=
  (s.ancestry n n).tail.find? fun o => (s.form o).isReceiver

variable {s : Script}

namespace Parsed

variable (h : s.Parsed)

include h

/-- The number of a node is enough to go up to the file. -/
theorem ancestry_of_le {n fuel : Nat} (hle : n ≤ fuel) : s.ancestry fuel n = s.ancestry n n := by
  induction n using Nat.strongRecOn generalizing fuel with
  | ind n ih =>
      cases fuel with
      | zero =>
          cases Nat.le_zero.mp hle
          rfl
      | succ fuel =>
          cases hp : s.parent? n with
          | none => cases n <;> simp [ancestry, hp]
          | some p =>
              have hlt : p < n := parent?_lt h.ordered hp
              obtain ⟨k, rfl⟩ := Nat.exists_eq_add_one_of_ne_zero (Nat.ne_zero_of_lt hlt)
              have hup : s.ancestry fuel p = s.ancestry k p := by
                rw [ih p hlt (Nat.le_trans (Nat.le_of_lt_succ hlt) (Nat.le_of_succ_le_succ hle)),
                  ih p hlt (Nat.le_of_lt_succ hlt)]
              rw [ancestry, ancestry, hp]
              exact congrArg (_ :: ·) hup

theorem receiver?_part {p c : Nat} {r : Role} (hr : (r, c) ∈ (s.entry p).parts) :
    s.receiver? c = if (s.form p).isReceiver then some p else s.receiver? p := by
  have hp : s.parent? c = some p := (h.parent?_eq_some_iff c p).mpr ⟨r, hr⟩
  have hlt : p < c := parent?_lt h.ordered hp
  obtain ⟨k, rfl⟩ := Nat.exists_eq_add_one_of_ne_zero (Nat.ne_zero_of_lt hlt)
  have hup : (s.ancestry (k + 1) (k + 1)).tail = s.ancestry p p := by
    rw [ancestry, hp]
    exact h.ancestry_of_le (Nat.le_of_lt_succ hlt)
  obtain ⟨rest, hrest⟩ : ∃ rest, s.ancestry p p = p :: rest := by
    cases p <;> exact ⟨_, rfl⟩
  rw [receiver?, receiver?, hup, hrest, List.find?_cons, List.tail_cons]
  cases (s.form p).isReceiver <;> rfl

/-- What is neither a type nor an identifier is below no type, and not in the header of a
receiver. -/
theorem not_isHeading_of_part {p c : Nat} {r : Role} (hr : (r, c) ∈ (s.entry p).parts)
    (hc : (s.form c).isHeading = false) : (s.form p).isHeading = false ∧
      ((s.form p).isReceiver = true → (s.form p).leavesOut r = false) := by
  have hnot : ¬ ((s.form p).expects r).isHeading = true := by
    intro hheading
    rw [(h.belongsTo hr).isHeading hheading] at hc
    cases hc
  have hform := mt (Form.expects_isHeading (h.admits hr)) hnot
  simpa [not_or] using hform

/-- The scopes around a node have the nearest receiver above it for the first receiver. -/
theorem receiver?_of_liesIn {n : Nat} {owners : List NodeId} (hl : s.LiesIn n owners)
    (hn : (s.form n).isHeading = false) :
    (∃ inner o outer, owners = inner ++ o :: outer ∧ s.receiver? n = some o ∧
      (s.form o).isReceiver = true ∧
      ∀ o' ∈ inner, (s.form o').isReceiver = false ∧ s.form o' ≠ .file) ∨
    s.receiver? n = none ∧ ∀ o ∈ owners, (s.form o).isReceiver = false := by
  -- Each step down either stays in the scopes of the node above or adds that node to them.
  induction hl with
  | file =>
      refine .inr ⟨rfl, List.forall_mem_singleton.mpr ?_⟩
      rw [h.form_zero]
      rfl
  | @around p c r owners _ hr hout ih =>
      obtain ⟨hp, hbody⟩ := h.not_isHeading_of_part hr hn
      have hleaves : (s.form p).leavesOut r = true := (Form.leavesOut_iff (h.admits hr)).mpr hout
      have hreceiver : (s.form p).isReceiver = false := by
        by_contra hreceiver
        rw [hbody (by simpa using hreceiver)] at hleaves
        cases hleaves
      rw [h.receiver?_part hr, if_neg (by simp [hreceiver])]
      exact ih hp
  | @within p c r owners header _ hr hheader hbody ih =>
      rw [h.receiver?_part hr]
      cases hreceiver : (s.form p).isReceiver with
      | true => exact .inl ⟨[], p, owners, rfl, rfl, hreceiver, List.forall_mem_nil _⟩
      | false =>
          have hfile : s.form p ≠ .file := by
            intro hfile
            rw [hfile] at hheader
            cases hheader
          rcases ih (h.not_isHeading_of_part hr hn).1 with
            ⟨inner, o, outer, rfl, ho, hform, hinner⟩ | ⟨hnone, hall⟩
          · exact .inl ⟨p :: inner, o, outer, rfl, ho, hform,
              List.forall_mem_cons.mpr ⟨⟨hreceiver, hfile⟩, hinner⟩⟩
          · exact .inr ⟨hnone, List.forall_mem_cons.mpr ⟨hreceiver, hall⟩⟩

/-- What `this` means at an expression: the nearest receiver, or an import if there is none. -/
theorem lookup?_this {n : Nat} (hsize : n < s.size) (hn : (s.form n).isHeading = false) :
    (∃ o m d, s.receiver? n = some o ∧ s.tree.preorder[o]? = some m ∧ m.this? o = some d ∧
      s.lookup? n (txt "this") = some d) ∨
    s.receiver? n = none ∧ ∀ d, s.lookup? n (txt "this") = some d →
      d.detail = .plain ∧ ∃ path, s.form d.node = .importDecl path ∧
        path.getLast? = some (txt "this") := by
  obtain ⟨owners, hl⟩ := h.exists_liesIn hsize
  rcases h.receiver?_of_liesIn hl hn with
    ⟨inner, o, outer, rfl, hreceiver, hform, hinner⟩ | ⟨hnone, hall⟩
  · have hreceives := Form.isReceiver_iff.mp hform
    have hfile : s.form o ≠ .file := by
      rcases hreceives with ho | ho <;> simp [ho]
    have hsize : o < s.size := by
      rcases hreceives with ho | ho <;> exact lt_size_of_form ho (by simp)
    have hthis {d : Declaration} (hd : s.Declares o d) (hname : d.name = txt "this") :
        ∃ m, s.tree.preorder[o]? = some m ∧ m.this? o = some d :=
      ((h.declares_this_cases hd hname).resolve_right fun himport => hfile himport.1).2
    obtain ⟨d, hdeclares, -, hname⟩ := h.declares_this hsize hreceives
    obtain ⟨m, hm, hd⟩ := hthis hdeclares hname
    refine .inl ⟨o, m, d, hreceiver, hm, hd, (h.lookup?_eq_some_iff hl _ _).mpr
      ⟨inner, o, outer, rfl, fun o' ho' d' hd' hname' => ?_, hdeclares, hname,
        fun d' hd' hname' => ?_⟩⟩
    · -- Inside of the receiver is no other, and not the file, where an import may be.
      obtain ⟨hnot, hnotFile⟩ := hinner o' ho'
      rcases h.declares_this_cases hd' hname' with ⟨hreceives, -⟩ | ⟨hfile', -⟩
      · rw [hnot] at hreceives
        cases hreceives
      · exact hnotFile hfile'
    · obtain ⟨m', hm', hd'⟩ := hthis hd' hname'
      cases hm.symm.trans hm'
      cases hd.symm.trans hd'
      exact Nat.le_refl _
  · refine .inr ⟨hnone, fun d hd => ?_⟩
    obtain ⟨inner, o, outer, rfl, -, hfirst⟩ := (h.lookup?_eq_some_iff hl _ _).mp hd
    rcases h.declares_this_cases hfirst.declares hfirst.name_eq with ⟨hreceives, -⟩ | ⟨-, himport⟩
    · rw [hall o (by simp)] at hreceives
      cases hreceives
    · exact himport

end Parsed

end Script

/-! ## Imports that are called `this` -/

/-- The last segment of a qualified name is what stands behind its last dot. -/
theorem ClassType.simpleName_eq {c : ClassType} {w : Text} (hw : byte '.' ∉ w)
    (hname : c.name = w ∨ ∃ front, c.name = front ++ (txt "." ++ w)) : c.simpleName = w := by
  have hall : ∀ b ∈ w.reverse, (b != byte '.') = true := by
    intro b hb
    simp only [List.mem_reverse] at hb
    simpa using fun heq : b = byte '.' => hw (heq ▸ hb)
  rcases hname with hname | ⟨front, hname⟩
  · rw [simpleName, hname, List.takeWhile_eq_self_iff.mpr hall, List.reverse_reverse]
  · have hreverse : c.name.reverse = w.reverse ++ (byte '.' :: front.reverse) := by
      rw [hname, (by decide : txt "." = [byte '.'])]
      simp
    rw [simpleName, hreverse, List.takeWhile_append_of_pos hall, List.takeWhile_cons]
    simp

theorem Package.qualify_cases (package name : Text) : qualify package name = name ∨
    ∃ front, qualify package name = front ++ (txt "." ++ name) := by
  rw [qualify]
  split
  · exact .inl rfl
  · exact .inr ⟨package, List.append_assoc _ _ _⟩

theorem qualifiedName_cases {path : List Text} {w : Text} (h : path.getLast? = some w) :
    qualifiedName path = w ∨ ∃ front, qualifiedName path = front ++ (txt "." ++ w) := by
  induction path with
  | nil => cases h
  | cons first rest ih =>
      cases rest with
      | nil =>
          cases h
          exact .inl rfl
      | cons second rest =>
          rw [List.getLast?_cons_cons] at h
          have hjoin : qualifiedName (first :: second :: rest) =
              first ++ (txt "." ++ qualifiedName (second :: rest)) := rfl
          rw [hjoin]
          rcases ih h with hlast | ⟨front, hlast⟩
          · exact .inr ⟨first, by rw [hlast]⟩
          · exact .inr ⟨first ++ (txt "." ++ front), by simp [hlast]⟩

namespace Environment

variable {e : Environment}

/-- A class has a name that its script gives it, behind that of its package. -/
theorem Reachable.classNamed?_declared (he : e.Reachable) {name : Text} {c : ClassType}
    (hc : e.registry.classNamed? name = some c) :
    c.name = name ∧ ∃ package w, name = Package.qualify package w ∧ w.IsDeclared := by
  rw [he.indexed.named] at hc
  have hname : c.name = name := by simpa using List.find?_some hc
  refine ⟨hname, ?_⟩
  have hmem := List.mem_of_find?_eq_some hc
  rw [he.indexed.classes] at hmem
  obtain ⟨id, -, hc⟩ := List.mem_flatMap.mp hmem
  obtain ⟨n, -, hc⟩ := List.mem_filterMap.mp hc
  obtain ⟨d, hd, hc⟩ := Option.bind_eq_some_iff.mp hc
  have hs : (e.script id).Parsed := he.script_parsed id
  obtain ⟨p, r, m, -, hm, hd⟩ := hs.listed_of_symbolFor? hd
  rw [Declaration.classType?] at hc
  split at hc
  · next qualified hdetail =>
      cases hc
      have hform := (Node.form_of_zenClass hd hdetail).1
      have hparts := hs.sorted m (List.mem_of_getElem? hm)
      obtain ⟨form, span, parts⟩ := m
      cases hform
      cases hd
      cases hdetail
      exact ⟨_, _, hname.symm, Parts.declaredName_isDeclared (fun h => by cases h) hparts⟩
  · cases hc

/-- No class is imported under the name `this`. -/
theorem Reachable.importType_this (he : e.Reachable) {path : List Text}
    (hpath : path.getLast? = some (txt "this")) : e.registry.importType path = .any := by
  rw [Registry.importType]
  split
  · next c hc =>
      obtain ⟨hname, package, w, hqualified, hw⟩ := he.classNamed?_declared hc
      have hlast : c.simpleName = txt "this" :=
        ClassType.simpleName_eq (by decide) (hname ▸ qualifiedName_cases hpath)
      have hgiven : c.simpleName = w := by
        refine ClassType.simpleName_eq hw.dot_not_mem ?_
        rw [hname, hqualified]
        exact Package.qualify_cases package w
      exact absurd (hgiven.symm.trans hlast) hw.ne_this
  · rfl

end Environment

/-! ## The type of `this` -/

theorem Entry.get?_eq_lookup (entry : Entry) (role : Role) :
    entry.get? role = entry.parts.lookup role := by
  obtain ⟨form, span, parts⟩ := entry
  rw [Entry.get?, Entry.all]
  induction parts with
  | nil => rfl
  | cons part parts ih =>
      obtain ⟨r, c⟩ := part
      rw [List.filterMap_cons, List.lookup_cons]
      by_cases hr : r = role
      · simp [hr]
      · have hne : (role == r) = false := beq_false_of_ne fun heq => hr heq.symm
        simp only [if_neg hr, hne]
        exact ih

namespace View

variable {v : View}

theorem typeOf_eq_of_pure {n : NodeRef} {t : Ty} (h : v.rule n = pure t) : v.typeOf n = t := by
  have htold := (v.typeOf_resolves n).told List.not_mem_nil
  rw [h] at htold
  exact htold.of_pure

/-- The type that a class declares has its qualified name and refers to it. -/
theorem typeOf_classDecl (hv : ∀ id, (v.script id).Parsed) {n : NodeRef}
    (hform : (v.entry n).form = .classDecl) :
    v.typeOf n = .classType
      { name := Package.qualify (v.script n.script).package
          ((v.script n.script).partName n.node .name),
        decl := some (.declared n) } := by
  have hs := hv n.script
  have hrule : v.rule n = pure (v.classType n) := by rw [rule, hform]
  obtain ⟨m, hm⟩ := hs.isOutlined.exists_node (Script.lt_size_of_form hform (by simp))
  have hmform : m.form = .classDecl := (hs.isOutlined.form_eq hm).symm.trans hform
  obtain ⟨p, r, hr⟩ := hs.exists_listed hm (by rw [hmform]; simp)
  rw [typeOf_eq_of_pure hrule, classType, hs.symbolFor?_eq hr hm, ← hs.declaredName_eq hm]
  obtain ⟨form, span, parts⟩ := m
  cases hmform
  rfl

theorem typeOf_importDecl {n : NodeRef} {path : List Text}
    (hform : (v.entry n).form = .importDecl path) : v.typeOf n = v.registry.importType path :=
  typeOf_eq_of_pure (by rw [rule, hform])

/-- A use of `this` is typed by what it means in its scope. -/
theorem rule_thisExpr {n : NodeRef} (hform : (v.entry n).form = .thisExpr) :
    v.rule n = v.symbolType?
      (((v.script n.script).lookup? n.node (txt "this")).map (.declared n.script)) := by
  rw [rule, hform]
  dsimp only
  cases (v.script n.script).lookup? n.node (txt "this") <;> rfl

/-- What an expand function adds to is a type. -/
theorem part?_target (hv : ∀ id, (v.script id).Parsed) {id : ScriptId} {o target : NodeId}
    {m : Node} (hm : (v.script id).tree.preorder[o]? = some m)
    (htarget : m.parts.idOf? .target (o + 1) = some target) :
    v.part? ⟨id, o⟩ .target = some ⟨id, target⟩ ∧ (v.entry ⟨id, target⟩).form.isType = true := by
  have hpart : v.part? ⟨id, o⟩ .target = some ⟨id, target⟩ := by
    rw [part?, Entry.get?_eq_lookup, entry, (hv id).isOutlined.entry_eq hm]
    exact congrArg (Option.map fun c => (⟨id, c⟩ : NodeRef)) htarget
  exact ⟨hpart, (hv id).belongsTo (mem_parts_of_part? hpart).2⟩

end View

namespace Environment

variable {e : Environment}

/-- A use of `this` has the type of the nearest receiver above it, whatever lies in between: the
type of a class, or the type that an expand function adds to. Outside of all receivers it is
`any`. -/
theorem this_denotes_receiver (he : e.Reachable) {n : NodeRef}
    (hn : (e.view.entry n).form = .thisExpr) :
    (∀ o, (e.script n.script).receiver? n.node = some o →
      (e.script n.script).form o = .classDecl ∧ e.view.typeOf n = .classType
        { name := Package.qualify (e.script n.script).package
            ((e.script n.script).partName o .name),
          decl := some (.declared ⟨n.script, o⟩) } ∨
      (e.script n.script).form o = .expandFuncDecl ∧
        ∃ target, e.view.part? ⟨n.script, o⟩ .target = some target ∧
          (e.view.entry target).form.isType = true ∧ e.view.typeOf n = e.view.typeOf target) ∧
    ((e.script n.script).receiver? n.node = none → e.view.typeOf n = .any) := by
  have hv : ∀ id, (e.view.script id).Parsed := he.script_parsed
  have hentry : (e.view.script n.script).form n.node = .thisExpr := hn
  have hrule := View.rule_thisExpr hn
  rcases (hv n.script).lookup?_this (Script.lt_size_of_form hentry (by simp))
    (by rw [hentry]; rfl) with ⟨o, m, d, hreceiver, hm, hd, hlookup⟩ | ⟨hnone, himport⟩
  · refine ⟨fun o' ho' => ?_, fun hnone => by cases hreceiver.symm.trans hnone⟩
    cases hreceiver.symm.trans ho'
    rw [hlookup] at hrule
    have hform := (hv n.script).isOutlined.form_eq hm
    obtain ⟨form, span, parts⟩ := m
    cases form with
    | classDecl =>
        cases hd
        exact .inl ⟨hform, (View.typeOf_eq_of_rule hrule).trans (View.typeOf_classDecl hv hform)⟩
    | expandFuncDecl =>
        obtain ⟨target, htarget, rfl⟩ := Option.map_eq_some_iff.mp hd
        obtain ⟨hpart, htype⟩ := View.part?_target hv hm htarget
        exact .inr ⟨hform, ⟨n.script, target⟩, hpart, htype, View.typeOf_eq_of_rule hrule⟩
    | _ => cases hd
  · refine ⟨fun o ho => (by cases hnone.symm.trans ho), fun _ => ?_⟩
    cases hlookup : (e.view.script n.script).lookup? n.node (txt "this") with
    | none =>
        rw [hlookup] at hrule
        exact View.typeOf_eq_of_pure hrule
    | some d =>
        obtain ⟨hdetail, path, hform, hlast⟩ := himport d hlookup
        have hthis : e.view.rule n = Inquiry.typeOf ⟨n.script, d.node⟩ := by
          rw [hrule, hlookup, Option.map_some, View.symbolType?, View.symbolType, hdetail]
        rw [View.typeOf_eq_of_rule hthis, View.typeOf_importDecl (n := ⟨n.script, d.node⟩) hform]
        exact he.importType_this hlast

/-- A class inside of an expand function, with a default value, a lambda and a loop in between, and
next to them an import that is called `this`. -/
def nestedReceivers : Environment :=
  ((({ root := txt "scripts" } : Environment).intern
    (Script.parse (txt "a") (txt "scripts.a")
      (txt "import q.this;$expand string$f(x as any=this)\x7b" ++
        txt "zenClass C\x7bvar g=function()\x7bthis;\x7d;\x7d" ++
        txt "for i in [1]\x7bthis;\x7d\x7dthis;"))).2).replace 0

theorem nestedReceivers_this_denotes_receiver :
    nestedReceivers.Reachable ∧
    (∀ n ∈ [8, 17, 24, 26], (nestedReceivers.view.entry ⟨0, n⟩).form = .thisExpr) ∧
    (nestedReceivers.script 0).receiver? 8 = some 2 ∧
    (nestedReceivers.script 0).receiver? 17 = some 10 ∧
    (nestedReceivers.script 0).receiver? 24 = some 2 ∧
    (nestedReceivers.script 0).receiver? 26 = none ∧
    nestedReceivers.view.typeOf ⟨0, 8⟩ = nestedReceivers.view.typeOf ⟨0, 3⟩ ∧
    nestedReceivers.view.typeOf ⟨0, 17⟩ =
      .classType ⟨txt "scripts.a.C", some (.declared ⟨0, 10⟩)⟩ ∧
    nestedReceivers.view.typeOf ⟨0, 24⟩ = nestedReceivers.view.typeOf ⟨0, 3⟩ ∧
    nestedReceivers.view.typeOf ⟨0, 26⟩ = .any := by
  have he : nestedReceivers.Reachable := .replace (.read _ _ _ (.new _)) (by decide)
  obtain ⟨hform, hdefault, hlambda, hloop, houtside, hexpand, hclass, htarget, hname⟩ :
      (∀ n ∈ [8, 17, 24, 26], (nestedReceivers.view.entry ⟨0, n⟩).form = .thisExpr) ∧
      (nestedReceivers.script 0).receiver? 8 = some 2 ∧
      (nestedReceivers.script 0).receiver? 17 = some 10 ∧
      (nestedReceivers.script 0).receiver? 24 = some 2 ∧
      (nestedReceivers.script 0).receiver? 26 = none ∧
      (nestedReceivers.script 0).form 2 = .expandFuncDecl ∧
      (nestedReceivers.script 0).form 10 = .classDecl ∧
      nestedReceivers.view.part? ⟨0, 2⟩ .target = some ⟨0, 3⟩ ∧
      Package.qualify (nestedReceivers.script 0).package
        ((nestedReceivers.script 0).partName 10 .name) = txt "scripts.a.C" := by
    decide +kernel
  have hstring {n : NodeId} (hn : n ∈ [8, 17, 24, 26])
      (hreceiver : (nestedReceivers.script 0).receiver? n = some 2) :
      nestedReceivers.view.typeOf ⟨0, n⟩ = nestedReceivers.view.typeOf ⟨0, 3⟩ := by
    rcases (this_denotes_receiver he (hform n hn)).1 2 hreceiver with
      ⟨hform, -⟩ | ⟨-, target, hpart, -, htype⟩
    · cases hform.symm.trans hexpand
    · cases hpart.symm.trans htarget
      exact htype
  refine ⟨he, hform, hdefault, hlambda, hloop, houtside, hstring (by simp) hdefault, ?_,
    hstring (by simp) hloop, (this_denotes_receiver he (hform 26 (by simp))).2 houtside⟩
  rcases (this_denotes_receiver he (hform 17 (by simp))).1 10 hlambda with
    ⟨-, htype⟩ | ⟨hform, -⟩
  · exact htype.trans (by rw [hname])
  · cases hform.symm.trans hclass

end Environment

end Zensight
