import Zensight.Proofs.Defaults
import Zensight.Proofs.Spans
import Zensight.Proofs.Symbols
import Zensight.Query.Declarations

/-!
# The listing of declarations

The listing of a script goes through its nodes by their numbers. Which nodes declare something is
told by their forms and the roles they play (`Form.symbolKind?`), and in a script without faults
none of them lacks a name, so the listing has them all, each of them once.

The order of the numbers is that of the tree. A declaration starts with a token of its own, before
everything below it that declares something, and the parts of a node stand one behind the other;
so below the file the listing is in the order of the script. The file itself is the exception:
wherever they stand, its imports are numbered before its statements.
-/

namespace Zensight

/-! ## Nodes in their roles -/

mutual

/-- The nodes of a tree with the roles they play, in the order of their numbers. -/
def Node.inRoles (role : Role) : Node → List (Role × Node)
  | .mk form span parts => (role, .mk form span parts) :: parts.inRoles

def Parts.inRoles : Parts → List (Role × Node)
  | .nil => []
  | .cons role node rest => node.inRoles role ++ rest.inRoles

end

mutual

theorem Node.map_snd_inRoles (role : Role) : (n : Node) → (n.inRoles role).map (·.2) = n.preorder
  | .mk form span parts => by
    rw [Node.inRoles, Node.preorder, List.map_cons, parts.map_snd_inRoles]

theorem Parts.map_snd_inRoles : (ps : Parts) → ps.inRoles.map (·.2) = ps.preorder
  | .nil => rfl
  | .cons role node rest => by
    rw [Parts.inRoles, Parts.preorder, List.map_append, node.map_snd_inRoles,
      rest.map_snd_inRoles]

end

theorem Node.length_inRoles (role : Role) (n : Node) : (n.inRoles role).length = n.size := by
  rw [← n.length_preorder, ← n.map_snd_inRoles role, List.length_map]

theorem Node.inRoles_eq (role : Role) (n : Node) :
    n.inRoles role = (role, n) :: n.parts.inRoles := by
  cases n
  rfl

theorem Parts.mem_inRoles {x : Role × Node} : (ps : Parts) → x ∈ ps.inRoles →
    ∃ part ∈ ps.toList, x ∈ part.2.inRoles part.1
  | .nil, h => by cases h
  | .cons role node rest, h => by
    rw [Parts.inRoles, List.mem_append] at h
    rw [Parts.toList]
    rcases h with h | h
    · exact ⟨(role, node), List.mem_cons_self, h⟩
    · obtain ⟨part, hpart, hx⟩ := rest.mem_inRoles h
      exact ⟨part, List.mem_cons_of_mem _ hpart, hx⟩

/-- The nodes below the root are numbered from 1 on. -/
theorem Node.getElem?_inRoles {tree : Node} {x : (Role × Node) × Nat}
    (hx : x ∈ tree.parts.inRoles.zipIdx 1) : tree.preorder[x.2]? = some x.1.2 := by
  obtain ⟨form, span, parts⟩ := tree
  obtain ⟨hle, hat⟩ := List.mem_zipIdx_iff_le_and_getElem?_sub.mp hx
  obtain ⟨k, hk⟩ := Nat.exists_eq_add_of_le' hle
  rw [hk, Nat.add_sub_cancel] at hat
  rw [hk, Node.preorder, List.getElem?_cons_succ, ← parts.map_snd_inRoles, List.getElem?_map]
  exact congrArg (Option.map (·.2)) hat

theorem Parts.inRoles_ofList_append (parts others : List (Role × Node)) :
    (ofList (parts ++ others)).inRoles = (ofList parts).inRoles ++ (ofList others).inRoles := by
  induction parts with
  | nil => rfl
  | cons part parts ih =>
      rw [List.cons_append, ofList, ofList, inRoles, inRoles, ih, List.append_assoc]

/-! ## What nodes declare -/

theorem Node.symbol?_eq (package : Text) (role : Role) (id : NodeId) (n : Node) :
    (n.symbol? package role id).map (fun d => (d.kind, d.name)) =
      (n.form.symbolKind? role).map fun kind => (kind, n.givenName) := by
  obtain ⟨form, span, parts⟩ := n
  cases form with
  | ident name =>
      simp only [symbol?, declaration?, Node.form, Form.symbolKind?]
      split <;> rfl
  | _ => rfl

/-! ## Names -/

/-- The name that the form takes from the parts is there. -/
def Form.Names (parts : Parts) : Form → Prop
  | importDecl path => Rule.isPlaceholder (importName path parts) = false
  | varDecl _ | param | funcDecl _ | expandFuncDecl | classDecl =>
    Rule.isPlaceholder parts.declaredName = false
  | _ => True

/-- What the node declares has a name. -/
def Node.IsNamed (n : Node) : Prop := n.form.Names n.parts

@[simp] theorem Node.isNamed_of {form : Form} {span : Span} {parts : List (Role × Node)} :
    (Node.of form span parts).IsNamed ↔ form.Names (.ofList parts) := Iff.rfl

@[simp] theorem Node.isNamed_leaf {form : Form} {span : Span} :
    (Node.leaf form span).IsNamed ↔ form.Names .nil := Iff.rfl

@[simp] theorem Token.nameNode_isNamed (t : Token) : t.nameNode.All Node.IsNamed := by
  rw [nameNode, Node.all_leaf]
  trivial

theorem Token.literal_genuine {t : Token} (hs : t.kind.Spells t.literal)
    (hk : t.kind = .ident ∨ t.kind.isKeyword = true) : Rule.isPlaceholder t.literal = false :=
  Node.all_leaf.mp (nameNode_genuine hs hk)

@[simp] theorem Parts.declaredName_cons (t : Token) (parts : Parts) :
    (Parts.cons .name t.nameNode parts).declaredName = t.literal := rfl

@[simp] theorem Parts.declaredName_target (target : Node) (parts : Parts) :
    (Parts.cons .target target parts).declaredName = parts.declaredName := rfl

/-- The last segment of the path of an import is a word. -/
theorem ImportPath.last_genuine {ts : List Token} {path : List Text} (h : ImportPath ts path)
    (hs : Spelt ts) : Rule.isPlaceholder (path.getLast?.getD []) = false := by
  cases h with
  | one hk => exact Token.literal_genuine (spelt_cons.mp hs).1 (.inl hk)
  | @more ts path dot t _ _ hname =>
      rw [List.getLast?_concat]
      exact Token.literal_genuine (hs t (by simp)) hname.isWord

/-- An import has the name behind `as`, or else the last segment of its path. -/
theorem importName_genuine {ls : List Token} {localName : List Node} {path : List Text}
    (h : Reads (.behind .kwAs .name) ls localName) (hs : Spelt ls)
    (hpath : Rule.isPlaceholder (path.getLast?.getD []) = false) :
    Rule.isPlaceholder (Form.importName path (.ofList (Rule.several .localName localName))) =
      false := by
  cases h with
  | behindNone => exact hpath
  | behindSome _ _ hname =>
      cases hname with
      | name hk => exact Token.literal_genuine (spelt_cons.mp (spelt_cons.mp hs).2).1 (.inl hk)

/-- In a script without faults every declaration has its name. -/
theorem Reads.named {p : Phrase} {ts : List Token} {ns : List Node} (h : Reads p ts ns) :
    Spelt ts → ∀ n ∈ ns, n.All Node.IsNamed := by
  induction h with
  | param | varDecl | funcDecl | staticFuncDecl | expandFuncDecl =>
      simp_all [Form.Names, Parts.ofList, Token.literal_genuine, or_imp, forall_and]
  | classDecl _ ht =>
      have hword := ht.imp_right Token.Kind.isKeyword_of_isPrimitive
      simp_all [Form.Names, Parts.ofList, Token.literal_genuine, or_imp, forall_and]
  | importing _ hpath hls =>
      intro hs
      have hname := importName_genuine hls (by simp_all) (hpath.last_genuine (by simp_all))
      simp_all [Form.Names]
  | _ => simp_all [Form.Names, or_imp, forall_and]

/-- Only an identifier that is a placeholder, or a declaration without its name, lacks a name. -/
theorem Node.givenName_genuine {n : Node} {role : Role} (hnamed : n.IsNamed) (hgenuine : n.IsGenuine)
    (h : (n.form.symbolKind? role).isSome = true) : Rule.isPlaceholder n.givenName = false := by
  obtain ⟨form, span, parts⟩ := n
  cases form with
  | importDecl _ | varDecl _ | param | funcDecl _ | expandFuncDecl | classDecl => exact hnamed
  | ident _ => exact hgenuine
  | operatorDecl _ => exact Operator.name_genuine _
  | constructorDecl => rfl
  | _ => cases h

theorem Text.parse_givenName {source : Text} (h : source.parse.2.hasErrors = false) {n : Node}
    (hn : n ∈ source.parse.1.preorder) {role : Role}
    (hdeclares : (n.form.symbolKind? role).isSome = true) : Rule.isPlaceholder n.givenName = false := by
  obtain ⟨body, eof, -, -, hspelt, -, hreads⟩ := Text.parse_reads h
  have hnamed : source.parse.1.All Node.IsNamed :=
    hreads.all (fun _ _ => trivial) fun hp hsub => hp.named fun t ht => hspelt t (hsub ht)
  exact Node.givenName_genuine (hnamed n hn) (hreads.genuine hspelt n hn) hdeclares

/-! ## Order below the file -/

/-- What a node of the tree has to be for the order of what is declared. -/
structure Node.Orderly (n : Node) : Prop where
  form_ne : n.form ≠ .file
  nests : n.Nests
  /-- A declaration starts before its parts, but a parameter begins with its name. -/
  ahead : ∀ role, (n.form.symbolKind? role).isSome = true → ∀ part ∈ n.parts.toList,
    part.1 = .name ∨ n.span.start.isBefore part.2.span.start = true
  /-- A name is an identifier. -/
  names : ∀ part ∈ n.parts.toList, part.1 = .name →
    (∃ w, part.2.form = .ident w) ∧ part.2.parts.toList = []

/-- If both declare something, the first starts before the second. -/
def Ordered (x y : Role × Node) : Prop :=
  (x.2.form.symbolKind? x.1).isSome = true → (y.2.form.symbolKind? y.1).isSome = true →
    x.2.span.start.isBefore y.2.span.start = true

theorem Parts.inRoles_of_toList_nil : (ps : Parts) → ps.toList = [] → ps.inRoles = []
  | .nil, _ => rfl
  | .cons _ _ _, h => by cases h

theorem Parts.preorder_subset {part : Role × Node} : (ps : Parts) → part ∈ ps.toList →
    part.2.preorder ⊆ ps.preorder
  | .nil, h => by cases h
  | .cons role node rest, h => by
    rw [Parts.preorder]
    rcases List.mem_cons.mp h with rfl | h
    · exact List.subset_append_left _ _
    · exact List.Subset.trans (rest.preorder_subset h) (List.subset_append_right _ _)

theorem Node.All.part {P : Node → Prop} {n : Node} (h : n.All P) {part : Role × Node}
    (hpart : part ∈ n.parts.toList) : part.2.All P := by
  obtain ⟨form, span, parts⟩ := n
  exact fun m hm => h m (List.mem_cons_of_mem _ (parts.preorder_subset hpart hm))

theorem Node.All.below {P : Node → Prop} {n m : Node} (h : n.All P) (hm : m ∈ n.preorder) :
    m.All P := by
  obtain ⟨j, hj⟩ := List.getElem?_of_mem hm
  obtain ⟨before, after, hsplit, -⟩ := n.preorder_stretch hj
  intro k hk
  exact h k (by rw [hsplit]; simp [hk])

/-- What holds of a node and passes from each node below to its parts holds of them all. -/
theorem Node.forall_preorder {P : Node → Prop} {n : Node} (hn : P n)
    (hstep : ∀ m ∈ n.preorder, P m → ∀ part ∈ m.parts.toList, P part.2) :
    ∀ m ∈ n.preorder, P m := by
  have hall (c : Nat) : ∀ m, n.preorder[c]? = some m → P m := by
    induction c using Nat.strongRecOn with
    | ind c ih =>
        intro m hm
        rcases Nat.eq_zero_or_pos c with rfl | hpos
        · cases (n.getElem?_preorder_zero).symm.trans hm
          exact hn
        · have hlt : c < n.size := n.length_preorder ▸ (List.getElem?_eq_some_iff.mp hm).1
          obtain ⟨p, r, hlists⟩ := n.exists_lists hpos hlt
          obtain ⟨hp, owner, child, howner, hchild, hpart⟩ := hlists.part
          cases hm.symm.trans hchild
          exact hstep owner (List.mem_of_getElem? howner) (ih p hp owner howner) _ hpart
  intro m hm
  obtain ⟨c, hc⟩ := List.getElem?_of_mem hm
  exact hall c m hc

theorem Node.Nests.row {n : Node} (h : n.Nests) (hform : n.form ≠ .file) :
    n.children.Pairwise fun a b => a.span.Precedes b.span := by
  have hgroups : n.groups = [n.children] := by
    rw [groups]
    split
    · next hfile => exact absurd hfile hform
    · rfl
  exact h.ordered _ (by rw [hgroups]; exact List.mem_cons_self)

/-- All nodes of a tree start inside its span. -/
theorem Node.start_inside {n : Node} (h : n.All Node.Nests) {role : Role} {x : Role × Node}
    (hx : x ∈ n.inRoles role) :
    n.span.start ≤ x.2.span.start ∧ x.2.span.start.isBefore n.span.stop = true := by
  have hmem : x.2 ∈ n.preorder := by
    rw [← n.map_snd_inRoles role]
    exact List.mem_map_of_mem hx
  have hinside := Node.forall_preorder (P := fun m => m.span.Inside n.span)
    ⟨Place.le_refl _, Place.le_refl _⟩ (fun m hm hin part hpart => ?_) x.2 hmem
  · exact ⟨hinside.1, Place.isBefore_of_not (h x.2 hmem).nonempty hinside.2⟩
  · have hpart := (h m hm).inside part.2 (List.mem_map_of_mem hpart)
    exact ⟨Place.le_trans hin.1 hpart.1, Place.le_trans hpart.2 hin.2⟩

theorem Node.Orderly.before_parts {n : Node} (h : n.Orderly) (hall : n.All Node.Nests) {role : Role}
    {y : Role × Node} (hy : y ∈ n.parts.inRoles) : Ordered (role, n) y := by
  intro hn hdeclares
  obtain ⟨part, hpart, hy⟩ := n.parts.mem_inRoles hy
  rcases h.ahead role hn part hpart with hname | hahead
  · -- A name declares nothing, and there is nothing below it.
    obtain ⟨⟨w, hident⟩, hleaf⟩ := h.names part hpart hname
    rw [part.2.inRoles_eq, Parts.inRoles_of_toList_nil _ hleaf, hname] at hy
    cases List.mem_singleton.mp hy
    rw [hident] at hdeclares
    cases hdeclares
  · exact Place.isBefore_of_not hahead (Node.start_inside (hall.part hpart) hy).1

mutual

theorem Node.inRoles_ordered : (n : Node) → (role : Role) → n.All Node.Orderly →
    (n.inRoles role).Pairwise Ordered
  | .mk form span parts, role, h => by
    have hself : (Node.mk form span parts).Orderly := h _ List.mem_cons_self
    rw [Node.inRoles]
    refine .cons (fun y hy => hself.before_parts (fun m hm => (h m hm).nests) hy) ?_
    exact parts.inRoles_ordered (fun part hpart => h.part hpart) (hself.nests.row hself.form_ne)

theorem Parts.inRoles_ordered : (ps : Parts) → (∀ part ∈ ps.toList, part.2.All Node.Orderly) →
    ((ps.toList.map (·.2)).Pairwise fun a b => a.span.Precedes b.span) →
    ps.inRoles.Pairwise Ordered
  | .nil, _, _ => .nil
  | .cons role node rest, h, hrow => by
    rw [Parts.toList] at h
    rw [Parts.toList, List.map_cons, List.pairwise_cons] at hrow
    obtain ⟨hnode, hrest⟩ := List.forall_mem_cons.mp h
    rw [Parts.inRoles, List.pairwise_append]
    refine ⟨node.inRoles_ordered role hnode, rest.inRoles_ordered hrest hrow.2,
      fun x hx y hy _ _ => ?_⟩
    obtain ⟨part, hpart, hy⟩ := rest.mem_inRoles hy
    have hnests {n : Node} (h : n.All Node.Orderly) : n.All Node.Nests := fun m hm => (h m hm).nests
    have hx := Node.start_inside (hnests hnode) hx
    have hy := Node.start_inside (hnests (hrest part hpart)) hy
    have hle := hrow.1 part.2 (List.mem_map_of_mem hpart)
    exact Place.isBefore_of_not hx.2 (Place.le_trans hle hy.1)

end

/-! ## Scripts without faults -/

/-- A token starts before all nodes on the tokens behind it. -/
theorem Row.start_after {t : Token} {rest : List Token} {ns : List Node} (h : Row rest ns)
    (hl : Laid (t :: rest)) (hok : t.kind ≠ .illegal) :
    ∀ c ∈ ns, t.place.isBefore c.span.start = true := by
  intro c hc
  obtain ⟨-, us, hsub, first, _, hfirst, _, _, hspan⟩ :=
    (h.holds (hl.sublist (List.sublist_cons_self t rest))).mem c hc
  have hmem := hsub.subset (List.mem_of_mem_head? hfirst)
  rw [hspan]
  exact Place.isBefore_of_not (hl.wide t List.mem_cons_self hok)
    (((List.pairwise_cons.mp hl.inOrder).1 first hmem).ends hok)

/-- An identifier has no parts. -/
theorem Form.Fits.ident {form : Form} {w : Text} {parts : List (Role × Node)} (h : form.Fits parts)
    (hform : form = .ident w) : parts = [] := by
  refine List.eq_nil_iff_forall_not_mem.mpr fun part hpart => ?_
  have hadmits := h.admits part hpart
  rw [hform] at hadmits
  cases hadmits

theorem Node.StandsOn.ahead {n : Node} {us : List Token} (h : n.StandsOn us) (hl : Laid us)
    (hfits : n.form.Fits n.parts.toList) {role : Role}
    (hdeclares : (n.form.symbolKind? role).isSome = true) :
    ∀ part ∈ n.parts.toList, part.1 = .name ∨ n.span.start.isBefore part.2.span.start = true := by
  intro part hpart
  cases h with
  | led _ hok hrow =>
      rw [Node.of, Node.parts, Parts.toList_ofList] at hpart
      refine .inr ?_
      rw [Node.of, Node.span, Span.ofTokens, Span.start_reaching]
      exact hrow.start_after hl hok part.2 (List.mem_map_of_mem hpart)
  | param hok hrow =>
      rw [Node.of, Node.parts, Parts.toList_ofList] at hpart
      rcases List.mem_cons.mp hpart with rfl | hpart
      · exact .inl rfl
      · refine .inr ?_
        rw [Node.of, Node.span, Span.ofTokens, Span.start_reaching]
        exact hrow.start_after hl hok part.2 (List.mem_map_of_mem hpart)
  | handler => cases hdeclares
  | @plain _ form span parts hplain =>
      -- Of these only an identifier may declare something, and it has no parts.
      cases form with
      | ident _ =>
          rw [hfits.ident rfl] at hpart
          cases hpart
      | _ => first | exact Bool.noConfusion hdeclares | exact Bool.noConfusion hplain

/-- The nodes below the file of a script without faults. -/
theorem ReadsFile.orderly {body : List Token} {eof : Token} {tree : Node}
    (h : ReadsFile body eof tree) (hstands : Token.Stands body eof) (hfile : tree.IsFile)
    (hsorted : tree.Sorted) : ∀ part ∈ tree.parts.toList, part.2.All Node.Orderly := by
  intro part hpart m hm
  have hmem : m ∈ tree.preorder := by
    obtain ⟨form, span, parts⟩ := tree
    exact List.mem_cons_of_mem _ (parts.preorder_subset hpart hm)
  have hfits := hfile.shaped part hpart m hm
  obtain ⟨us, hrun, hon⟩ := h.made tree List.mem_cons_self m hmem
  refine ⟨fun hform => ?_, h.nests hstands m hmem, fun role hdeclares => ?_,
    fun name hname hrole => ?_⟩
  · have hrequires := hfits.requires
    rw [hform] at hrequires
    exact hrequires
  · exact hon.ahead (hstands.laid.sublist hrun.sublist) hfits hdeclares
  · obtain ⟨w, hident⟩ := (hsorted m hmem name hname).exists_ident (.inl hrole)
    have hshaped := ((hfile.shaped part hpart).below hm).part hname
    exact ⟨⟨w, hident⟩, hshaped.self.ident hident⟩

/-! ## Imports and the rest -/

/-- An import declares itself, and nothing below it declares anything. -/
theorem Node.importing_of_inRoles {n : Node} {path : List Text} (hform : n.form = .importDecl path)
    (hsorted : n.Sorted) (hshaped : n.Shaped) {role : Role} {x : Role × Node}
    (hx : x ∈ n.inRoles role) : ∀ kind ∈ x.2.form.symbolKind? x.1, kind = .importing := by
  rw [n.inRoles_eq] at hx
  rcases List.mem_cons.mp hx with rfl | hx
  · rw [hform]
    rintro kind ⟨⟩
    rfl
  · obtain ⟨part, hpart, hx⟩ := n.parts.mem_inRoles hx
    have hrole : part.1 = .localName := by
      have hadmits := hshaped.self.admits part hpart
      rw [hform] at hadmits
      simpa [Form.admits, Form.roles] using hadmits
    obtain ⟨w, hident⟩ := (hsorted.self part hpart).exists_ident (.inr hrole)
    rw [part.2.inRoles_eq, Parts.inRoles_of_toList_nil _ ((hshaped.part hpart).self.ident hident),
      hrole] at hx
    cases List.mem_singleton.mp hx
    rw [hident]
    intro kind hkind
    cases hkind

/-- There are no imports below a statement. -/
theorem Node.not_importing_of_inRoles {n : Node} (hform : n.form.isStatement = true)
    (hsorted : n.Sorted) (hshaped : n.Shaped) {role : Role} {x : Role × Node}
    (hx : x ∈ n.inRoles role) : x.2.form.symbolKind? x.1 ≠ some .importing := by
  have hmem : x.2 ∈ n.preorder := by
    rw [← n.map_snd_inRoles role]
    exact List.mem_map_of_mem hx
  have hnot := Node.forall_preorder (P := fun m => ∀ path, m.form ≠ .importDecl path)
    (fun path h => by rw [h] at hform; cases hform) (fun m hm _ part hpart path h => ?_) x.2 hmem
  · intro hkind
    generalize x.2.form = form, x.1 = role' at hkind hnot
    cases form with
    | importDecl path => exact hnot path rfl
    | ident _ =>
        rw [Form.symbolKind?] at hkind
        split at hkind <;> cases hkind
    | _ => cases hkind
  · have hbelongs := hsorted m hm part hpart
    rw [h] at hbelongs
    have hadmits := (hshaped m hm).admits part hpart
    rw [Form.role_of_expects.1 hbelongs.eq_importing] at hadmits
    have hrequires := (hshaped m hm).requires
    rw [Form.eq_file hadmits] at hrequires
    exact hrequires

/-- Below the file come the imports in order and then the rest in order. -/
structure SplitsImports (xs : List (Role × Node)) (imports others : List (Role × Node)) : Prop where
  eq_append : xs = imports ++ others
  importing : ∀ x ∈ imports, ∀ kind ∈ x.2.form.symbolKind? x.1, kind = .importing
  not_importing : ∀ x ∈ others, x.2.form.symbolKind? x.1 ≠ some .importing
  imports_ordered : imports.Pairwise Ordered
  others_ordered : others.Pairwise Ordered

theorem ReadsFile.splitsImports {body : List Token} {eof : Token} {tree : Node}
    (h : ReadsFile body eof tree) (hstands : Token.Stands body eof) (hfile : tree.IsFile)
    (hsorted : tree.Sorted) : ∃ imports others, SplitsImports tree.parts.inRoles imports others := by
  have horderly := h.orderly hstands hfile hsorted
  have hshaped := hfile.shaped
  have hbelongs := hsorted.self
  have hbelow (part) (hpart : part ∈ tree.parts.toList) : part.2.Sorted := hsorted.part hpart
  cases h with
  | @intro imports stmts _ htop =>
      obtain ⟨himports, hstmts, -⟩ := htop.row hstands.laid
      simp only [Node.of, Node.parts, Parts.toList_ofList, Node.form] at horderly hshaped hbelongs hbelow
      refine ⟨_, _, Parts.inRoles_ofList_append _ _, fun x hx => ?_, fun x hx => ?_, ?_, ?_⟩
      · obtain ⟨⟨role, n⟩, hpart, hx⟩ := Parts.mem_inRoles _ hx
        rw [Parts.toList_ofList] at hpart
        obtain ⟨rfl, -⟩ := Rule.mem_several.mp hpart
        have hpart := List.mem_append_left (Rule.several .statement stmts) hpart
        obtain ⟨path, hform⟩ := hbelongs _ hpart
        exact Node.importing_of_inRoles hform (hbelow _ hpart) (hshaped _ hpart) hx
      · obtain ⟨⟨role, n⟩, hpart, hx⟩ := Parts.mem_inRoles _ hx
        rw [Parts.toList_ofList] at hpart
        obtain ⟨rfl, -⟩ := Rule.mem_several.mp hpart
        have hpart := List.mem_append_right (Rule.several .importing imports) hpart
        exact Node.not_importing_of_inRoles (hbelongs _ hpart) (hbelow _ hpart) (hshaped _ hpart) hx
      · refine Parts.inRoles_ordered _ (fun part hpart => ?_) ?_ <;> rw [Parts.toList_ofList] at *
        · exact horderly part (List.mem_append_left _ hpart)
        · rw [Rule.map_snd_several]
          exact himports.pairwise hstands.laid
      · refine Parts.inRoles_ordered _ (fun part hpart => ?_) ?_ <;> rw [Parts.toList_ofList] at *
        · exact horderly part (List.mem_append_right _ hpart)
        · rw [Rule.map_snd_several]
          exact hstmts.pairwise hstands.laid

/-! ## The listing -/

section

variable {tree : Node}

mutual

/-- The nodes in their roles are those of the tree. -/
theorem Node.plays_inRoles : (n : Node) → {role : Role} → {id : Nat} →
    tree.Plays id role n → ∀ x ∈ (n.inRoles role).zipIdx id, tree.Plays x.2 x.1.1 x.1.2
  | .mk form span parts, role, id, hn => by
    have hbelow : parts.Stand tree.Plays (id + 1) := Node.plays_parts hn.1
    rw [Node.inRoles, List.zipIdx_cons]
    exact List.forall_mem_cons.mpr ⟨hn, parts.plays_inRoles hbelow⟩

theorem Parts.plays_inRoles : (ps : Parts) → {id : Nat} → ps.Stand tree.Plays id →
    ∀ x ∈ ps.inRoles.zipIdx id, tree.Plays x.2 x.1.1 x.1.2
  | .nil, _, _ => by
    rw [Parts.inRoles]
    simp
  | .cons role node rest, id, hps => by
    rw [Parts.inRoles, List.zipIdx_append, node.length_inRoles]
    exact List.forall_mem_append.mpr
      ⟨node.plays_inRoles hps.cons.1, rest.plays_inRoles hps.cons.2⟩

end

end

/-- Stands before the other declaration in the script. -/
def Declared.Before (a b : Declared) : Prop := a.place.isBefore b.place = true

namespace Environment

variable {e : Environment} {id : ScriptId} {path package source : Text}

/-- What the listing has for a node in its role, with its number. -/
def listing? (e : Environment) (id : ScriptId) (x : (Role × Node) × Nat) : Option Declared :=
  (x.1.2.form.symbolKind? x.1.1).map fun kind =>
    { place := x.1.2.span.start, kind, name := x.1.2.givenName, type := e.view.typeOf ⟨id, x.2⟩ }

/-- The nodes of a script without faults and what is listed for them. -/
theorem declared?_eq_listing? (hs : e.script id = Script.parse path package source)
    (h : source.parse.2.hasErrors = false) :
    ∀ x ∈ source.parse.1.parts.inRoles.zipIdx 1, e.declared? ⟨id, x.2⟩ = e.listing? id x := by
  intro x hx
  have hparsed : (e.script id).Parsed := ⟨path, package, source, hs⟩
  have htree : (e.script id).tree = source.parse.1 := by rw [hs]; rfl
  have hsymbol : (e.script id).symbolFor? x.2 = x.1.2.symbol? (e.script id).package x.1.1 x.2 := by
    obtain ⟨hm, p, hlists⟩ := source.parse.1.parts.plays_inRoles
      (Node.plays_parts source.parse.1.getElem?_preorder_zero) x hx
    rw [← htree] at hm hlists
    exact hparsed.symbolFor?_eq (hparsed.isOutlined.mem_parts_iff.mpr hlists) hm
  have hnode := Node.getElem?_inRoles hx
  have hspan : (e.script id).entry x.2 = x.1.2.entryAt x.2 :=
    hparsed.isOutlined.entry_eq (by rw [htree]; exact hnode)
  have hkind := x.1.2.symbol?_eq (e.script id).package x.1.1 x.2
  rw [declared?, hsymbol, listing?]
  dsimp only
  rw [hspan]
  cases hdeclares : x.1.2.form.symbolKind? x.1.1 with
  | none =>
      rw [hdeclares, Option.map_none, Option.map_eq_none_iff] at hkind
      rw [hkind]
      rfl
  | some kind =>
      rw [hdeclares, Option.map_some, Option.map_eq_some_iff] at hkind
      obtain ⟨d, hd, hpair⟩ := hkind
      obtain ⟨rfl, hname⟩ := Prod.mk.inj hpair
      have hgenuine := source.parse_givenName h (List.mem_of_getElem? hnode) (by rw [hdeclares]; rfl)
      rw [hd, Option.bind_eq_bind, Option.bind_some, hname, hgenuine]
      rfl

theorem declarations_eq (hs : e.script id = Script.parse path package source)
    (h : source.parse.2.hasErrors = false) :
    e.declarations id = (source.parse.1.parts.inRoles.zipIdx 1).filterMap (e.listing? id) := by
  have hparsed : (e.script id).Parsed := ⟨path, package, source, hs⟩
  have htree : (e.script id).tree = source.parse.1 := by rw [hs]; rfl
  have hroot : e.declared? ⟨id, 0⟩ = none := by
    have hnone : (e.script id).symbolFor? 0 = none := by
      rw [Script.symbolFor?, hparsed.noted.root]
      rfl
    rw [declared?, hnone]
    rfl
  have hsize : source.parse.1.parts.size = source.parse.1.parts.inRoles.length := by
    rw [← Parts.length_preorder, ← Parts.map_snd_inRoles, List.length_map]
  rw [declarations, Script.nodes, hparsed.isOutlined.size_eq, htree, Node.size_eq,
    List.range_eq_range', List.range'_succ, List.filterMap_cons, hroot, hsize,
    ← List.zipIdx_map_snd, List.filterMap_map]
  exact List.filterMap_congr (declared?_eq_listing? hs h)

theorem pairwise_listing? {xs : List (Role × Node)} (h : xs.Pairwise Ordered) (i : Nat) :
    ((xs.zipIdx i).filterMap (e.listing? id)).Pairwise Declared.Before := by
  rw [← List.zipIdx_map_fst i xs, List.pairwise_map] at h
  refine List.pairwise_filterMap.mpr (h.imp fun {x y} hxy a ha b hb => ?_)
  obtain ⟨kind, hkind, rfl⟩ := Option.map_eq_some_iff.mp ha
  obtain ⟨kind', hkind', rfl⟩ := Option.map_eq_some_iff.mp hb
  exact hxy (by rw [hkind]; rfl) (by rw [hkind']; rfl)

/-- The kind that is listed for a node is told by its form and its role. -/
theorem kind_of_mem_listing? {xs : List (Role × Node)} {i : Nat} {d : Declared}
    (h : d ∈ (xs.zipIdx i).filterMap (e.listing? id)) :
    ∃ x ∈ xs, x.2.form.symbolKind? x.1 = some d.kind := by
  obtain ⟨x, hx, hd⟩ := List.mem_filterMap.mp h
  obtain ⟨kind, hkind, rfl⟩ := Option.map_eq_some_iff.mp hd
  exact ⟨x.1, List.fst_mem_of_mem_zipIdx hx, hkind⟩

/-- Declarations are listed once each, and in the order of the script but for imports. The listing
of a script without faults has exactly the nodes that declare something, as their forms and roles
tell, in the order of their numbers. It begins with the imports, which come in the order of the
script, and so does all else behind them. So the whole listing is in the order of the script just if
no import stands behind another declaration. -/
theorem declarations_in_order (hs : e.script id = Script.parse path package source)
    (h : source.parse.2.hasErrors = false) :
    e.declarations id = (source.parse.1.parts.inRoles.zipIdx 1).filterMap (e.listing? id) ∧
    (∃ imports others, e.declarations id = imports ++ others ∧
      (∀ d ∈ imports, d.kind = .importing) ∧ (∀ d ∈ others, d.kind ≠ .importing) ∧
      imports.Pairwise Declared.Before ∧ others.Pairwise Declared.Before) ∧
    ((e.declarations id).Pairwise Declared.Before ↔
      ∀ a ∈ e.declarations id, ∀ b ∈ e.declarations id,
        a.kind = .importing → b.kind ≠ .importing → a.Before b) := by
  obtain ⟨body, eof, hscan, -, -, -, hreads⟩ := Text.parse_reads h
  obtain ⟨front, back, hsplit⟩ :=
    hreads.splitsImports (Token.scan_stands hscan) source.parse_isFile source.parse_sorted
  have hlisting := declarations_eq hs h
  have happend := hlisting
  rw [hsplit.eq_append, List.zipIdx_append, List.filterMap_append] at happend
  have himports : ∀ d ∈ (front.zipIdx 1).filterMap (e.listing? id), d.kind = .importing := by
    intro d hd
    obtain ⟨x, hx, hkind⟩ := kind_of_mem_listing? hd
    exact hsplit.importing x hx d.kind hkind
  have hothers : ∀ d ∈ (back.zipIdx (1 + front.length)).filterMap (e.listing? id),
      d.kind ≠ .importing := by
    intro d hd hkind
    obtain ⟨x, hx, hlisted⟩ := kind_of_mem_listing? hd
    exact hsplit.not_importing x hx (hlisted.trans (congrArg some hkind))
  have hfront : ((front.zipIdx 1).filterMap (e.listing? id)).Pairwise Declared.Before :=
    pairwise_listing? hsplit.imports_ordered 1
  have hback : ((back.zipIdx (1 + front.length)).filterMap (e.listing? id)).Pairwise
      Declared.Before := pairwise_listing? hsplit.others_ordered (1 + front.length)
  refine ⟨hlisting, ⟨_, _, happend, himports, hothers, hfront, hback⟩, ?_⟩
  rw [happend, List.pairwise_append]
  constructor
  · rintro ⟨-, -, hcross⟩ a ha b hb hkind hkind'
    refine hcross a ?_ b ?_
    · exact (List.mem_append.mp ha).resolve_right fun ha => hothers a ha hkind
    · exact (List.mem_append.mp hb).resolve_left fun hb => hkind' (himports b hb)
  · intro hcross
    refine ⟨hfront, hback, fun a ha b hb => ?_⟩
    exact hcross a (List.mem_append_left _ ha) b (List.mem_append_right _ hb) (himports a ha)
      (hothers b hb)

/-- A script of declarations inside of others, with an import between them. -/
def lateImportScript : Text :=
  txt "zenClass C \x7b zenConstructor(a as int); \x7d import d.e; for b in c \x7b\x7d"

def lateImport : Environment :=
  ((({ root := txt "scripts" } : Environment).intern
    (Script.parse (txt "a") (txt "scripts.a") lateImportScript)).2).replace 0

theorem lateImport_in_order :
    lateImport.script 0 = Script.parse (txt "a") (txt "scripts.a") lateImportScript ∧
    lateImportScript.parse.2.hasErrors = false ∧
    lateImport.declarations 0 =
      (lateImportScript.parse.1.parts.inRoles.zipIdx 1).filterMap (lateImport.listing? 0) ∧
    (∃ imports others, lateImport.declarations 0 = imports ++ others ∧
      (∀ d ∈ imports, d.kind = .importing) ∧ (∀ d ∈ others, d.kind ≠ .importing) ∧
      imports.Pairwise Declared.Before ∧ others.Pairwise Declared.Before) ∧
    ((lateImport.declarations 0).Pairwise Declared.Before ↔
      ∀ a ∈ lateImport.declarations 0, ∀ b ∈ lateImport.declarations 0,
        a.kind = .importing → b.kind ≠ .importing → a.Before b) := by
  have hs : lateImport.script 0 = Script.parse (txt "a") (txt "scripts.a") lateImportScript := rfl
  have h : lateImportScript.parse.2.hasErrors = false := by decide +kernel
  exact ⟨hs, h, declarations_in_order hs h⟩

/-- The import is listed first, and stands behind what is listed behind it. -/
theorem lateImport_listing :
    (lateImport.declarations 0).map (fun d => (d.place.column, d.kind, d.name)) =
      [(42, .importing, txt "e"), (1, .zenClass, txt "C"),
        (14, .constructor, txt "zenConstructor"), (29, .param, txt "a"), (58, .var, txt "b")] := by
  decide +kernel

end Environment

end Zensight
