import Zensight.Proofs.Nesting
import Zensight.Proofs.Numbering

/-!
# What the walk over a tree leaves behind

The walk opens scopes and enters declarations as it goes, and a node that opens a scope is
walked in two passes. What it comes to is described here over the tree alone: `Node.declared`
lists what a node and its parts declare in the scope around it, and `Node.Fits` says that
every node was given its parent and its scope, and that the scope it opened holds what its
inner parts declare. `Bindings.Walks` says what a walk does not touch; with it the passes
do not disturb each other, and `Node.bind_spec` follows the recursion of the walk.
-/

namespace Zensight

/-! ## Scopes with several declarations -/

namespace Scope

/-- Adds declarations one after the other. -/
def defineAll (s : Scope) (ds : List Declaration) : Scope := ds.foldl define s

variable (s : Scope) (ds : List Declaration)

theorem defineAll_append (ds' : List Declaration) :
    s.defineAll (ds ++ ds') = (s.defineAll ds).defineAll ds' := List.foldl_append

@[simp] theorem id_defineAll : (s.defineAll ds).id = s.id := by
  induction ds generalizing s with
  | nil => rfl
  | cons d ds ih => exact ih (s.define d)

@[simp] theorem parent_defineAll : (s.defineAll ds).parent = s.parent := by
  induction ds generalizing s with
  | nil => rfl
  | cons d ds ih => exact ih (s.define d)

@[simp] theorem owner_defineAll : (s.defineAll ds).owner = s.owner := by
  induction ds generalizing s with
  | nil => rfl
  | cons d ds ih => exact ih (s.define d)

@[simp] theorem symbols_defineAll : (s.defineAll ds).symbols = s.symbols ++ ds := by
  induction ds generalizing s with
  | nil => exact (List.append_nil _).symm
  | cons d ds ih =>
      refine (ih (s.define d)).trans ?_
      rw [define, List.append_assoc]
      rfl

/-- The index has the place of each name's first declaration. -/
def Indexed (s : Scope) : Prop :=
  ∀ name, s.index.lookup name = s.symbols.findIdx? (·.name == name)

variable {s ds}

theorem Indexed.define (h : s.Indexed) (d : Declaration) : (s.define d).Indexed := by
  intro name
  have hd := h d.name
  rw [Scope.define, List.findIdx?_append, ← h name]
  by_cases hname : d.name = name
  · subst hname
    cases hlookup : s.index.lookup d.name with
    | none => simp [declares, hlookup, List.lookup_append, List.findIdx?_cons]
    | some i => simp [declares, hlookup]
  · have hlast : [d].findIdx? (·.name == name) = none := by simp [hname]
    rw [hlast]
    split
    · simp
    · have hother : (name == d.name) = false := beq_false_of_ne fun heq => hname heq.symm
      rw [List.lookup_append, List.lookup_cons, hother]
      simp

theorem Indexed.defineAll (h : s.Indexed) : (s.defineAll ds).Indexed := by
  induction ds generalizing s with
  | nil => exact h
  | cons d ds ih => exact ih (h.define d)

/-- A name is found at its first declaration. -/
theorem Indexed.lookup_eq (h : s.Indexed) (name : Text) :
    s.lookup name = s.symbols.find? (·.name == name) := by
  rw [lookup, h name]
  generalize s.symbols = ds
  induction ds with
  | nil => rfl
  | cons d ds ih =>
      rw [List.findIdx?_cons, List.find?_cons]
      cases d.name == name with
      | true => rfl
      | false => simpa [Option.bind_map, Function.comp_def] using ih

end Scope

/-! ## What nodes declare -/

/-- What a node declares in the scope it lies in, if it plays `role` and has the number `id`.
Expand functions and constructors are declared in no scope. -/
def Node.declaration? (package : Text) (role : Role) (id : NodeId) : Node → Option Declaration
  | .mk form _ parts =>
    match form with
    | .importDecl path =>
      some { name := Form.importName path parts, kind := .importing, node := id }
    | .varDecl keyword =>
      some { name := parts.declaredName, kind := .var, modifiers := .ofKeyword keyword, node := id }
    | .param => some { name := parts.declaredName, kind := .param, node := id }
    | .funcDecl isStatic =>
      some
        { name := parts.declaredName, kind := .function,
          modifiers := if isStatic then .static else .none, node := id,
          detail := .executable parts.requiredParams }
    | .operatorDecl sign =>
      let op := Operator.ofSign sign (parts.all .param).length
      some
        { name := op.name, kind := .operator, node := id,
          detail := .operator op parts.requiredParams }
    | .classDecl =>
      some
        { name := parts.declaredName, kind := .zenClass, node := id,
          detail := .zenClass (Package.qualify package parts.declaredName) }
    | .ident name =>
      if role = .loopVar then some { name, kind := .var, modifiers := .var, node := id } else none
    | _ => none

/-- The `this` of a class or an expand function, declared in the scope that it opens. -/
def Node.this? (id : NodeId) : Node → Option Declaration
  | .mk form _ parts =>
    match form with
    | .classDecl => some { name := txt "this", kind := .var, modifiers := .val, node := id }
    | .expandFuncDecl =>
      (parts.idOf? .target (id + 1)).map fun target =>
        { name := txt "this", kind := .var, modifiers := .val, node := id,
          detail := .receiver target }
    | _ => none

/-- Does a part with this role lie in the scope around the node? -/
def Form.leavesOut (form : Form) (role : Role) : Bool := !form.opensScope || role.isHeader

/-- Does it lie in the scope that the node owns? -/
def Form.takesIn (form : Form) (role : Role) : Bool := !(form.opensScope && role.isHeader)

mutual

/-- What a node and its parts declare in the scope that the node lies in, in order. -/
def Node.declared (package : Text) (role : Role) (id : NodeId) : Node → List Declaration
  | .mk form span parts =>
    ((Node.mk form span parts).declaration? package role id).toList ++
      parts.declared package form.leavesOut (id + 1)

/-- What the parts whose role is wanted declare in the scope they lie in. -/
def Parts.declared (package : Text) (wanted : Role → Bool) (id : NodeId) :
    Parts → List Declaration
  | .nil => []
  | .cons role node rest =>
    (if wanted role then node.declared package role id else []) ++
      rest.declared package wanted (id + node.size)

end

/-- What the scope that a node owns comes to hold. -/
def Node.held (package : Text) (id : NodeId) (n : Node) : List Declaration :=
  (n.this? id).toList ++ n.parts.declared package n.form.takesIn (id + 1)

/-! ## What a walk leaves alone -/

namespace Bindings

/-- A walk from `b` to `b'` that visits nodes of `visited` alone and enters the declarations
`ds` into `scope`; the other scopes that were there stay as they are. -/
structure Walks (b b' : Bindings) (visited : NodeId → Prop) (scope : ScopeId)
    (ds : List Declaration) : Prop where
  package_eq : b'.package = b.package
  size_surroundings : b'.surroundings.size = b.surroundings.size
  surroundings : ∀ c, ¬ visited c → b'.surroundings[c]? = b.surroundings[c]?
  size_le : b.scopes.size ≤ b'.scopes.size
  scopes : ∀ i, i < b.scopes.size → b'.scopes[i]? =
    (b.scopes[i]?).map fun s => if i = scope then s.defineAll ds else s

variable {b b' b'' : Bindings} {visited visited' : NodeId → Prop} {scope : ScopeId}
  {ds ds' : List Declaration}

theorem Walks.refl (b : Bindings) (scope : ScopeId) : Walks b b (fun _ => False) scope [] where
  package_eq := rfl
  size_surroundings := rfl
  surroundings _ _ := rfl
  size_le := Nat.le_refl _
  scopes i _ := by simp [Scope.defineAll]

theorem Walks.mono (h : Walks b b' visited scope ds) (hsub : ∀ c, visited c → visited' c) :
    Walks b b' visited' scope ds :=
  { h with surroundings := fun c hc => h.surroundings c fun hv => hc (hsub c hv) }

theorem Walks.trans (h : Walks b b' visited scope ds) (h' : Walks b' b'' visited' scope ds') :
    Walks b b'' (fun c => visited c ∨ visited' c) scope (ds ++ ds') where
  package_eq := h'.package_eq.trans h.package_eq
  size_surroundings := h'.size_surroundings.trans h.size_surroundings
  surroundings c hc :=
    (h'.surroundings c fun hv => hc (.inr hv)).trans (h.surroundings c fun hv => hc (.inl hv))
  size_le := Nat.le_trans h.size_le h'.size_le
  scopes i hi := by
    rw [h'.scopes i (Nat.lt_of_lt_of_le hi h.size_le), h.scopes i hi, Option.map_map]
    congr 1
    funext s
    by_cases hscope : i = scope
    · simp [hscope, Scope.defineAll_append]
    · simp [hscope]

/-- A scope other than the one walked in stays as it is. -/
theorem Walks.getElem?_of_ne (h : Walks b b' visited scope ds) {i : ScopeId} {s : Scope}
    (hne : i ≠ scope) (hs : b.scopes[i]? = some s) : b'.scopes[i]? = some s := by
  rw [h.scopes i (Array.getElem?_eq_some_iff.mp hs).1, hs]
  simp [hne]

/-- The scope walked in has the declarations behind those it had. -/
theorem Walks.getElem?_self (h : Walks b b' visited scope ds) {s : Scope}
    (hs : b.scopes[scope]? = some s) : b'.scopes[scope]? = some (s.defineAll ds) := by
  rw [h.scopes scope (Array.getElem?_eq_some_iff.mp hs).1, hs]
  simp

/-- A walk in a scope that was opened for it does nothing to those that were there. -/
theorem Walks.opened {owner : NodeId} {parent : Option ScopeId}
    (h : Walks (b.openScope owner parent) b' visited b.nextScope ds) (scope : ScopeId) :
    Walks b b' visited scope [] where
  package_eq := h.package_eq
  size_surroundings := h.size_surroundings
  surroundings := h.surroundings
  size_le := Nat.le_trans (by simp [openScope]) h.size_le
  scopes i hi := by
    have hne : i ≠ b.nextScope := Nat.ne_of_lt hi
    rw [h.scopes i (by simp only [openScope, Array.size_push]; omega)]
    simp [openScope, Array.getElem?_push, Nat.ne_of_lt hi, hne, Scope.defineAll]

theorem Walks.record (b : Bindings) (id : NodeId) (parent : Option NodeId) (scope : ScopeId) :
    Walks b (b.record id parent scope) (fun c => c = id) scope [] where
  package_eq := rfl
  size_surroundings := by simp [Bindings.record]
  surroundings c hc := by
    simp only [Bindings.record]
    rw [Array.getElem?_setIfInBounds_ne (Ne.symm hc)]
  size_le := Nat.le_refl _
  scopes i _ := by simp [Bindings.record, Scope.defineAll]

/-- A step that enters declarations into a scope and visits no node. -/
theorem Walks.of_modify (hpackage : b'.package = b.package)
    (hskeleton : b'.skeleton = b.skeleton)
    (hscopes : b'.scopes = b.scopes.modify scope (·.defineAll ds)) :
    Walks b b' (fun _ => False) scope ds := by
  have hsurroundings : b'.surroundings = b.surroundings :=
    congrArg Skeleton.surroundings hskeleton
  refine ⟨hpackage, by rw [hsurroundings], fun c _ => by rw [hsurroundings], ?_, fun i hi => ?_⟩
  · exact Nat.le_of_eq (by rw [hscopes, Array.size_modify])
  · rw [hscopes, Array.getElem?_modify]
    by_cases hne : scope = i
    · simp [hne]
    · simp [hne, Ne.symm hne]

/-- A step that changes neither the scopes nor what surrounds the nodes. -/
theorem Walks.of_scopes_eq (hpackage : b'.package = b.package)
    (hskeleton : b'.skeleton = b.skeleton) (hscopes : b'.scopes = b.scopes) :
    Walks b b' (fun _ => False) scope [] := by
  refine .of_modify hpackage hskeleton (hscopes.trans (Array.ext (by simp) fun i h₁ h₂ => ?_))
  simp only [Array.getElem_modify]
  split <;> rfl

theorem declare_walks (d : Declaration) (p : Place) :
    Walks b (b.declare scope d p) (fun _ => False) scope [d] := by
  refine .of_modify ?_ (skeleton_declare b scope d p) ?_
  · rw [declare]
    split <;> rfl
  · rw [declare]
    split <;> rfl

theorem declareClass_walks (d : Declaration) (p : Place) :
    Walks b (b.declareClass scope d p) (fun _ => False) scope [d] := by
  have hdeclare : Walks b (b.declare scope d p) (fun _ => False) scope [d] := declare_walks d p
  rw [declareClass]
  split
  · exact ⟨hdeclare.package_eq, hdeclare.size_surroundings, hdeclare.surroundings,
      hdeclare.size_le, hdeclare.scopes⟩
  · exact hdeclare

theorem declareConstructor_walks (d : Declaration) (around : ScopeId) :
    Walks b (b.declareConstructor around d) (fun _ => False) scope [] := by
  refine .of_scopes_eq ?_ (skeleton_declareConstructor b around d) ?_
  · rw [declareConstructor]
    split <;> rfl
  · rw [declareConstructor]
    split <;> rfl

/-- A node declares in its scope what `declaration?` says. -/
theorem declareNode_walks (b : Bindings) (role : Role) (id : NodeId) (scope : ScopeId)
    (form : Form) (span : Span) (parts : Parts) :
    Walks b (b.declareNode role id scope form span.start parts) (fun _ => False) scope
      ((Node.mk form span parts).declaration? b.package role id).toList := by
  cases form with
  | importDecl _ | varDecl _ | param | funcDecl _ | operatorDecl _ => exact declare_walks _ _
  | classDecl => exact declareClass_walks _ _
  | constructorDecl => exact declareConstructor_walks _ _
  | expandFuncDecl => exact .of_scopes_eq rfl (skeleton_declareExpand b _) rfl
  | ident name =>
      rw [declareNode, Node.declaration?]
      split
      · exact declare_walks _ _
      · exact .refl b scope
  | _ => exact .refl b scope

/-- In the scope that it opens it declares its `this`. -/
theorem declareThis_walks (b : Bindings) (id : NodeId) (scope : ScopeId) (form : Form)
    (span : Span) (parts : Parts) :
    Walks b (b.declareThis id scope form parts) (fun _ => False) scope
      ((Node.mk form span parts).this? id).toList := by
  cases form with
  | classDecl => exact .of_modify rfl (skeleton_enter ..) rfl
  | expandFuncDecl =>
      rw [declareThis, Node.this?]
      cases parts.idOf? .target (id + 1) with
      | some target => exact .of_modify rfl (skeleton_enter ..) rfl
      | none => exact .refl b scope
  | _ => exact .refl b scope

/-- A walk in the scope that a node has just opened fills that scope and leaves those that were
there alone. -/
theorem Walks.within {b b' : Bindings} {id : NodeId} {scope : ScopeId} {form : Form}
    {parts : Parts} {visited : NodeId → Prop} {ds : List Declaration} (span : Span)
    (h : Walks ((b.openScope id (some scope)).declareThis id b.nextScope form parts) b' visited
      b.nextScope ds) :
    Walks b b' visited scope [] ∧
      b'.scopes[b.nextScope]? = some
        (({ id := b.nextScope, parent := some scope, owner := id } : Scope).defineAll
          (((Node.mk form span parts).this? id).toList ++ ds)) := by
  have hwalk := ((declareThis_walks _ id b.nextScope form span parts).trans h)
  refine ⟨(hwalk.opened scope).mono fun c hc => hc.resolve_left not_false,
    hwalk.getElem?_self ?_⟩
  simp [openScope, nextScope]

end Bindings

/-! ## What the walk has found -/

/-- The number is that of a node in a part whose role is wanted. -/
def Parts.Covers (wanted : Role → Bool) (id c : Nat) : Parts → Prop
  | .nil => False
  | .cons role node rest =>
    (wanted role = true ∧ id ≤ c ∧ c < id + node.size) ∨ rest.Covers wanted (id + node.size) c

theorem Parts.Covers.bounds {wanted : Role → Bool} {c : Nat} :
    {ps : Parts} → {id : Nat} → ps.Covers wanted id c → id ≤ c ∧ c < id + ps.size
  | .cons role node rest, id, h => by
    rw [Parts.size]
    rcases h with ⟨-, hle, hlt⟩ | h
    · omega
    · have := h.bounds
      omega

/-- A node lies in one part only. -/
theorem Parts.Covers.exists_wanted {wanted wanted' : Role → Bool} {c : Nat} :
    {ps : Parts} → {id : Nat} → ps.Covers wanted id c → ps.Covers wanted' id c →
    ∃ role, wanted role = true ∧ wanted' role = true
  | .cons role node rest, id, h, h' => by
    rcases h with ⟨hrole, -, hlt⟩ | h <;> rcases h' with ⟨hrole', -, hlt'⟩ | h'
    · exact ⟨role, hrole, hrole'⟩
    · have := h'.bounds
      omega
    · have := h.bounds
      omega
    · exact h.exists_wanted h'

mutual

/-- The node numbered `id` was given its parent and its scope, and so were all nodes below it.
Each that opens a scope has one, numbered `least` or above, which holds what the parts within
declare. -/
def Node.Fits (b : Bindings) (least : ScopeId) (id : NodeId) (parent : Option NodeId)
    (scope : ScopeId) : Node → Prop
  | .mk form span parts =>
    b.surroundings[id]? = some (some ⟨parent, scope⟩) ∧
    parts.Fits b least form.leavesOut (id + 1) id scope ∧
    (form.opensScope = true → ∃ inner, least ≤ inner ∧
      b.scopes[inner]? = some
        (({ id := inner, parent := some scope, owner := id } : Scope).defineAll
          ((Node.mk form span parts).held b.package id)) ∧
      parts.Fits b least form.takesIn (id + 1) id inner)

def Parts.Fits (b : Bindings) (least : ScopeId) (wanted : Role → Bool) (id parent : NodeId)
    (scope : ScopeId) : Parts → Prop
  | .nil => True
  | .cons role node rest =>
    (wanted role = true → node.Fits b least id (some parent) scope) ∧
      rest.Fits b least wanted (id + node.size) parent scope

end

/-- What `Fits` says depends on what surrounds the nodes below and on scopes that have their
numbers already. -/
structure Bindings.Keeps (b b' : Bindings) (least : ScopeId) : Prop where
  package_eq : b'.package = b.package
  scopes : ∀ i s, least ≤ i → b.scopes[i]? = some s → b'.scopes[i]? = some s

theorem Bindings.Walks.keeps {b b' : Bindings} {visited : NodeId → Prop} {scope least : ScopeId}
    {ds : List Declaration} (h : Walks b b' visited scope ds) (hlt : scope < least) :
    Keeps b b' least :=
  ⟨h.package_eq, fun _ _ hle hs => h.getElem?_of_ne (Nat.ne_of_gt (Nat.lt_of_lt_of_le hlt hle)) hs⟩

section

variable {b b' : Bindings} {least least' : ScopeId}

mutual

theorem Node.Fits.keep (hkeeps : b.Keeps b' least) (hle : least' ≤ least) : (n : Node) →
    {id : Nat} → {parent : Option NodeId} → {scope : ScopeId} → n.Fits b least id parent scope →
    (∀ c, id ≤ c → c < id + n.size → b'.surroundings[c]? = b.surroundings[c]?) →
    n.Fits b' least' id parent scope
  | .mk form span parts, id, parent, scope, ⟨hrecorded, houter, hinner⟩, hsame => by
    have hsame' (c : Nat) (wanted : Role → Bool) (hc : parts.Covers wanted (id + 1) c) :
        b'.surroundings[c]? = b.surroundings[c]? := by
      have := hc.bounds
      exact hsame c (by omega) (by rw [Node.size]; omega)
    refine ⟨(hsame id (Nat.le_refl _) (by rw [Node.size]; omega)).trans hrecorded,
      Parts.Fits.keep hkeeps hle parts houter fun c hc => hsame' c _ hc, fun hopens => ?_⟩
    obtain ⟨inner, hinner_le, hscope, hfits⟩ := hinner hopens
    refine ⟨inner, Nat.le_trans hle hinner_le, ?_,
      Parts.Fits.keep hkeeps hle parts hfits fun c hc => hsame' c _ hc⟩
    rw [hkeeps.package_eq]
    exact hkeeps.scopes inner _ hinner_le hscope

theorem Parts.Fits.keep (hkeeps : b.Keeps b' least) (hle : least' ≤ least) : (ps : Parts) →
    {wanted : Role → Bool} → {id parent scope : Nat} →
    ps.Fits b least wanted id parent scope →
    (∀ c, ps.Covers wanted id c → b'.surroundings[c]? = b.surroundings[c]?) →
    ps.Fits b' least' wanted id parent scope
  | .nil, _, _, _, _, _, _ => trivial
  | .cons role node rest, wanted, id, parent, scope, ⟨hnode, hrest⟩, hsame => by
    refine ⟨fun hrole => ?_, Parts.Fits.keep hkeeps hle rest hrest fun c hc => hsame c (.inr hc)⟩
    exact Node.Fits.keep hkeeps hle node (hnode hrole) fun c hle hlt =>
      hsame c (.inl ⟨hrole, hle, hlt⟩)

end

end

theorem Parts.Fits.mono {b : Bindings} {least least' : ScopeId} {ps : Parts}
    {wanted : Role → Bool} {id parent scope : Nat}
    (h : ps.Fits b least wanted id parent scope) (hle : least' ≤ least) :
    ps.Fits b least' wanted id parent scope :=
  Parts.Fits.keep ⟨rfl, fun _ _ _ hs => hs⟩ hle ps h fun _ _ => rfl

open Bindings (Walks)

mutual

/-- Walking a node declares in its scope what `declared` lists, and leaves the node and all
below it fitting. -/
theorem Node.bind_spec : (n : Node) → (role : Role) → (id parent scope : Nat) → (b : Bindings) →
    scope < b.scopes.size → id + n.size ≤ b.surroundings.size →
    Walks b (n.bind role id parent scope b) (fun c => id ≤ c ∧ c < id + n.size) scope
        (n.declared b.package role id) ∧
      n.Fits (n.bind role id parent scope b) b.scopes.size id (some parent) scope
  | .mk form span parts, role, id, parent, scope, b, hscope, hsize => by
    rw [Node.size] at hsize
    have hwithin {wanted : Role → Bool} {c : Nat} (hc : parts.Covers wanted (id + 1) c) :
        id < c ∧ c < id + (Node.mk form span parts).size := by
      have := hc.bounds
      rw [Node.size]
      omega
    have hdeclare := Bindings.declareNode_walks (b.record id (some parent) scope) role id scope
      form span parts
    have hstart := ((Walks.record b id (some parent) scope).trans hdeclare).mono
      fun c hc => hc.resolve_right not_false
    have hself : ((b.record id (some parent) scope).declareNode role id scope form span.start
        parts).surroundings[id]? = some (some ⟨some parent, scope⟩) := by
      rw [hdeclare.surroundings id not_false]
      exact Array.getElem?_setIfInBounds_self_of_lt (by omega)
    rw [Node.bind, Node.declared, Node.Fits]
    generalize (b.record id (some parent) scope).declareNode role id scope form span.start parts
      = b₁ at hstart hself ⊢
    have hscope₁ := Nat.lt_of_lt_of_le hscope hstart.size_le
    have hsize₁ : id + 1 + parts.size ≤ b₁.surroundings.size := by
      rw [hstart.size_surroundings]
      omega
    by_cases hopens : form.opensScope = true
    · -- The header is walked in the scope around the node, all else in the one it opens.
      have hout : form.leavesOut = fun role => role.isHeader := by
        funext role
        simp [Form.leavesOut, hopens]
      have hin : form.takesIn = fun role => !role.isHeader := by
        funext role
        simp [Form.takesIn, hopens]
      rw [if_pos hopens, hout, hin]
      obtain ⟨hheader, hfits⟩ :=
        parts.bind_spec (·.isHeader) (id + 1) id scope b₁ hscope₁ hsize₁
      rw [hstart.package_eq] at hheader
      generalize parts.bind (·.isHeader) (id + 1) id scope b₁ = b₂ at hheader hfits ⊢
      have hthis := Bindings.declareThis_walks (b₂.openScope id (some scope)) id b₂.nextScope form
        span parts
      have hopened : b₂.nextScope <
          ((b₂.openScope id (some scope)).declareThis id b₂.nextScope form parts).scopes.size :=
        Nat.lt_of_lt_of_le (by simp [Bindings.openScope, Bindings.nextScope]) hthis.size_le
      obtain ⟨hbody, hfits'⟩ := parts.bind_spec (!·.isHeader) (id + 1) id b₂.nextScope _ hopened
        (by rw [hthis.size_surroundings]; exact hheader.size_surroundings ▸ hsize₁)
      obtain ⟨hrest, hinner⟩ := hbody.within span
      have hall := (hstart.trans hheader).trans hrest
      have hle := (hstart.trans hheader).size_le
      rw [List.append_nil] at hall
      refine ⟨hall.mono fun c hc => ?_, ?_, ?_, fun _ => ⟨b₂.nextScope, hle, ?_, ?_⟩⟩
      · rcases hc with (rfl | hc) | hc
        · exact ⟨Nat.le_refl _, Nat.lt_add_of_pos_right (Nat.succ_pos _)⟩
        · exact ⟨Nat.le_of_lt (hwithin hc).1, (hwithin hc).2⟩
        · exact ⟨Nat.le_of_lt (hwithin hc).1, (hwithin hc).2⟩
      · rw [hrest.surroundings id fun hc => Nat.lt_irrefl _ (hwithin hc).1,
          hheader.surroundings id fun hc => Nat.lt_irrefl _ (hwithin hc).1, hself]
      · refine Parts.Fits.keep (hrest.keeps hscope₁) hstart.size_le parts hfits fun c hc => ?_
        refine hrest.surroundings c fun hc' => ?_
        obtain ⟨role, hrole, hrole'⟩ := hc.exists_wanted hc'
        simp [hrole] at hrole'
      · rw [hbody.package_eq, Node.held, Node.form, hin]
        exact hinner
      · exact hfits'.mono (Nat.le_of_lt (Nat.lt_of_le_of_lt hle hopened))
    · have hout : form.leavesOut = fun _ => true := by
        funext role
        simp [Form.leavesOut, hopens]
      rw [if_neg hopens, hout]
      obtain ⟨hparts, hfits⟩ := parts.bind_spec (fun _ => true) (id + 1) id scope b₁ hscope₁ hsize₁
      rw [hstart.package_eq] at hparts
      refine ⟨(hstart.trans hparts).mono fun c hc => ?_, ?_, hfits.mono hstart.size_le,
        fun h => absurd h hopens⟩
      · rcases hc with rfl | hc
        · exact ⟨Nat.le_refl _, Nat.lt_add_of_pos_right (Nat.succ_pos _)⟩
        · exact ⟨Nat.le_of_lt (hwithin hc).1, (hwithin hc).2⟩
      · rw [hparts.surroundings id fun hc => Nat.lt_irrefl _ (hwithin hc).1, hself]

theorem Parts.bind_spec : (ps : Parts) → (wanted : Role → Bool) → (id parent scope : Nat) →
    (b : Bindings) → scope < b.scopes.size → id + ps.size ≤ b.surroundings.size →
    Walks b (ps.bind wanted id parent scope b) (ps.Covers wanted id) scope
        (ps.declared b.package wanted id) ∧
      ps.Fits (ps.bind wanted id parent scope b) b.scopes.size wanted id parent scope
  | .nil, wanted, id, parent, scope, b, _, _ => by
    rw [Parts.bind, Parts.declared]
    exact ⟨(Walks.refl b scope).mono fun c hc => hc.elim, trivial⟩
  | .cons role node rest, wanted, id, parent, scope, b, hscope, hsize => by
    rw [Parts.size] at hsize
    rw [Parts.bind, Parts.declared]
    by_cases hrole : wanted role = true
    · rw [if_pos hrole, if_pos hrole]
      obtain ⟨hnode, hfits⟩ := node.bind_spec role id parent scope b hscope (by omega)
      obtain ⟨hrest, hfits'⟩ := rest.bind_spec wanted (id + node.size) parent scope _
        (Nat.lt_of_lt_of_le hscope hnode.size_le) (by rw [hnode.size_surroundings]; omega)
      rw [hnode.package_eq] at hrest
      refine ⟨(hnode.trans hrest).mono fun c hc => ?_, fun _ => ?_, ?_⟩
      · exact hc.imp (fun hc => ⟨hrole, hc⟩) fun hc => hc
      · refine Node.Fits.keep (hrest.keeps hscope) (Nat.le_refl _) node hfits fun c hle hlt => ?_
        refine hrest.surroundings c fun hc => ?_
        have := hc.bounds
        omega
      · exact hfits'.mono hnode.size_le
    · rw [if_neg hrole, if_neg hrole]
      obtain ⟨hrest, hfits⟩ := rest.bind_spec wanted (id + node.size) parent scope b hscope
        (by omega)
      exact ⟨hrest.mono fun c hc => .inr hc, fun h => absurd h hrole, hfits⟩

end

/-! ## Going down the tree -/

theorem Parts.Fits.part {b : Bindings} {least : ScopeId} {wanted : Role → Bool}
    {parent scope : Nat} {r : Role} (hr : wanted r = true) : (ps : Parts) → {id c : Nat} →
    ps.Fits b least wanted id parent scope → (r, c) ∈ ps.numbered id →
    ∃ child, ps.preorder[c - id]? = some child ∧ child.Fits b least c (some parent) scope ∧
      ∀ d ∈ child.declared b.package r c, d ∈ ps.declared b.package wanted id
  | .nil, _, _, _, hc => by
    rw [Parts.numbered] at hc
    cases hc
  | .cons role node rest, id, c, ⟨hnode, hrest⟩, hc => by
    rw [Parts.numbered, List.mem_cons] at hc
    rw [Parts.declared]
    rcases hc with hc | hc
    · cases hc
      refine ⟨node, Parts.getElem?_first _, hnode hr, fun d hd => ?_⟩
      rw [if_pos hr]
      exact List.mem_append_left _ hd
    · obtain ⟨child, hat, hfits, hdeclared⟩ := Parts.Fits.part hr rest hrest hc
      exact ⟨child, (Parts.getElem?_later (rest.mem_numbered hc).1).trans hat, hfits,
        fun d hd => List.mem_append_right _ (hdeclared d hd)⟩

/-- A node that opens a scope has one. -/
theorem Node.Fits.exists_scope {b : Bindings} {least scope : ScopeId} {m : Node} {id : NodeId}
    {parent : Option NodeId} (h : m.Fits b least id parent scope)
    (hopens : m.form.opensScope = true) : ∃ inner, b.scopes[inner]? = some
      (({ id := inner, parent := some scope, owner := id } : Scope).defineAll
        (m.held b.package id)) := by
  obtain ⟨form, span, parts⟩ := m
  obtain ⟨inner, -, hscope, -⟩ := h.2.2 hopens
  exact ⟨inner, hscope⟩

/-- A part lies in the scope around the node, or in the one that the node opened, and declares
there what it declares. -/
theorem Node.Fits.part {b : Bindings} {least scope : ScopeId} {tree m : Node} {p c : Nat} {r : Role}
    {parent : Option NodeId} (hm : tree.preorder[p]? = some m) (h : m.Fits b least p parent scope)
    (hc : (r, c) ∈ m.parts.numbered (p + 1)) :
    ∃ child around, tree.preorder[c]? = some child ∧ child.Fits b least c (some p) around ∧
      (m.form.leavesOut r = true → around = scope ∧ ∀ d ∈ child.declared b.package r c,
        d ∈ m.parts.declared b.package m.form.leavesOut (p + 1)) ∧
      (m.form.leavesOut r = false → ∃ s, b.scopes[around]? = some s ∧ s.parent = some scope ∧
        s.owner = p ∧ ∀ d ∈ child.declared b.package r c, d ∈ s.symbols) := by
  rw [Node.getElem?_part hm hc]
  obtain ⟨form, span, parts⟩ := m
  obtain ⟨-, houter, hinner⟩ := h
  simp only [Node.form, Node.parts] at hc ⊢
  cases hout : form.leavesOut r with
  | true =>
      obtain ⟨child, hat, hfits, hdeclared⟩ := Parts.Fits.part hout parts houter hc
      exact ⟨child, scope, hat, hfits, fun _ => ⟨rfl, hdeclared⟩, fun h => by cases h⟩
  | false =>
      have hopens : form.opensScope = true ∧ r.isHeader = false := by
        simpa [Form.leavesOut] using hout
      have hin : form.takesIn r = true := by simp [Form.takesIn, hopens]
      obtain ⟨inner, -, hscope, hfits⟩ := hinner hopens.1
      obtain ⟨child, hat, hfits, hdeclared⟩ := Parts.Fits.part hin parts hfits hc
      refine ⟨child, inner, hat, hfits, fun h => absurd h (by simp), fun _ => ?_⟩
      refine ⟨_, hscope, by simp, by simp, fun d hd => ?_⟩
      rw [Scope.symbols_defineAll]
      exact List.mem_append_right _ (List.mem_append_right _ (hdeclared d hd))

/-! ## What every step keeps -/

/-- The parts stand `here` in their roles, numbered from `id` on. -/
def Parts.Stand (here : NodeId → Role → Node → Prop) (id : NodeId) (ps : Parts) : Prop :=
  ∀ r c child, (r, c) ∈ ps.numbered id → ps.preorder[c - id]? = some child → here c r child

theorem Parts.Stand.cons {here : NodeId → Role → Node → Prop} {role : Role} {node : Node}
    {rest : Parts} {id : Nat} (h : (Parts.cons role node rest).Stand here id) :
    here id role node ∧ rest.Stand here (id + node.size) := by
  rw [Parts.Stand, Parts.numbered] at h
  exact ⟨h role id node List.mem_cons_self (Parts.getElem?_first id), fun r c child hc hat =>
    h r c child (List.mem_cons_of_mem _ hc)
      ((Parts.getElem?_later (rest.mem_numbered hc).1).trans hat)⟩

/-- The node has the number `c` in the tree and plays the role `r`. -/
def Node.Plays (tree : Node) (c : NodeId) (r : Role) (m : Node) : Prop :=
  tree.preorder[c]? = some m ∧ ∃ p, tree.Lists p r c

theorem Node.plays_parts {tree m : Node} {p : Nat} (hm : tree.preorder[p]? = some m) :
    m.parts.Stand tree.Plays (p + 1) :=
  fun _ _ _ hc hat => ⟨(Node.getElem?_part hm hc).trans hat, p, m, hm, hc⟩

namespace Bindings

/-- A property that a walk keeps at each step: when it comes to a node that stands `here` under
its number and in its role, and when it opens the scope of such a node. Where a node stands here
its parts do. -/
structure Invariant (P : Bindings → Prop) (here : NodeId → Role → Node → Prop) : Prop where
  node : ∀ {b : Bindings} {id : NodeId} {role : Role} {m : Node}, here id role m → P b →
    ∀ parent scope,
      P ((b.record id (some parent) scope).declareNode role id scope m.form m.span.start m.parts)
  opened : ∀ {b : Bindings} {id : NodeId} {role : Role} {m : Node}, here id role m → P b →
    ∀ scope, P ((b.openScope id (some scope)).declareThis id b.nextScope m.form m.parts)
  parts : ∀ {id : Nat} {role : Role} {m : Node}, here id role m → m.parts.Stand here (id + 1)

end Bindings

section

variable {P : Bindings → Prop} {here : NodeId → Role → Node → Prop}

mutual

theorem Node.bind_invariant (hP : Bindings.Invariant P here) : (n : Node) → (role : Role) →
    (id parent scope : Nat) → (b : Bindings) → here id role n → P b →
    P (n.bind role id parent scope b)
  | .mk form span parts, role, id, parent, scope, b, hself, h => by
    have hbelow : parts.Stand here (id + 1) := hP.parts hself
    have hstart := hP.node hself h parent scope
    rw [Node.bind]
    dsimp only
    split
    · have hheader := parts.bind_invariant hP (·.isHeader) (id + 1) id scope _ hbelow hstart
      exact parts.bind_invariant hP _ _ _ _ _ hbelow (hP.opened hself hheader scope)
    · exact parts.bind_invariant hP _ _ _ _ _ hbelow hstart

theorem Parts.bind_invariant (hP : Bindings.Invariant P here) : (ps : Parts) →
    (wanted : Role → Bool) → (id parent scope : Nat) → (b : Bindings) → ps.Stand here id → P b →
    P (ps.bind wanted id parent scope b)
  | .nil, _, _, _, _, _, _, h => h
  | .cons role node rest, wanted, id, parent, scope, b, hhere, h => by
    rw [Parts.bind]
    refine rest.bind_invariant hP _ _ _ _ _ hhere.cons.2 ?_
    split
    · exact node.bind_invariant hP role id parent scope b hhere.cons.1 h
    · exact h

end

end

/-- What holds before the walk over a tree and is kept at each of its nodes holds behind it. -/
theorem Bindings.Invariant.ofTree {P : Bindings → Prop} {tree : Node} (hP : Invariant P tree.Plays)
    {package : Text} {report : Report}
    (h : P (((empty tree.size package report).openScope 0 none).record 0 none 0)) :
    P (Bindings.ofTree tree package report) :=
  tree.parts.bind_invariant hP _ _ _ _ _ (Node.plays_parts tree.getElem?_preorder_zero) h

end Zensight
