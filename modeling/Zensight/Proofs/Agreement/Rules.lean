import Zensight.Proofs.Agreement.Overloads

/-!
# Rules of typing in views that agree

One lemma for each rule of typing: what it asks for and what it answers is the same
in two views that agree on the script of its node. A rule finds its way from a node
through the script of the node, through the registry, and through the types it is
told; none of these leads out of `P`.

`Agrees.typeOf` puts the rules together by induction on the depth that is left.
-/

namespace Zensight

variable {P : ScriptId → Prop}

/-! ## Names -/

namespace Registry.Within

variable {r : Registry}

theorem classOr (hr : r.Within P) (name : Text) : (r.classOr name).Within P := by
  rw [Registry.classOr, Ty.within_classType]
  cases hc : r.classNamed? name with
  | none => exact ClassType.within_of_decl_none rfl
  | some c => exact hr.named name c hc

theorem importType (hr : r.Within P) (path : List Text) : (r.importType path).Within P := by
  unfold Registry.importType
  split
  · next c hc => exact .classType (hr.named _ c hc)
  · exact .basic

theorem resolve? (hr : r.Within P) {s : Script} {id : ScriptId} (hid : P id) (node : NodeId)
    (name : Text) : ∀ t ∈ s.resolve? id r node name, t.Within P := by
  intro t ht
  unfold Script.resolve? at ht
  split at ht
  · cases ht
    exact hid
  · exact hr.globals t (List.mem_of_find?_eq_some ht)

end Registry.Within

/-- What the name refers to keeps to `P`. -/
def NamedTarget.Within (P : ScriptId → Prop) : NamedTarget → Prop
  | settled t => t.Within P
  | imported _ fallback => fallback.Within P

theorem NamedTarget.Within.type {target : NamedTarget} {importType : NodeId → Ty}
    (h : target.Within P) (himport : ∀ n, (importType n).Within P) :
    (target.type importType).Within P := by
  cases target with
  | settled t => exact h
  | imported decl fallback =>
      unfold NamedTarget.type
      dsimp only
      split
      · next c hc => exact hc ▸ himport decl
      · exact .classType h

namespace Registry.Within

variable {r : Registry}

theorem classInScope? (hr : r.Within P) {s : Script} {id : ScriptId} (hid : P id)
    (node : NodeId) (name : Text) : ∀ t ∈ s.classInScope? id r node name, t.Within P := by
  intro t ht
  unfold Script.classInScope? at ht
  split at ht
  · next owner d hd =>
      have howner : P owner := hr.resolve? hid node name _ hd
      split at ht
      · obtain ⟨c, hc, rfl⟩ := Option.map_eq_some_iff.mp ht
        exact .classType (Declaration.within_classType? howner hc)
      · split at ht
        · cases ht
          exact ClassType.within_of_decl_none rfl
        · cases ht
      · cases ht
  · cases ht

theorem namedTarget (hr : r.Within P) {s : Script} {id : ScriptId} (hid : P id)
    (node : NodeId) (segments : List Text) : (s.namedTarget id r node segments).Within P := by
  unfold Script.namedTarget
  split
  · exact .basic
  · split
    · next target htarget => exact hr.classInScope? hid node _ target htarget
    · split
      · next c hc => exact .classType (hr.named _ c hc)
      · exact hr.classOr _
  · exact hr.classOr _

end Registry.Within

theorem Token.Kind.within_literalType (kind : Token.Kind) : kind.literalType.Within P := by
  cases kind <;> exact .basic

theorem Token.Kind.within_primitiveType (kind : Token.Kind) : kind.primitiveType.Within P := by
  cases kind <;> exact .basic

namespace View

open Inquiry (Same)

variable {v v' : View} {n p : NodeRef} {role : Role}

/-! ## Parts of a node -/

theorem script_of_part? (h : v.part? n role = some p) : p.script = n.script := by
  obtain ⟨_, _, rfl⟩ := Option.map_eq_some_iff.mp h
  rfl

theorem script_of_mem_partsOf (h : p ∈ v.partsOf n role) : p.script = n.script := by
  obtain ⟨_, _, rfl⟩ := List.mem_map.mp h
  rfl

theorem script_of_parent? (h : v.parent? n = some p) : p.script = n.script := by
  obtain ⟨_, _, rfl⟩ := Option.map_eq_some_iff.mp h
  rfl

/-- Going out through parentheses does not leave the script. -/
theorem script_of_outsideParens {child : NodeRef} {fuel : Nat}
    (h : v.outsideParens fuel n = (child, some p)) : p.script = n.script := by
  induction fuel generalizing n with
  | zero =>
      obtain ⟨_, hp⟩ := Prod.mk.inj h
      exact script_of_parent? hp
  | succ fuel ih =>
      unfold outsideParens at h
      split at h
      · cases h
      · next q hq =>
          split at h
          · exact (ih h).trans (script_of_parent? hq)
          · cases h
            exact script_of_parent? hq

namespace Agrees

theorem script_eq (hv : v.Agrees P v') (id : ScriptId) : v'.script id = v.script id := by
  rw [View.script, View.script, Environment.script, Environment.script, hv.scripts_eq]

theorem entry_eq (hv : v.Agrees P v') (n : NodeRef) : v'.entry n = v.entry n := by
  rw [View.entry, View.entry, hv.script_eq]

theorem part?_eq (hv : v.Agrees P v') (n : NodeRef) (role : Role) :
    v'.part? n role = v.part? n role := by
  rw [View.part?, View.part?, hv.entry_eq]

theorem partsOf_eq (hv : v.Agrees P v') (n : NodeRef) (role : Role) :
    v'.partsOf n role = v.partsOf n role := by
  rw [View.partsOf, View.partsOf, hv.entry_eq]

theorem parent?_eq (hv : v.Agrees P v') (n : NodeRef) : v'.parent? n = v.parent? n := by
  rw [View.parent?, View.parent?, hv.script_eq]

theorem lookup?_eq (hv : v.Agrees P v') (n : NodeRef) (name : Text) :
    v'.lookup? n name = v.lookup? n name := by
  rw [View.lookup?, View.lookup?, hv.script_eq, hv.registry_eq]

theorem outsideParens_eq (hv : v.Agrees P v') (fuel : Nat) (n : NodeRef) :
    v'.outsideParens fuel n = v.outsideParens fuel n := by
  induction fuel generalizing n with
  | zero => rw [View.outsideParens, View.outsideParens, hv.parent?_eq]
  | succ fuel ih =>
      unfold View.outsideParens
      simp only [hv.parent?_eq, hv.entry_eq, ih]

theorem classType_eq (hv : v.Agrees P v') (n : NodeRef) : v'.classType n = v.classType n := by
  rw [View.classType, View.classType, hv.script_eq]

theorem partType (hv : v.Agrees P v') (hn : P n.script) (role : Role) :
    Same P (Ty.Within P) (v.partType n role) (v'.partType n role) := by
  unfold View.partType
  rw [hv.part?_eq]
  split
  · next p hp => exact .typeOf (script_of_part? hp ▸ hn)
  · exact .pure .basic

theorem typesOf (_ : v.Agrees P v') (ns : List NodeRef) (hns : ∀ n ∈ ns, P n.script) :
    Same P (TypesWithin P) (View.typesOf ns) (View.typesOf ns) := by
  induction ns with
  | nil => exact .pure (List.forall_mem_nil _)
  | cons n ns ih =>
      refine (Same.typeOf (hns n List.mem_cons_self)).bind fun t ht => ?_
      exact (ih fun m hm => hns m (List.mem_cons_of_mem _ hm)).bind fun ts hts =>
        .pure (List.forall_mem_cons.mpr ⟨ht, hts⟩)

theorem partTypes (hv : v.Agrees P v') (hn : P n.script) (role : Role) :
    Same P (TypesWithin P) (v.partTypes n role) (v'.partTypes n role) := by
  rw [View.partTypes, View.partTypes, hv.partsOf_eq]
  exact hv.typesOf _ fun p hp => script_of_mem_partsOf hp ▸ hn

theorem signature (hv : v.Agrees P v') (hn : P n.script) {result : Ty}
    (hresult : result.Within P) :
    Same P (Ty.Within P) (v.signature n result) (v'.signature n result) :=
  (hv.partTypes hn .param).bind fun _ hts => .pure (.function hts hresult)

/-! ## Calls and operators -/

theorem callCandidates (hv : v.Agrees P v') (hn : P n.script) :
    Same P (SymbolsWithin P) (v.callCandidates n) (v'.callCandidates n) := by
  unfold View.callCandidates
  rw [hv.part?_eq]
  split
  · exact .pure (List.forall_mem_nil _)
  · next callee hcallee =>
      have hcallee : P callee.script := script_of_part? hcallee ▸ hn
      simp only [hv.entry_eq, hv.script_eq]
      split
      · exact (hv.partType hcallee .operand).bind fun t ht => hv.memberCandidates ht _
      · split
        · refine .pure fun s hs => ?_
          obtain ⟨d, _, rfl⟩ := List.mem_map.mp hs
          exact hcallee
        · exact .pure (List.forall_mem_nil _)
      · exact .pure (List.forall_mem_nil _)

theorem callType (hv : v.Agrees P v') (hn : P n.script) :
    Same P (Ty.Within P) (v.callType n) (v'.callType n) := by
  unfold View.callType
  refine (hv.callCandidates hn).bind fun candidates hcandidates => ?_
  split
  · refine (hv.partType hn .callee).bind fun t ht => ?_
    cases ht with
    | function _ hr => exact .pure hr
    | classType hc => exact .pure (.classType hc)
    | _ => exact .pure .basic
  · refine (hv.partTypes hn .argument).bind fun args hargs => ?_
    refine (hv.findBest hcandidates hargs).bind fun best hbest => ?_
    cases best with
    | none => exact .pure .basic
    | some best =>
        exact (hv.symbolType (hbest best rfl)).bind fun t ht => .pure ht.resultType

theorem memberType (hv : v.Agrees P v') (hn : P n.script) :
    Same P (Ty.Within P) (v.memberType n) (v'.memberType n) := by
  unfold View.memberType
  rw [hv.script_eq]
  refine (hv.partType hn .operand).bind fun t ht => ?_
  refine (hv.memberNamed? ht _).bind fun s hs => ?_
  cases s with
  | none => exact hv.binaryResult ht .memberGet .basic
  | some s => exact hv.symbolType (hs s rfl)

theorem unaryType (hv : v.Agrees P v') (hn : P n.script) (op : Token.Kind) :
    Same P (Ty.Within P) (v.unaryType n op) (v'.unaryType n op) := by
  refine (hv.partType hn .operand).bind fun t ht => ?_
  split
  · exact .pure ht
  · exact hv.unaryResult ht .not
  · exact hv.unaryResult ht .neg
  · exact .pure .basic

/-- An operator applied to what is known of one part and to another part. -/
theorem resultWithPart (hv : v.Agrees P v') (hn : P n.script) {t : Ty} (ht : t.Within P)
    (op : Operator) (role : Role) :
    Same P (Ty.Within P) (do v.binaryResult t op (← v.partType n role))
      (do v'.binaryResult t op (← v'.partType n role)) :=
  (hv.partType hn role).bind fun _ hu => hv.binaryResult ht op hu

theorem binaryType (hv : v.Agrees P v') (hn : P n.script) (op : Token.Kind) :
    Same P (Ty.Within P) (v.binaryType n op) (v'.binaryType n op) := by
  have hcompare : ∀ left : Ty, left.Within P → Same P (Ty.Within P)
      (do
        let result ← v.binaryResult left .compare (← v.partType n .right)
        return if result.equal .int then .bool else .any)
      (do
        let result ← v'.binaryResult left .compare (← v'.partType n .right)
        return if result.equal .int then .bool else .any) := by
    intro left hleft
    refine (hv.partType hn .right).bind fun right hright => ?_
    refine (hv.binaryResult hleft .compare hright).bind fun result _ => .pure ?_
    split <;> exact .basic
  refine (hv.partType hn .left).bind fun left hleft => ?_
  split
  iterate 2 exact .pure hleft
  iterate 4 exact hcompare left hleft
  iterate 2 exact hv.resultWithPart hn hleft .equals .right
  split
  · exact .pure .basic
  · exact hv.resultWithPart hn hleft _ .right

theorem loopVarType (hv : v.Agrees P v') (hn : P n.script) (i : Nat) :
    Same P (Ty.Within P) (v.loopVarType n i) (v'.loopVarType n i) := by
  unfold View.loopVarType
  simp only [hv.partsOf_eq]
  split
  · exact .pure .basic
  · refine (hv.partType hn .iterated).bind fun t ht => ?_
    refine (hv.unaryResult ht .iterator).bind fun u hu => ?_
    cases hu with
    | list he | array he =>
        refine .pure ?_
        split
        · exact .basic
        · exact he
    | map hk hv =>
        refine .pure ?_
        split
        · exact hk
        · exact hv
    | _ => exact .pure .basic

/-! ## Lambdas -/

theorem argumentContext (hv : v.Agrees P v') (hn : P n.script) (i : Nat) :
    Same P (Ty.Within P) (v.argumentContext n i) (v'.argumentContext n i) := by
  unfold View.argumentContext
  rw [hv.partsOf_eq]
  refine (hv.callCandidates hn).bind fun candidates hcandidates => ?_
  split
  · refine (hv.partType hn .callee).bind fun t ht => ?_
    cases ht with
    | function hps _ => exact .pure (Ty.Within.getD hps i)
    | _ => exact .pure .basic
  · have hargs : ∀ p ∈ (v.partsOf n .argument).take i, P p.script := fun p hp =>
      script_of_mem_partsOf (List.mem_of_mem_take hp) ▸ hn
    exact (hv.typesOf _ hargs).bind fun known hknown => hv.predictNext hcandidates hknown

theorem lambdaContext (hv : v.Agrees P v') (hn : P n.script) :
    Same P (Ty.Within P) (v.lambdaContext n) (v'.lambdaContext n) := by
  unfold View.lambdaContext
  rw [hv.outsideParens_eq]
  split
  · exact .pure .basic
  · next child p hp =>
      have hp : P p.script := script_of_outsideParens hp ▸ hn
      simp only [hv.entry_eq, hv.part?_eq, hv.partsOf_eq]
      split
      · split
        · exact hv.partType hp .left
        · exact .pure .basic
      · split
        · exact hv.partType hp .type
        · exact .pure .basic
      · split
        · exact hv.argumentContext hp _
        · exact .pure .basic
      · exact .pure .basic

theorem lambdaType (hv : v.Agrees P v') (hn : P n.script) :
    Same P (Ty.Within P) (v.lambdaType n) (v'.lambdaType n) := by
  unfold View.lambdaType
  rw [hv.part?_eq]
  refine (hv.lambdaContext hn).bind fun expected hexpected => ?_
  refine (hv.functionShape? hexpected).bind fun shape hshape => ?_
  split
  · exact .pure hexpected
  · dsimp only
    split
    · next r hr =>
        exact Same.bind (.typeOf (script_of_part? hr ▸ hn)) fun _ ht => hv.signature hn ht
    · refine hv.signature hn ?_
      cases shape with
      | none => exact .basic
      | some t => exact (hshape t rfl).resultType

theorem paramType (hv : v.Agrees P v') (hn : P n.script) :
    Same P (Ty.Within P) (v.paramType n) (v'.paramType n) := by
  unfold View.paramType
  rw [hv.part?_eq, hv.parent?_eq]
  split
  · next t _ ht => exact .typeOf (script_of_part? ht ▸ hn)
  · exact .pure .basic
  · next lit _ hlit =>
      have hlit : P lit.script := script_of_parent? hlit ▸ hn
      simp only [hv.entry_eq, hv.partsOf_eq]
      split
      · split
        · exact .pure .basic
        · refine (hv.lambdaContext hlit).bind fun t ht => ?_
          refine (hv.functionShape? ht).bind fun shape hshape => ?_
          split
          · next params result =>
              exact .pure (Ty.Within.getD (Ty.within_function.mp (hshape _ rfl)).1 _)
          · exact .pure .basic
      · exact .pure .basic

/-! ## Names and declarations -/

theorem identType (hv : v.Agrees P v') (hn : P n.script) (name : Text) :
    Same P (Ty.Within P) (v.identType n name) (v'.identType n name) := by
  have hreference : Same P (Ty.Within P)
      (if name = [] then pure .any else v.symbolType? (v.lookup? n name))
      (if name = [] then pure .any else v'.symbolType? (v'.lookup? n name)) := by
    rw [hv.lookup?_eq]
    split
    · exact .pure .basic
    · exact hv.symbolType? (hv.registry.resolve? hn n.node name)
  unfold View.identType
  simp only [hv.parent?_eq, hv.part?_eq, hv.partsOf_eq]
  split
  · exact hreference
  · next p hp =>
      have hp : P p.script := script_of_parent? hp ▸ hn
      split
      · exact .typeOf hp
      · split
        · exact hv.loopVarType hp _
        · exact hreference

theorem namedType (hv : v.Agrees P v') (hn : P n.script) (segments : List Text) :
    Same P (Ty.Within P) (v.namedType n segments) (v'.namedType n segments) := by
  have htarget := hv.registry.namedTarget (s := v.script n.script) hn n.node segments
  unfold View.namedType
  rw [hv.script_eq, hv.registry_eq]
  split
  · next t ht => exact .pure (by rwa [ht] at htarget)
  · next decl fallback ht =>
      rw [ht] at htarget
      exact Same.bind (.typeOf hn) fun t ht => .pure (htarget.type fun _ => ht)

theorem within_classType (_ : v.Agrees P v') (hn : P n.script) : (v.classType n).Within P := by
  unfold View.classType
  split
  · next c hc =>
      obtain ⟨d, _, hd⟩ := Option.bind_eq_some_iff.mp hc
      exact .classType (Declaration.within_classType? hn hd)
  · exact .basic

theorem rule (hv : v.Agrees P v') (hn : P n.script) :
    Same P (Ty.Within P) (v.rule n) (v'.rule n) := by
  have hpart := fun role => hv.partType hn role
  unfold View.rule
  simp only [hv.entry_eq, hv.script_eq, hv.part?_eq, hv.parent?_eq, hv.classType_eq,
    hv.registry_eq]
  cases (v.entry n).form with
  | basicLit kind _ => exact .pure kind.within_literalType
  | ident name => exact hv.identType hn name
  | thisExpr =>
      dsimp only
      split
      · exact hv.symbolType hn
      · exact .pure .basic
  | parenExpr => exact hpart .operand
  | memberExpr => exact hv.memberType hn
  | indexExpr => exact (hpart .operand).bind fun _ ht => hv.resultWithPart hn ht .indexGet .index
  | callExpr => exact hv.callType hn
  | unaryExpr op => exact hv.unaryType hn op
  | binaryExpr op => exact hv.binaryType hn op
  | rangeExpr => exact (hpart .lower).bind fun _ ht => hv.resultWithPart hn ht .range .upper
  | castExpr => exact hpart .type
  | ternaryExpr => exact hpart .thenBranch
  | assignExpr _ => exact hpart .left
  | arrayLit | arrayType => exact (hpart .element).bind fun _ ht => .pure (.array ht)
  | listType => exact (hpart .element).bind fun _ ht => .pure (.list ht)
  | mapLit =>
      dsimp only
      split
      · exact .pure (.map .basic .basic)
      · next first hfirst =>
          have hfirst : P first.script := script_of_part? hfirst ▸ hn
          refine (hv.partType hfirst .key).bind fun k hk => ?_
          exact (hv.partType hfirst .value).bind fun u hu => .pure (.map hk hu)
  | mapType =>
      refine (hpart .key).bind fun k hk => ?_
      exact (hpart .value).bind fun u hu => .pure (.map hk hu)
  | funcLit => exact hv.lambdaType hn
  | varDecl _ =>
      dsimp only
      split
      · next t ht => exact .typeOf (script_of_part? ht ▸ hn)
      · exact hpart .value
  | param => exact hv.paramType hn
  | funcDecl _ | expandFuncDecl | operatorDecl _ | funcType =>
      exact (hpart .result).bind fun _ ht => hv.signature hn ht
  | constructorDecl =>
      dsimp only
      split
      · next p hp =>
          split
          · exact Same.bind (.typeOf (script_of_parent? hp ▸ hn)) fun _ ht => hv.signature hn ht
          · exact hv.signature hn .basic
      · exact hv.signature hn .basic
  | classDecl => exact .pure (hv.within_classType hn)
  | importDecl path => exact .pure (hv.registry.importType path)
  | primitiveType kind => exact .pure kind.within_primitiveType
  | namedType segments => exact hv.namedType hn segments
  | intersectionType =>
      exact (hv.partTypes hn .constituent).bind fun _ hts => .pure (.intersection hts)
  | _ => exact .pure .basic

/-! ## Types of nodes -/

theorem typeWithin (hv : v.Agrees P v') (fuel : Nat) (pending : List NodeRef)
    (hn : P n.script) :
    v'.typeWithin fuel pending n = v.typeWithin fuel pending n ∧
      (v.typeWithin fuel pending n).Within P := by
  induction fuel generalizing pending n with
  | zero => exact ⟨rfl, .basic⟩
  | succ fuel ih =>
      rw [View.typeWithin, View.typeWithin]
      split
      · exact ⟨rfl, .basic⟩
      -- The rule asks for nodes within `P` only, so the hypothesis covers them all.
      · exact (hv.rule hn).run fun m hm => ih (n :: pending) hm

/-- Nodes of scripts of which `P` holds have the same types in views that agree. -/
theorem typeOf (hv : v.Agrees P v') (hn : P n.script) :
    v'.typeOf n = v.typeOf n ∧ (v.typeOf n).Within P := by
  rw [View.typeOf, View.typeOf, Environment.nodeCount, Environment.nodeCount, hv.scripts_eq]
  exact hv.typeWithin _ [] hn

/-- Questions that keep to `P` have the same answers in views that agree. -/
theorem answer (hv : v.Agrees P v') {α : Type} {G : α → Prop} {q q' : Inquiry α}
    (h : Same P G q q') : v'.answer q' = v.answer q ∧ G (v.answer q) :=
  h.run fun _ hn => hv.typeOf hn

end Agrees

end View

end Zensight
