import Zensight.Lint
import Zensight.Proofs.Agreement.Rules

/-!
# Views that agree have the same findings

Most checks look at the tree of the script alone, and two at types as well: whether
an access names a member, and whether a call fits several overloads. What these ask
starts from nodes of the script, so views that agree on it answer the same, and the
report on the script comes out the same.
-/

namespace Zensight

namespace View.Agrees

variable {P : ScriptId → Prop} {v v' : View} {n : NodeRef}

theorem scriptOf_eq (hv : v.Agrees P v') (n : NodeRef) :
    Lint.scriptOf v' n = Lint.scriptOf v n :=
  hv.script_eq n.script

theorem startOf_eq (hv : v.Agrees P v') (n : NodeRef) : Lint.startOf v' n = Lint.startOf v n := by
  rw [Lint.startOf, Lint.startOf, hv.entry_eq]

theorem reference?_eq (hv : v.Agrees P v') (n : NodeRef) :
    Lint.reference? v' n = Lint.reference? v n := by
  unfold Lint.reference? Lint.isReference Lint.isNaming
  simp only [hv.entry_eq, hv.parent?_eq, hv.part?_eq, hv.partsOf_eq]

theorem unresolvedName_eq (hv : v.Agrees P v') (n : NodeRef) :
    Lint.unresolvedName v' n = Lint.unresolvedName v n := by
  unfold Lint.unresolvedName
  simp only [hv.reference?_eq, hv.lookup?_eq, hv.startOf_eq]

theorem unknownMember_eq (hv : v.Agrees P v') (hn : P n.script) :
    Lint.unknownMember v' n = Lint.unknownMember v n := by
  unfold Lint.unknownMember
  rw [hv.entry_eq, hv.part?_eq, hv.part?_eq]
  split
  · next receiver nameNode _ hreceiver _ =>
      have hreceiver : P receiver.script := script_of_part? hreceiver ▸ hn
      obtain ⟨htype, hwithin⟩ := hv.typeOf hreceiver
      simp only [hv.scriptOf_eq, hv.startOf_eq, htype]
      split
      · rfl
      · split
        · next c hc =>
            rw [hc] at hwithin
            rw [(hv.answer (hv.memberCandidates hwithin _)).1,
              (hv.answer (hv.operatorCandidates hwithin _)).1]
        · rfl
  · rfl

theorem ambiguousOverload_eq (hv : v.Agrees P v') (hn : P n.script) :
    Lint.ambiguousOverload v' n = Lint.ambiguousOverload v n := by
  obtain ⟨hcandidates, hwithin⟩ := hv.answer (hv.callCandidates hn)
  obtain ⟨hargs, hargsWithin⟩ := hv.answer (hv.partTypes hn .argument)
  unfold Lint.ambiguousOverload
  rw [hv.entry_eq, hcandidates]
  split
  · next first second others _ hfound =>
      rw [hfound] at hwithin
      have hranks : (first :: second :: others).map
            (fun c => v'.answer (v'.rankExecutable c (v.answer (v.partTypes n .argument)))) =
          (first :: second :: others).map
            fun c => v.answer (v.rankExecutable c (v.answer (v.partTypes n .argument))) :=
        List.map_congr_left fun c hc =>
          (hv.answer (hv.rankExecutable (hwithin c hc) hargsWithin)).1
      simp only [hargs, hv.startOf_eq, hranks]
  · rfl

theorem classNaming_eq (hv : v.Agrees P v') (n : NodeRef) :
    Lint.classNaming v' n = Lint.classNaming v n := by
  unfold Lint.classNaming
  simp only [hv.entry_eq, hv.scriptOf_eq, hv.startOf_eq]

theorem bodyStatements?_eq (hv : v.Agrees P v') (n : NodeRef) :
    Lint.bodyStatements? v' n = Lint.bodyStatements? v n := by
  unfold Lint.bodyStatements?
  simp only [hv.part?_eq, hv.partsOf_eq]

theorem emptyBody_eq (hv : v.Agrees P v') (n : NodeRef) :
    Lint.emptyBody v' n = Lint.emptyBody v n := by
  unfold Lint.emptyBody
  simp only [hv.entry_eq, hv.bodyStatements?_eq, hv.scriptOf_eq, hv.startOf_eq]

theorem unusedParameters_eq (hv : v.Agrees P v') (n : NodeRef) (used : List NodeRef) :
    Lint.unusedParameters v' n used = Lint.unusedParameters v n used := by
  unfold Lint.unusedParameters Lint.executableName?
  simp only [hv.entry_eq, hv.bodyStatements?_eq, hv.partsOf_eq, hv.scriptOf_eq, hv.startOf_eq]

theorem referent?_eq (hv : v.Agrees P v') (n : NodeRef) :
    Lint.referent? v' n = Lint.referent? v n := by
  unfold Lint.referent?
  simp only [hv.reference?_eq, hv.lookup?_eq]

theorem atNode_eq (hv : v.Agrees P v') (hn : P n.script) : Lint.atNode v' n = Lint.atNode v n := by
  rw [Lint.atNode, Lint.atNode, hv.unresolvedName_eq, hv.unknownMember_eq hn,
    hv.ambiguousOverload_eq hn, hv.classNaming_eq, hv.emptyBody_eq]

/-- Environments whose views agree on a script find the same in it. -/
theorem lint {e e' : Environment} (hv : e.view.Agrees P e'.view) {id : ScriptId} (hid : P id) :
    e'.lint id = e.lint id := by
  have hscript : e'.script id = e.script id := hv.script_eq id
  have hfound : ∀ nodes : List NodeId,
      (nodes.map fun n => (⟨id, n⟩ : NodeRef)).flatMap (Lint.atNode e'.view) =
        (nodes.map fun n => (⟨id, n⟩ : NodeRef)).flatMap (Lint.atNode e.view) := by
    intro nodes
    refine List.flatMap_congr fun n hn => ?_
    obtain ⟨m, -, rfl⟩ := List.mem_map.mp hn
    exact hv.atNode_eq hid
  have hused : Lint.referent? e'.view = Lint.referent? e.view := funext hv.referent?_eq
  have hunused : Lint.unusedParameters e'.view = Lint.unusedParameters e.view := by
    funext n used
    exact hv.unusedParameters_eq n used
  unfold Environment.lint
  simp only [hscript, hfound, hused, hunused]

end View.Agrees

end Zensight
