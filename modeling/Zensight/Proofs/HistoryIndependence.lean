import Zensight.Proofs.Agreement.Queries
import Zensight.Proofs.Indexes

/-!
# Answers do not depend on the history

Two environments with the same scripts at the same paths have the same registry,
whatever was added, replaced and removed before. They can differ in one thing only:
whether a script that has lost its place still sees the registry. `replace` and
`remove` detach such a script and a batch does not, so after a batch a displaced
script, and the classes it declares, may go on as if it had kept its place.

Questions that start from scripts that see the same in both environments have the
same answers. The scripts of the workspace do; and all scripts do if no batch of
either history displaced one (`Steady`).
-/

namespace Zensight.Environment

variable {e e' : Environment} {P : ScriptId → Prop}

/-! ## What environments with the same scripts at the same paths agree on -/

/-- A script that sees the same of the others in both environments. -/
def SeesAlike (e e' : Environment) (id : ScriptId) : Prop := e'.registryOf id = e.registryOf id

theorem Indexed.registry_within (h : e.Indexed)
    (hP : ∀ path id, e.unit? path = some id → P id) : e.registry.Within P := by
  have hclass : ∀ c ∈ e.registry.classes, c.Within P := by
    intro c hc n hn
    obtain ⟨path, id, m, hid, hm⟩ := h.unit_of_mem_classes hc
    rw [hm] at hn
    cases hn
    exact hP path id hid
  refine ⟨fun s hs => ?_, hclass, fun name c hc => ?_, fun s hs => ?_⟩
  · obtain ⟨path, id, d, hid, rfl⟩ := h.unit_of_mem_globals hs
    exact hP path id hid
  · rw [h.named] at hc
    exact hclass c (List.mem_of_find?_eq_some hc)
  · obtain ⟨path, id, d, hid, rfl⟩ := h.unit_of_mem_expands hs
    exact hP path id hid

theorem registryOf_within (h : e.registry.Within P) (id : ScriptId) :
    (e.registryOf id).Within P := by
  unfold registryOf
  split
  · exact h
  · refine ⟨List.forall_mem_nil _, List.forall_mem_nil _, ?_, List.forall_mem_nil _⟩
    intro name c hc
    cases hc

theorem namedClass?_eq (hscripts : e'.scripts = e.scripts) {id : ScriptId}
    (hid : SeesAlike e e' id) : e'.namedClass? id = e.namedClass? id := by
  have himport : e'.ownImportType id = e.ownImportType id := by
    funext n
    rw [ownImportType, ownImportType, hid, script_eq_of_scripts_eq hscripts]
  funext n
  rw [namedClass?, namedClass?, hid, himport, script_eq_of_scripts_eq hscripts]

theorem ownImportType_within (h : e.registry.Within P) (id : ScriptId) (n : NodeId) :
    (e.ownImportType id n).Within P := by
  unfold ownImportType
  split
  · exact (registryOf_within h id).importType _
  · exact .basic

theorem namedClass?_within (h : e.registry.Within P) {id : ScriptId} (hid : P id) {n : NodeId}
    {c : ClassType} (hc : e.namedClass? id n = some c) : c.Within P := by
  unfold namedClass? at hc
  split at hc
  · next segments _ =>
      have htarget := (registryOf_within h id).namedTarget (s := e.script id) hid n segments
      have htype := htarget.type (e.ownImportType_within h id)
      split at hc
      · next d hd =>
          cases hc
          rw [hd] at htype
          exact Ty.within_classType.mp htype
      · cases hc
  · cases hc

/-- Classes of scripts that see the same have the same members and super classes. -/
theorem hierarchy_agrees (hscripts : e'.scripts = e.scripts)
    (h : e.registry.Within (SeesAlike e e')) :
    e.hierarchy.Agrees (SeesAlike e e') e'.hierarchy := by
  have hscript := script_eq_of_scripts_eq hscripts
  constructor
  · show e'.nodeCount = e.nodeCount
    rw [nodeCount, nodeCount, hscripts]
  · intro c _
    unfold Hierarchy.members hierarchy
    simp only [hscript]
  · intro c hc s hs
    unfold Hierarchy.members hierarchy at hs
    split at hs
    · next r hr =>
        cases r with
        | listed _ => cases hs
        | declared decl =>
            obtain ⟨d, _, rfl⟩ := List.mem_map.mp hs
            exact hc decl hr
    · cases hs
  · intro c hc
    unfold Hierarchy.supers
    split
    · next r hr =>
        cases r with
        | listed _ => rfl
        | declared decl =>
            -- Here alone it matters what the script of the class sees.
            show e'.declaredSupers decl = e.declaredSupers decl
            rw [declaredSupers, declaredSupers, namedClass?_eq hscripts (hc decl hr), hscript]
    · rfl
  · intro c hc d hd
    unfold Hierarchy.supers at hd
    split at hd
    · next r hr =>
        cases r with
        | listed _ => cases hd
        | declared decl =>
            obtain ⟨n, _, hn⟩ := List.mem_filterMap.mp hd
            exact namedClass?_within h (hc decl hr) hn
    · cases hd

theorem Reachable.seesAlike (h : e.Reachable) (h' : e'.Reachable)
    (hscripts : e'.scripts = e.scripts) (hunits : ∀ path, e'.unit? path = e.unit? path)
    {path : Text} {id : ScriptId} (hid : e.unit? path = some id) : SeesAlike e e' id := by
  have hid' : e'.unit? path = some id := (hunits path).trans hid
  rw [SeesAlike, h.indexed.registryOf_eq hid, h'.indexed.registryOf_eq hid']
  exact Indexed.registry_eq h h' hscripts hunits

theorem Reachable.view_agrees (h : e.Reachable) (h' : e'.Reachable)
    (hscripts : e'.scripts = e.scripts) (hunits : ∀ path, e'.unit? path = e.unit? path) :
    e.view.Agrees (SeesAlike e e') e'.view := by
  have hregistry := h.indexed.registry_within fun path id hid =>
    h.seesAlike h' hscripts hunits hid
  exact ⟨hscripts, Indexed.registry_eq h h' hscripts hunits, hregistry,
    hierarchy_agrees hscripts hregistry⟩

/-! ## Changes -/

/-- A change to the workspace, with scripts that were read before. -/
inductive Mutation where
  | add (id : ScriptId)
  | addMany (ids : List ScriptId)
  | replace (id : ScriptId)
  | remove (path : Text)

namespace Mutation

/-- The scripts that come in were read. -/
def Known (e : Environment) : Mutation → Prop
  | add id | replace id => id < e.scripts.size
  | addMany ids => ∀ id ∈ ids, id < e.scripts.size
  | remove _ => True

/-- When a change is refused, and why. -/
inductive Refused (e : Environment) : Mutation → EnvironmentError → Prop where
  | taken {id old : ScriptId} : e.unit? (e.script id).path = some old →
      Refused e (.add id) (.duplicate (e.script id).path)
  | free {path : Text} : e.unit? path = none → Refused e (.remove path) (.missing path)

/-- No script loses its place by a batch: those that come in find their paths free,
or are there already, and do not take them from each other. -/
def Spares (e : Environment) : Mutation → Prop
  | addMany ids =>
    (∀ id ∈ ids, ∀ old, e.unit? (e.script id).path = some old → old = id) ∧
      ids.Pairwise fun a b => (e.script a).path = (e.script b).path → a = b
  | _ => True

end Mutation

/-- What a change leads to. -/
def perform (e : Environment) : Mutation → Except EnvironmentError Environment
  | .add id => e.add id
  | .addMany ids => .ok (e.addMany ids)
  | .replace id => .ok (e.replace id)
  | .remove path => e.remove path

/-- The environment after a change, refused or not. -/
def after (e : Environment) (m : Mutation) : Environment := (e.perform m).toOption.getD e

theorem perform_eq_error_iff (e : Environment) (m : Mutation) (err : EnvironmentError) :
    e.perform m = .error err ↔ m.Refused e err := by
  constructor
  · intro h
    cases m with
    | add id =>
        have hadd : e.add id = .error err := h
        rw [add] at hadd
        split at hadd
        · next htaken =>
            cases hadd
            obtain ⟨old, hold⟩ := Option.isSome_iff_exists.mp htaken
            exact .taken hold
        · cases hadd
    | addMany ids => cases h
    | replace id => cases h
    | remove path =>
        have hremove : e.remove path = .error err := h
        rw [remove] at hremove
        split at hremove
        · next hfree =>
            cases hremove
            exact .free hfree
        · cases hremove
  · intro h
    cases h with
    | @taken id old hold =>
        show e.add id = _
        rw [add, hold]
        rfl
    | @free path hfree =>
        show e.remove path = _
        rw [remove, hfree]

theorem after_of_refused {m : Mutation} {err : EnvironmentError} (h : m.Refused e err) :
    e.after m = e := by
  rw [after, (e.perform_eq_error_iff m err).mpr h]
  rfl

theorem Reachable.after (h : e.Reachable) {m : Mutation} (hm : m.Known e) :
    (e.after m).Reachable := by
  cases hperform : e.perform m with
  | error err =>
      rw [after_of_refused ((e.perform_eq_error_iff m err).mp hperform)]
      exact h
  | ok e' =>
      rw [Environment.after, hperform]
      cases m with
      | add id => exact h.add hm hperform
      | addMany ids =>
          cases hperform
          exact h.addMany hm
      | replace id =>
          cases hperform
          exact h.replace hm
      | remove path => exact h.remove hperform

/-! ## Histories without displaced scripts -/

/-- Environments that came about without a batch that displaced a script. -/
inductive Steady : Environment → Prop where
  | new (root : Text) : Steady { root }
  | read {e : Environment} (path package source : Text) :
      Steady e → Steady (e.intern (Script.parse path package source)).2
  | after {e : Environment} {m : Mutation} :
      Steady e → m.Known e → m.Spares e → Steady (e.after m)

theorem Steady.reachable (h : e.Steady) : e.Reachable := by
  induction h with
  | new root => exact .new root
  | read path package source _ ih => exact .read path package source ih
  | after _ hm _ ih => exact ih.after hm

theorem Steady.addMany (h : e.Steady) {ids : List ScriptId}
    (hids : ∀ id ∈ ids, id < e.scripts.size) (hspares : (Mutation.addMany ids).Spares e) :
    (e.addMany ids).Steady :=
  .after (m := .addMany ids) h hids hspares

theorem Steady.replace (h : e.Steady) {id : ScriptId} (hid : id < e.scripts.size) :
    (e.replace id).Steady :=
  .after (m := .replace id) h hid trivial

/-- Only scripts with a place see the registry. -/
def Tidy (e : Environment) : Prop :=
  ∀ id, e.attached[id]? = some true → ∃ path, e.unit? path = some id

namespace Tidy

variable {id : ScriptId}

theorem reindex (h : e.Tidy) : e.reindex.Tidy := h

theorem intern (h : e.Tidy) (s : Script) : (e.intern s).2.Tidy := by
  intro id hid
  have hpush : (e.attached.push false)[id]? = some true := hid
  rw [Array.getElem?_push] at hpush
  split at hpush
  · cases hpush
  · exact h id hpush

/-- A script takes its place; the others that see the registry are at other paths. -/
theorem put (h : ∀ other, other ≠ id → e.attached[other]? = some true →
      ∃ path, path ≠ (e.script id).path ∧ e.unit? path = some other) : (e.put id).Tidy := by
  intro other hother
  by_cases hne : other = id
  · exact ⟨(e.script id).path, by rw [unit?_put, if_pos rfl, hne]⟩
  · have hbefore : (e.attached.setIfInBounds id true)[other]? = some true := hother
    rw [Array.getElem?_setIfInBounds_ne (Ne.symm hne)] at hbefore
    obtain ⟨path, hpath, hunit⟩ := h other hne hbefore
    exact ⟨path, by rw [unit?_put, if_neg hpath, hunit]⟩

/-- A script that finds its path free, or is there already, displaces none. -/
theorem put_spared (h : e.Tidy)
    (hid : ∀ old, e.unit? (e.script id).path = some old → old = id) : (e.put id).Tidy := by
  refine put fun other hne hother => ?_
  obtain ⟨path, hpath⟩ := h other hother
  refine ⟨path, fun heq => hne (hid other ?_), hpath⟩
  rw [← heq, hpath]

theorem addMany (h : e.Tidy) {ids : List ScriptId} (hspares : (Mutation.addMany ids).Spares e) :
    (e.addMany ids).Tidy := by
  have hfold : ∀ (ids : List ScriptId) (e : Environment), e.Tidy →
      (Mutation.addMany ids).Spares e → (ids.foldl Environment.put e).Tidy := by
    intro ids
    induction ids with
    | nil => intro e h _; exact h
    | cons id ids ih =>
        intro e h ⟨hold, hpairwise⟩
        obtain ⟨hid, hrest⟩ := List.pairwise_cons.mp hpairwise
        refine ih _ (h.put_spared (hold id List.mem_cons_self))
          ⟨fun other hother old hput => ?_, hrest⟩
        have hpath : (e.put id).unit? (e.script other).path = some old := hput
        rw [unit?_put] at hpath
        split at hpath
        · next heq =>
            cases hpath
            exact hid other hother heq.symm
        · exact hold other (List.mem_cons_of_mem _ hother) old hpath
  exact (hfold ids e h hspares).reindex

/-- Of the scripts that see the registry, all but the one at a path are elsewhere. -/
theorem elsewhere (h : e.Tidy) {path : Text} {old : ScriptId} (hold : e.unit? path = some old)
    {other : ScriptId} (hother : (e.setAttached old false).attached[other]? = some true) :
    ∃ p, p ≠ path ∧ e.unit? p = some other := by
  have hbefore : (e.attached.setIfInBounds old false)[other]? = some true := hother
  rw [Array.getElem?_setIfInBounds] at hbefore
  split at hbefore
  · split at hbefore <;> cases hbefore
  · next hne =>
      obtain ⟨p, hp⟩ := h other hbefore
      refine ⟨p, fun heq => hne ?_, hp⟩
      rw [heq, hold] at hp
      cases hp
      rfl

theorem replace (h : e.Tidy) (id : ScriptId) : (e.replace id).Tidy := by
  rw [Environment.replace]
  cases hold : e.unit? (e.script id).path with
  | none => exact (h.put_spared (by simp [hold])).reindex
  | some old =>
      have hput : ((e.setAttached old false).put id).Tidy :=
        put fun other _ hother => h.elsewhere hold hother
      exact hput.reindex

theorem add (h : e.Tidy) {e' : Environment} (hadd : e.add id = .ok e') : e'.Tidy := by
  rw [Environment.add] at hadd
  split at hadd
  · cases hadd
  · next hfree =>
      cases hadd
      rw [Option.not_isSome_iff_eq_none] at hfree
      exact (h.put_spared (by simp [hfree])).reindex

theorem remove (h : e.Tidy) {path : Text} {e' : Environment} (hremove : e.remove path = .ok e') :
    e'.Tidy := by
  rw [Environment.remove] at hremove
  split at hremove
  · cases hremove
  · next old hold =>
      cases hremove
      intro other hother
      obtain ⟨p, hne, hp⟩ := h.elsewhere hold hother
      refine ⟨p, ?_⟩
      show (e.units.filter (·.1 != path)).lookup p = some other
      rw [lookup_removed, if_neg hne]
      exact hp

theorem after (h : e.Tidy) {m : Mutation} (hm : m.Spares e) : (e.after m).Tidy := by
  cases hperform : e.perform m with
  | error err =>
      rw [after_of_refused ((e.perform_eq_error_iff m err).mp hperform)]
      exact h
  | ok e' =>
      rw [Environment.after, hperform]
      cases m with
      | add id => exact h.add hperform
      | addMany ids =>
          cases hperform
          exact h.addMany hm
      | replace id =>
          cases hperform
          exact h.replace id
      | remove path => exact h.remove hperform

end Tidy

theorem Steady.tidy (h : e.Steady) : e.Tidy := by
  induction h with
  | new root => exact nofun
  | read path package source _ ih => exact ih.intern _
  | after _ _ hspares ih => exact ih.after hspares

/-- A script without a place sees nothing. -/
theorem Tidy.registryOf_eq (h : e.Tidy) {id : ScriptId} (hid : ∀ path, e.unit? path ≠ some id) :
    e.registryOf id = {} := by
  rw [registryOf]
  split
  · next hattached =>
      have hattached : e.attached[id]? = some true := by
        cases hflag : e.attached[id]? with
        | none => rw [hflag] at hattached; cases hattached
        | some b => rw [hflag] at hattached; exact congrArg some hattached
      obtain ⟨path, hpath⟩ := h id hattached
      exact absurd hpath (hid path)
  · rfl

theorem Steady.seesAlike (h : e.Steady) (h' : e'.Steady) (hscripts : e'.scripts = e.scripts)
    (hunits : ∀ path, e'.unit? path = e.unit? path) (id : ScriptId) : SeesAlike e e' id := by
  by_cases hid : ∃ path, e.unit? path = some id
  · obtain ⟨path, hid⟩ := hid
    exact h.reachable.seesAlike h'.reachable hscripts hunits hid
  · have hid : ∀ path, e.unit? path ≠ some id := fun path hpath => hid ⟨path, hpath⟩
    have hid' : ∀ path, e'.unit? path ≠ some id := fun path => hunits path ▸ hid path
    rw [SeesAlike, h.tidy.registryOf_eq hid, h'.tidy.registryOf_eq hid']

/-! ## The indexes of an environment, and its answers -/

/-- Whatever changes an environment has seen, its order and its registry are those of
the scripts it has, which see themselves as it sees them; a change that it refuses
leaves it as it is. Another environment with the same scripts at the same paths has
the same answers to all questions that start from scripts which see the same of the
others in both, as those of the workspace do; and to all questions, if no batch has
displaced a script in either. -/
theorem Reachable.history_independent {e : Environment} (h : e.Reachable) :
    e.Indexed ∧
      (∀ path id d, e.unit? path = some id →
        e.ownType? (.declared id d) = some (e.ask (.symbolType (.declared id d)))) ∧
      (∀ s ∈ e.registry.globals ++ e.registry.expands,
        ∃ path id d, e.unit? path = some id ∧ s = .declared id d) ∧
      (∀ c ∈ e.registry.classes,
        ∃ path id n, e.unit? path = some id ∧ c.decl = some (.declared ⟨id, n⟩)) ∧
      (∀ m err, (e.perform m = .error err ↔ m.Refused e err) ∧
        (m.Refused e err → e.after m = e)) ∧
      (∀ m : Mutation, m.Known e → (e.after m).Reachable) ∧
      ∀ e', e'.Reachable → e'.scripts = e.scripts → (∀ path, e'.unit? path = e.unit? path) →
        (∀ path id, e.unit? path = some id → SeesAlike e e' id) ∧
        (∀ {α : Type} (q : Query α), q.Within (SeesAlike e e') → e'.ask q = e.ask q) ∧
        (e.Steady → e'.Steady → ∀ {α : Type} (q : Query α), e'.ask q = e.ask q) := by
  have hindexed := h.indexed
  refine ⟨hindexed, fun path id d hid => hindexed.ownType?_eq hid d, fun s hs => ?_,
    fun c hc => hindexed.unit_of_mem_classes hc,
    fun m err => ⟨e.perform_eq_error_iff m err, after_of_refused⟩, fun m hm => h.after hm,
    fun e' h' hscripts hunits => ?_⟩
  · rcases List.mem_append.mp hs with hs | hs
    · exact hindexed.unit_of_mem_globals hs
    · exact hindexed.unit_of_mem_expands hs
  · have hview := h.view_agrees h' hscripts hunits
    have horder := hindexed.order_eq h'.indexed hscripts hunits
    refine ⟨fun path id hid => h.seesAlike h' hscripts hunits hid,
      fun q hq => hview.ask hunits horder q hq, fun hsteady hsteady' α q => ?_⟩
    have hall := hsteady.seesAlike hsteady' hscripts hunits
    exact hview.ask hunits horder q (q.within_of_forall hall)

/-! ## A batch that displaces a script -/

/-- Three scripts that were read, the last two for one path: a class, another that
extends it, and a script without classes. -/
def threeRead : Environment :=
  ((((Environment.mk (txt "scripts") #[] #[] [] [] {}).intern
    (Script.parse (txt "b") (txt "scripts.b")
      (txt "zenClass B\x7bfunction f()as int;\x7d"))).2.intern
    (Script.parse (txt "a") (txt "scripts.a")
      (txt "import scripts.b.B;zenClass D extends B\x7b\x7d"))).2.intern
    (Script.parse (txt "a") (txt "scripts.a") (txt "var x=1;"))).2

theorem threeRead_steady : threeRead.Steady :=
  .read _ _ _ (.read _ _ _ (.read _ _ _ (.new _)))

/-- A batch puts the third script in the place of the second. -/
def displacedByBatch : Environment := (threeRead.addMany [1, 0]).addMany [2]

/-- The third script replaces the second. -/
def displacedByReplacement : Environment := (threeRead.addMany [1, 0]).replace 2

/-- The second script never had a place. -/
def neverPlaced : Environment := threeRead.addMany [2, 0]

def baseClass : ClassType := { name := txt "scripts.b.B", decl := some (.declared ⟨0, 1⟩) }

def derivedClass : ClassType := { name := txt "scripts.a.D", decl := some (.declared ⟨1, 2⟩) }

theorem displacedByBatch_reachable : displacedByBatch.Reachable :=
  .addMany (.addMany threeRead_steady.reachable (by decide)) (by decide)

theorem displacedByReplacement_steady : displacedByReplacement.Steady :=
  .replace (.addMany threeRead_steady (by decide) ⟨nofun, by decide⟩) (by decide)

theorem neverPlaced_steady : neverPlaced.Steady :=
  .addMany threeRead_steady (by decide) ⟨nofun, by decide⟩

theorem scripts_displaced :
    displacedByBatch.scripts = threeRead.scripts ∧
      displacedByReplacement.scripts = threeRead.scripts ∧
      neverPlaced.scripts = threeRead.scripts := by
  simp only [displacedByBatch, displacedByReplacement, neverPlaced, scripts_addMany,
    scripts_replace, and_self]

theorem units_displaced :
    displacedByBatch.units = [(txt "a", 2), (txt "b", 0)] ∧
      displacedByReplacement.units = [(txt "a", 2), (txt "b", 0)] ∧
      neverPlaced.units = [(txt "a", 2), (txt "b", 0)] := by
  decide +kernel

/-- Units that stand in the order of their paths need no sorting. -/
theorem reindex_of_sorted (h : e.units.Pairwise fun a b => (!b.1.before a.1) = true) :
    e.reindex = { e with
      order := e.units.map (·.2)
      registry := (e.units.map (·.2)).foldl (fun r id => (e.script id).register id r) {} } := by
  rw [reindex, List.mergeSort_of_pairwise h]

/-- A class of a script that a batch has displaced still inherits through the
registry. After a replacement it does not, though all scripts have the same places. -/
theorem displaced_class_inherits :
    displacedByBatch.Reachable ∧ displacedByReplacement.Reachable ∧
      displacedByReplacement.scripts = displacedByBatch.scripts ∧
      (∀ path, displacedByReplacement.unit? path = displacedByBatch.unit? path) ∧
      (threeRead.script 1).classTypes 1 = [derivedClass] ∧
      (displacedByBatch.ask (.membersOf (.classType derivedClass))).map (·.name) = [txt "f"] ∧
      displacedByReplacement.ask (.membersOf (.classType derivedClass)) = [] := by
  obtain ⟨hscripts, hscripts', -⟩ := scripts_displaced
  obtain ⟨hunits, hunits', -⟩ := units_displaced
  refine ⟨displacedByBatch_reachable, displacedByReplacement_steady.reachable,
    hscripts'.trans hscripts.symm, fun path => ?_, by decide +kernel, ?_, ?_⟩
  · rw [unit?, unit?, hunits, hunits']
  -- Sorting does not evaluate, but the units are in order already.
  · rw [show displacedByBatch = _ from reindex_of_sorted (by decide +kernel)]
    decide +kernel
  · rw [show displacedByReplacement = _ from reindex_of_sorted (by decide +kernel)]
    exact List.eq_nil_of_length_eq_zero (by decide +kernel)

theorem displaced_history_independent :
    displacedByBatch.Reachable ∧ displacedByReplacement.Steady ∧ neverPlaced.Steady ∧
      displacedByReplacement.ask (.membersOf (.classType baseClass)) =
        displacedByBatch.ask (.membersOf (.classType baseClass)) ∧
      neverPlaced.ask (.membersOf (.classType derivedClass)) =
        displacedByReplacement.ask (.membersOf (.classType derivedClass)) := by
  have hbatch := displacedByBatch_reachable
  have hreplacement := displacedByReplacement_steady
  have hnever := neverPlaced_steady
  obtain ⟨hscripts, hscripts', hscripts''⟩ := scripts_displaced
  obtain ⟨hunits, hunits', hunits''⟩ := units_displaced
  obtain ⟨hsees, hask, -⟩ := hbatch.history_independent.2.2.2.2.2.2 displacedByReplacement
    hreplacement.reachable (hscripts'.trans hscripts.symm)
    fun path => by rw [unit?, unit?, hunits, hunits']
  obtain ⟨-, -, hsteady⟩ := hreplacement.reachable.history_independent.2.2.2.2.2.2 neverPlaced
    hnever.reachable (hscripts''.trans hscripts'.symm)
    fun path => by rw [unit?, unit?, hunits', hunits'']
  have hbase : SeesAlike displacedByBatch displacedByReplacement 0 :=
    hsees (txt "b") 0 (by rw [unit?, hunits]; rfl)
  refine ⟨hbatch, hreplacement, hnever, hask _ (.classType ?_), hsteady hreplacement hnever _⟩
  intro n hn
  cases hn
  exact hbase

end Zensight.Environment
