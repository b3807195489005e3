import Zensight.Proofs.Agreement.Findings
import Zensight.Proofs.HistoryIndependence

/-!
# Scripts that keep to themselves

Scripts see each other through the registry alone. A script that has no class at its
top level, no expand function and no global variable leaves the registry as it is, so
nobody else can tell whether it is there: `Reachable.add_private` says that neither the
answers about other scripts nor the findings in them change, and that taking the script
out again gives the old indexes back.

The script itself can tell. As long as it has no place it sees nothing of the others,
and a class in one of its functions inherits nothing from an imported class. So the
types that mention such a class are left out, and `inner_class_inherits_once_added`
shows that they have to be.
-/

namespace Zensight

namespace Script

/-- The script makes nothing known to the others. -/
structure IsPrivate (s : Script) : Prop where
  classes : s.bindings.classes = []
  expands : s.bindings.expands = []
  globals : ∀ d ∈ s.topLevel, d.modifiers.has .global = false

instance (s : Script) : Decidable s.IsPrivate :=
  decidable_of_iff (s.bindings.classes = [] ∧ s.bindings.expands = [] ∧
      ∀ d ∈ s.topLevel, d.modifiers.has .global = false)
    ⟨fun h => ⟨h.1, h.2.1, h.2.2⟩, fun h => ⟨h.classes, h.expands, h.globals⟩⟩

theorem IsPrivate.register_eq {s : Script} (h : s.IsPrivate) (id : ScriptId) (r : Registry) :
    s.register id r = r := by
  have hglobals : s.topLevel.filter (·.modifiers.has .global) = [] :=
    List.filter_eq_nil_iff.mpr fun d hd => by simp [h.globals d hd]
  simp [register, classTypes, h.classes, h.expands, hglobals]

end Script

namespace Environment

variable {e : Environment} {id : ScriptId}

/-! ## A script more, and the registry stays -/

theorem add_of_free (hfree : e.unit? (e.script id).path = none) :
    e.add id = .ok (e.put id).reindex := by
  rw [add, hfree]
  rfl

theorem replace_of_free (hfree : e.unit? (e.script id).path = none) :
    e.replace id = (e.put id).reindex := by
  rw [replace, hfree]

/-- At a free path a script comes last in the table. -/
theorem units_put_of_free (hfree : e.unit? (e.script id).path = none) :
    (e.put id).units = e.units ++ [((e.script id).path, id)] := by
  have hfree' : (e.setAttached id true).unit? (e.script id).path = none := hfree
  rw [put]
  simp only [hfree']
  rfl

/-- A script whose path is free has no place. -/
theorem Placed.ne_of_unit (h : e.Placed) (hfree : e.unit? (e.script id).path = none)
    {path : Text} {other : ScriptId} (hother : e.unit? path = some other) : other ≠ id := by
  rintro rfl
  rw [h.path_eq path other hother, hother] at hfree
  cases hfree

/-- The others keep their order when a script is added. -/
theorem Reachable.filter_order_add (h : e.Reachable) (hid : id < e.scripts.size)
    (hfree : e.unit? (e.script id).path = none) :
    (e.put id).reindex.order.filter (· ≠ id) = e.order := by
  have hplaced := h.placed
  have hindexed' := (Reachable.add h hid (add_of_free hfree)).indexed
  have hsorted : ((e.put id).reindex.order.filter (· ≠ id)).Pairwise
      fun a b => (e.script a).path < (e.script b).path :=
    hindexed'.ordered.filter _
  refine eq_of_strict_order (fun hab => List.lt_asymm hab) hsorted h.indexed.ordered fun other => ?_
  have hunit : ∀ path, (e.put id).reindex.unit? path =
      if path = (e.script id).path then some id else e.unit? path :=
    fun path => unit?_put e id path
  rw [List.mem_filter, hindexed'.listed, h.indexed.listed]
  simp only [hunit, decide_eq_true_eq]
  constructor
  · intro ⟨⟨path, hpath⟩, hother⟩
    split at hpath
    · exact absurd (Option.some.inj hpath).symm hother
    · exact ⟨path, hpath⟩
  · intro ⟨path, hpath⟩
    refine ⟨⟨path, ?_⟩, hplaced.ne_of_unit hfree hpath⟩
    rw [if_neg, hpath]
    rintro rfl
    rw [hfree] at hpath
    cases hpath

/-- A script that makes nothing known leaves the registry as it is. -/
theorem Reachable.registry_add_private (h : e.Reachable) (hid : id < e.scripts.size)
    (hfree : e.unit? (e.script id).path = none) (hprivate : (e.script id).IsPrivate) :
    (e.put id).reindex.registry = e.registry := by
  rw [h.current.registry_eq, ← h.filter_order_add hid hfree, List.foldl_filter]
  show List.foldl _ _ (e.put id).reindex.order = _
  refine List.foldl_ext _ _ _ fun r other _ => ?_
  by_cases hother : other = id
  · rw [hother, if_neg (by simp)]
    exact hprivate.register_eq id r
  · simp only [hother, ne_eq, not_false_eq_true, decide_true, if_true]
    rfl

/-! ## What the others see -/

theorem Reachable.seesAlike_add_private (h : e.Reachable) (hid : id < e.scripts.size)
    (hfree : e.unit? (e.script id).path = none) (hprivate : (e.script id).IsPrivate)
    {other : ScriptId} (hother : other ≠ id) : SeesAlike e (e.put id).reindex other := by
  have hattached : (e.put id).reindex.attached[other]? = e.attached[other]? :=
    Array.getElem?_setIfInBounds_ne (Ne.symm hother)
  rw [SeesAlike, registryOf, registryOf, hattached, h.registry_add_private hid hfree hprivate]

theorem Reachable.view_agrees_add_private (h : e.Reachable) (hid : id < e.scripts.size)
    (hfree : e.unit? (e.script id).path = none) (hprivate : (e.script id).IsPrivate) :
    e.view.Agrees (SeesAlike e (e.put id).reindex) (e.put id).reindex.view := by
  have hregistry := h.indexed.registry_within fun path other hother =>
    h.seesAlike_add_private hid hfree hprivate (h.placed.ne_of_unit hfree hother)
  exact ⟨rfl, h.registry_add_private hid hfree hprivate, hregistry,
    hierarchy_agrees rfl hregistry⟩

end Environment

/-! ## Fewer scripts to keep to -/

section

variable {P Q : ScriptId → Prop}

theorem ClassType.Within.mono {c : ClassType} (h : c.Within P) (hPQ : ∀ id, P id → Q id) :
    c.Within Q :=
  fun n hn => hPQ n.script (h n hn)

theorem Ty.Within.mono {t : Ty} (h : t.Within P) (hPQ : ∀ id, P id → Q id) : t.Within Q := by
  induction h with
  | basic => exact .basic
  | array _ ih => exact .array ih
  | list _ ih => exact .list ih
  | map _ _ ihk ihv => exact .map ihk ihv
  | mapEntry _ _ ihk ihv => exact .mapEntry ihk ihv
  | function _ _ ihps ihr => exact .function ihps ihr
  | intersection _ ih => exact .intersection ih
  | classType hc => exact .classType (hc.mono hPQ)

theorem Symbol.Within.mono {s : Symbol} (h : s.Within P) (hPQ : ∀ id, P id → Q id) :
    s.Within Q := by
  cases s with
  | stated s => exact fun t ht => (h t ht).mono hPQ
  | declared id d => exact hPQ id h

theorem Query.Within.mono {α : Type} {q : Query α} (h : q.Within P) (hPQ : ∀ id, P id → Q id) :
    q.Within Q := by
  cases q with
  | typeOf n | callCandidates n => exact hPQ _ h
  | symbolType s => exact Symbol.Within.mono h hPQ
  | membersOf t | memberCandidates t _ | operatorCandidates t _ | unaryResult t _ | rank t _ =>
      exact Ty.Within.mono h hPQ
  | binaryResult t _ right => exact ⟨h.1.mono hPQ, h.2.mono hPQ⟩
  | trinaryResult t _ first second => exact ⟨h.1.mono hPQ, h.2.1.mono hPQ, h.2.2.mono hPQ⟩
  | findBest _ _ | predictNext _ _ =>
      exact ⟨fun s hs => (h.1 s hs).mono hPQ, fun t ht => (h.2 t ht).mono hPQ⟩
  | rankExecutable s _ => exact ⟨h.1.mono hPQ, fun t ht => (h.2 t ht).mono hPQ⟩
  | lambdaForm c => exact ClassType.Within.mono h hPQ
  | typesOf _ => exact fun n hn => hPQ _ (h n hn)
  | lookup _ _ | globals | classNamed _ | expands | unit _ | units => trivial

end

namespace Environment

variable {e : Environment} {id : ScriptId}

/-! ## Taking the script out again -/

theorem Reachable.remove_added (h : e.Reachable) (hid : id < e.scripts.size)
    (hfree : e.unit? (e.script id).path = none) :
    ∃ e', (e.put id).reindex.remove (e.script id).path = .ok e' ∧ e'.units = e.units ∧
      e'.order = e.order ∧ e'.registry = e.registry := by
  have hreach := Reachable.add h hid (add_of_free hfree)
  have hunit : (e.put id).reindex.unit? (e.script id).path = some id := by
    have hput := unit?_put e id (e.script id).path
    rwa [if_pos rfl] at hput
  have hkept : e.units.filter (·.1 != (e.script id).path) = e.units := by
    refine List.filter_eq_self.mpr fun unit hmem => ?_
    obtain ⟨path, other⟩ := unit
    rw [mem_units_iff h.placed.distinct] at hmem
    simp only [bne_iff_ne, ne_eq]
    rintro rfl
    rw [hfree] at hmem
    cases hmem
  have hunits : (e.put id).reindex.units.filter (·.1 != (e.script id).path) = e.units := by
    show (e.put id).units.filter _ = _
    rw [units_put_of_free hfree, List.filter_append, hkept]
    simp
  obtain ⟨e', hremove⟩ : ∃ e', (e.put id).reindex.remove (e.script id).path = .ok e' := by
    rw [Environment.remove, hunit]
    exact ⟨_, rfl⟩
  have htable : e'.units = e.units := by
    rw [Environment.remove, hunit] at hremove
    cases hremove
    exact hunits
  have hscripts : e'.scripts = e.scripts :=
    (scripts_remove hremove).trans (scripts_put e id)
  have hlookup : ∀ path, e'.unit? path = e.unit? path := fun path => by rw [unit?, unit?, htable]
  have hreach' := hreach.remove hremove
  exact ⟨e', hremove, htable, h.indexed.order_eq hreach'.indexed hscripts hlookup,
    Indexed.registry_eq h hreach' hscripts hlookup⟩

/-- A script that makes nothing known to the others can be added at a free path, by
itself, in the place of nothing or as a batch. All questions that start from other
scripts then have the answers they had, except for the list of scripts. Subtyping
without casters is the same for types that mention no class of the script, whatever
they are compared with, and so are the findings in other scripts. Taken out again, the
script leaves the paths, their order and the registry as they were. -/
theorem Reachable.add_private (h : e.Reachable) (hid : id < e.scripts.size)
    (hfree : e.unit? (e.script id).path = none) (hprivate : (e.script id).IsPrivate) :
    ∃ e', e.add id = .ok e' ∧ e.replace id = e' ∧ e.addMany [id] = e' ∧ e'.Reachable ∧
      (∀ {α : Type} (q : Query α), q.Within (· ≠ id) → q.listsUnits = false →
        e'.ask q = e.ask q) ∧
      (∀ t u : Ty, t.Within (· ≠ id) → t.rank e'.hierarchy u = t.rank e.hierarchy u) ∧
      (∀ other, other ≠ id → e'.lint other = e.lint other) ∧
      e'.registry = e.registry ∧
      ∃ e'', e'.remove (e.script id).path = .ok e'' ∧ e''.units = e.units ∧
        e''.order = e.order ∧ e''.registry = e.registry := by
  have hview := h.view_agrees_add_private hid hfree hprivate
  have hsees := fun (other : ScriptId) (hother : other ≠ id) =>
    h.seesAlike_add_private hid hfree hprivate hother
  exact ⟨_, add_of_free hfree, replace_of_free hfree, rfl,
    Reachable.add h hid (add_of_free hfree),
    fun q hq hlists => hview.ask_of_views q (hq.mono hsees) hlists,
    fun t u ht => hview.hierarchy.rank t u (ht.mono hsees),
    fun other hother => hview.lint (hsees other hother),
    h.registry_add_private hid hfree hprivate, h.remove_added hid hfree⟩

/-! ## A class in a function -/

/-- A script with a class has its place, and a script with a function is only read. In
the function is a class that extends the other. -/
def innerUnplaced : Environment :=
  ((((Environment.mk (txt "scripts") #[] #[] [] [] {}).intern
    (Script.parse (txt "b") (txt "scripts.b")
      (txt "zenClass B\x7bfunction f()as int;\x7d"))).2.intern
    (Script.parse (txt "w") (txt "scripts.w")
      (txt "import scripts.b.B;function g()\x7bzenClass D extends B\x7b\x7d\x7d"))).2).addMany [0]

def innerClass : ClassType := { name := txt "scripts.w.D", decl := some (.declared ⟨1, 5⟩) }

theorem innerUnplaced_reachable : innerUnplaced.Reachable :=
  .addMany (.read _ _ _ (.read _ _ _ (.new _))) (by decide)

theorem innerUnplaced_free :
    1 < innerUnplaced.scripts.size ∧
      innerUnplaced.unit? (innerUnplaced.script 1).path = none ∧
      (innerUnplaced.script 1).IsPrivate := by
  decide +kernel

/-- The class in the function inherits nothing before its script is added, and the
members of the imported class after that. -/
theorem inner_class_inherits_once_added :
    innerUnplaced.Reachable ∧ 1 < innerUnplaced.scripts.size ∧
      innerUnplaced.unit? (innerUnplaced.script 1).path = none ∧
      (innerUnplaced.script 1).IsPrivate ∧
      ((innerUnplaced.script 1).symbolFor? 5).bind (·.classType? 1) = some innerClass ∧
      innerUnplaced.ask (.membersOf (.classType innerClass)) = [] ∧
      ∃ e', innerUnplaced.add 1 = .ok e' ∧
        (e'.ask (.membersOf (.classType innerClass))).map (·.name) = [txt "f"] := by
  obtain ⟨hknown, hfree, hprivate⟩ := innerUnplaced_free
  refine ⟨innerUnplaced_reachable, hknown, hfree, hprivate, by decide +kernel, ?_,
    _, add_of_free hfree, ?_⟩
  -- Sorting does not evaluate, but the units are in order already.
  · rw [show innerUnplaced = _ from reindex_of_sorted (by decide +kernel)]
    exact List.eq_nil_of_length_eq_zero (by decide +kernel)
  · rw [show (innerUnplaced.put 1).reindex = _ from reindex_of_sorted (by decide +kernel),
      show innerUnplaced = _ from reindex_of_sorted (by decide +kernel)]
    decide +kernel

/-- Meanwhile nothing happens to the class that is extended, nor to its script. -/
theorem extended_class_unchanged :
    innerUnplaced.Reachable ∧ 1 < innerUnplaced.scripts.size ∧
      innerUnplaced.unit? (innerUnplaced.script 1).path = none ∧
      (innerUnplaced.script 1).IsPrivate ∧
      ∃ e', innerUnplaced.add 1 = .ok e' ∧
        e'.ask (.membersOf (.classType baseClass)) =
          innerUnplaced.ask (.membersOf (.classType baseClass)) ∧
        e'.ask (.rank (.classType baseClass) (.classType innerClass)) =
          innerUnplaced.ask (.rank (.classType baseClass) (.classType innerClass)) ∧
        e'.lint 0 = innerUnplaced.lint 0 ∧ e'.registry = innerUnplaced.registry := by
  obtain ⟨hknown, hfree, hprivate⟩ := innerUnplaced_free
  obtain ⟨e', hadd, -, -, -, hask, -, hlint, hregistry, -⟩ :=
    innerUnplaced_reachable.add_private hknown hfree hprivate
  have hbase : (Ty.classType baseClass).Within (· ≠ 1) := by
    refine .classType fun n hn => ?_
    cases hn
    decide
  exact ⟨innerUnplaced_reachable, hknown, hfree, hprivate, e', hadd, hask _ hbase rfl,
    hask _ hbase rfl, hlint 0 (by decide), hregistry⟩

end Environment

end Zensight
