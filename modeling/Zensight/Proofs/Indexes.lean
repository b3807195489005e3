import Mathlib.Data.List.Basic
import Mathlib.Data.List.Induction
import Mathlib.Data.List.Pairwise
import Zensight.Proofs.Histories
import Zensight.Typing.Session

/-!
# What an environment keeps in order

However an environment came about, its order lists the scripts of its workspace
by path, each once, and its registry is made from their declarations in that
order. The order and the registry are computed anew on every change, so all that
a change has to keep is the table of paths: `Placed`.

A script that has a place is attached, and then it sees what the environment
sees: its symbols have for themselves the types that they have to the
environment (`ofScript_eq_view`).
-/

namespace Zensight

/-- Lists in a strict order are the same if they have the same elements. -/
theorem eq_of_strict_order {α : Type} {R : α → α → Prop} (hasymm : ∀ {a b}, R a b → ¬ R b a)
    {xs ys : List α} (hxs : xs.Pairwise R) (hys : ys.Pairwise R) (h : ∀ a, a ∈ xs ↔ a ∈ ys) :
    xs = ys := by
  have hne {a b : α} (hab : R a b) : a ≠ b := by
    rintro rfl
    exact hasymm hab hab
  refine List.Perm.eq_of_pairwise (fun a b _ _ hab hba => absurd hba (hasymm hab)) hxs hys ?_
  exact (List.perm_ext_iff_of_nodup (hxs.imp hne) (hys.imp hne)).mpr h

theorem Text.before_iff_lt (s t : Text) : s.before t = true ↔ s < t := by
  fun_induction Text.before s t with
  | case1 | case2 | case3 => simp
  | case4 a s b t ih => simp [List.cons_lt_cons_iff, ih]

/-- What is sorted by a text stands in the order of the texts. -/
theorem Text.pairwise_mergeSort {α : Type} (key : α → Text) (l : List α) :
    (l.mergeSort fun a b => !(key b).before (key a)).Pairwise fun a b => key a ≤ key b := by
  have hle : ∀ a b, (!(key b).before (key a)) = true ↔ key a ≤ key b := by
    intro a b
    rw [Bool.not_eq_true', ← Bool.not_eq_true, Text.before_iff_lt]
    exact List.not_lt
  simp only [← hle]
  refine List.pairwise_mergeSort ?_ ?_ _
  · intro a b c
    rw [hle, hle, hle]
    exact List.le_trans
  · intro a b
    rw [Bool.or_eq_true, hle, hle]
    exact List.le_total (key a) (key b)

/-- A table with names for keys, read from the front. -/
theorem Text.lookup_cons {α : Type} (key name : Text) (a : α) (entries : List (Text × α)) :
    ((key, a) :: entries).lookup name = if name = key then some a else entries.lookup name := by
  by_cases h : name = key
  · rw [h, List.lookup_cons_self, if_pos rfl]
  · have hne : (name == key) = false := by simpa using h
    rw [List.lookup_cons, hne, if_neg h]

namespace Registry

/-- The first class of each name is the one that the name stands for. -/
def Consistent (r : Registry) : Prop :=
  ∀ name, r.classNamed? name = r.classes.find? (·.name == name)

theorem Consistent.addClass {r : Registry} (h : r.Consistent) (c : ClassType) :
    (r.addClass c).Consistent := by
  intro name
  have hname := h name
  have hc := h c.name
  unfold classNamed? at hname hc
  rw [classNamed?, Registry.addClass]
  simp only [List.find?_append, ← hname]
  split
  · next htaken =>
      by_cases hcn : c.name = name
      · rw [← hcn]
        obtain ⟨d, hd⟩ := Option.isSome_iff_exists.mp htaken
        rw [classNamed?] at hd
        rw [hd]
        rfl
      · simp [hcn]
  · rw [List.lookup_append, Text.lookup_cons, List.lookup_nil]
    by_cases hcn : c.name = name
    · simp [hcn]
    · simp [hcn, Ne.symm hcn]

theorem Consistent.addClasses {r : Registry} (h : r.Consistent) (cs : List ClassType) :
    (cs.foldl Registry.addClass r).Consistent := by
  induction cs generalizing r with
  | nil => exact h
  | cons c cs ih => exact ih (h.addClass c)

theorem foldl_addClass (cs : List ClassType) (r : Registry) :
    (cs.foldl Registry.addClass r).classes = r.classes ++ cs ∧
      (cs.foldl Registry.addClass r).globals = r.globals ∧
      (cs.foldl Registry.addClass r).expands = r.expands := by
  induction cs generalizing r with
  | nil => simp
  | cons c cs ih => simp [ih, Registry.addClass]

end Registry

namespace Script

/-- The global variables of a script that has the number `id`. -/
def globalSymbols (s : Script) (id : ScriptId) : List Symbol :=
  (s.topLevel.filter (·.modifiers.has .global)).map (.declared id)

/-- The expand functions of a script that has the number `id`. -/
def expandSymbols (s : Script) (id : ScriptId) : List Symbol :=
  s.bindings.expands.map (.declared id)

variable (s : Script) (id : ScriptId) (r : Registry)

theorem globals_register : (s.register id r).globals = r.globals ++ s.globalSymbols id := by
  simp [register, globalSymbols, Registry.foldl_addClass]

theorem expands_register : (s.register id r).expands = r.expands ++ s.expandSymbols id := by
  simp [register, expandSymbols, Registry.foldl_addClass]

theorem classes_register : (s.register id r).classes = r.classes ++ s.classTypes id := by
  simp [register, Registry.foldl_addClass]

theorem consistent_register {r : Registry} (h : r.Consistent) : (s.register id r).Consistent :=
  h.addClasses (s.classTypes id)

/-- The class types of a script are declared in it. -/
theorem decl_of_mem_classTypes {c : ClassType} (h : c ∈ s.classTypes id) :
    ∃ n, c.decl = some (.declared ⟨id, n⟩) := by
  obtain ⟨n, -, hc⟩ := List.mem_filterMap.mp h
  obtain ⟨d, -, hd⟩ := Option.bind_eq_some_iff.mp hc
  rw [Declaration.classType?] at hd
  split at hd
  · cases hd
    exact ⟨d.node, rfl⟩
  · cases hd

end Script

namespace Environment

theorem script_eq_of_scripts_eq {e e' : Environment} (h : e'.scripts = e.scripts) :
    e'.script = e.script := by
  funext id
  rw [script, script, h]

/-! ## The registry -/

/-- What the scripts of a list make known, in the order of the list. -/
structure Registers (e : Environment) (ids : List ScriptId) (r : Registry) : Prop where
  globals : r.globals = ids.flatMap fun id => (e.script id).globalSymbols id
  expands : r.expands = ids.flatMap fun id => (e.script id).expandSymbols id
  classes : r.classes = ids.flatMap fun id => (e.script id).classTypes id
  consistent : r.Consistent

theorem foldl_register (e : Environment) (ids : List ScriptId) :
    e.Registers ids (ids.foldl (fun r id => (e.script id).register id r) {}) := by
  induction ids using List.reverseRecOn with
  | nil => exact ⟨rfl, rfl, rfl, fun _ => rfl⟩
  | append_singleton ids id ih =>
      rw [List.foldl_append]
      refine ⟨?_, ?_, ?_, Script.consistent_register _ _ ih.consistent⟩
      · simp [Script.globals_register, ih.globals]
      · simp [Script.expands_register, ih.expands]
      · simp [Script.classes_register, ih.classes]

/-! ## The table of paths -/

theorem lookup_replaced (units : List (Text × ScriptId)) (path p : Text) (id : ScriptId) :
    (units.map fun (q, old) => if q = path then (q, id) else (q, old)).lookup p =
      if p = path then (units.lookup path).map fun _ => id else units.lookup p := by
  induction units with
  | nil => simp
  | cons unit units ih =>
      obtain ⟨q, old⟩ := unit
      rw [List.map_cons]
      dsimp only
      by_cases hq : q = path
      · subst hq
        rw [if_pos rfl, Text.lookup_cons, ih, Text.lookup_cons, Text.lookup_cons, if_pos rfl]
        by_cases hp : p = q <;> simp [hp]
      · rw [if_neg hq, Text.lookup_cons, ih, Text.lookup_cons, Text.lookup_cons,
          if_neg (Ne.symm hq)]
        by_cases hp : p = q
        · rw [if_pos hp, if_neg (hp ▸ hq), if_pos hp]
        · rw [if_neg hp, if_neg hp]

theorem unit?_put (e : Environment) (id : ScriptId) (p : Text) :
    (e.put id).unit? p = if p = (e.script id).path then some id else e.unit? p := by
  have hunits : (e.put id).units =
      if (e.units.lookup (e.script id).path).isSome then
        e.units.map fun (q, old) => if q = (e.script id).path then (q, id) else (q, old)
      else e.units ++ [((e.script id).path, id)] := rfl
  rw [unit?, unit?, hunits]
  cases htaken : e.units.lookup (e.script id).path with
  | some old =>
      rw [if_pos (by simp), lookup_replaced, htaken]
      rfl
  | none =>
      rw [if_neg (by simp), List.lookup_append, Text.lookup_cons, List.lookup_nil]
      by_cases hp : p = (e.script id).path
      · rw [if_pos hp, if_pos hp, hp, htaken, Option.none_or]
      · rw [if_neg hp, if_neg hp, Option.or_none]

theorem lookup_removed (units : List (Text × ScriptId)) (path p : Text) :
    (units.filter (·.1 != path)).lookup p = if p = path then none else units.lookup p := by
  induction units with
  | nil => simp
  | cons unit units ih =>
      obtain ⟨q, old⟩ := unit
      rw [List.filter_cons, Text.lookup_cons]
      by_cases hq : q = path
      · rw [if_neg (by simpa using hq), ih, hq]
        by_cases hp : p = path <;> simp [hp]
      · rw [if_pos (by simpa using hq), Text.lookup_cons, ih]
        by_cases hp : p = q
        · rw [if_pos hp, if_neg (hp ▸ hq), if_pos hp]
        · rw [if_neg hp, if_neg hp]

/-- Every path has one script at most, which was read for this path and is
attached. -/
structure Placed (e : Environment) : Prop where
  sizes : e.attached.size = e.scripts.size
  distinct : (e.units.map (·.1)).Nodup
  path_eq : ∀ path id, e.unit? path = some id → (e.script id).path = path
  attached : ∀ path id, e.unit? path = some id → e.attached[id]? = some true

theorem mem_units_iff {e : Environment} (h : (e.units.map (·.1)).Nodup) (path : Text)
    (id : ScriptId) : (path, id) ∈ e.units ↔ e.unit? path = some id := by
  rw [unit?]
  generalize e.units = units at h
  induction units with
  | nil => simp
  | cons unit units ih =>
      obtain ⟨q, old⟩ := unit
      obtain ⟨hnew, hrest⟩ := List.nodup_cons.mp h
      rw [List.mem_cons, Text.lookup_cons, ih hrest]
      by_cases hp : path = q
      · have hnone : units.lookup path ≠ some id := fun hlookup =>
          hnew (List.mem_map.mpr ⟨(path, id), (ih hrest).mpr hlookup, hp⟩)
        simp [hp, hp ▸ hnone, eq_comm]
      · simp [hp]

theorem nodup_replaced {units : List (Text × ScriptId)} (h : (units.map (·.1)).Nodup)
    (path : Text) (id : ScriptId) :
    ((units.map fun (q, old) => if q = path then (q, id) else (q, old)).map (·.1)).Nodup := by
  have hkeys : (units.map fun (q, old) => if q = path then (q, id) else (q, old)).map (·.1) =
      units.map (·.1) := by
    rw [List.map_map]
    refine List.map_congr_left fun unit _ => ?_
    simp only [Function.comp]
    split <;> rfl
  rwa [hkeys]

theorem nodup_appended {units : List (Text × ScriptId)} (h : (units.map (·.1)).Nodup)
    {path : Text} (hfree : units.lookup path = none) (id : ScriptId) :
    ((units ++ [(path, id)]).map (·.1)).Nodup := by
  have hnew : path ∉ units.map (·.1) := by
    intro hmem
    obtain ⟨⟨q, old⟩, hold, hq⟩ := List.mem_map.mp hmem
    have hne := List.lookup_eq_none_iff.mp hfree (q, old) hold
    simp [← hq] at hne
  rw [List.map_append, List.nodup_append]
  refine ⟨h, by simp, fun p hp q hq => ?_⟩
  rintro rfl
  rw [List.mem_singleton.mp hq] at hp
  exact hnew hp

namespace Placed

variable {e : Environment} {id : ScriptId} {path : Text}

theorem lt_size (h : e.Placed) (hid : e.unit? path = some id) : id < e.scripts.size := by
  have hattached := h.attached path id hid
  rw [← h.sizes]
  exact (Array.getElem?_eq_some_iff.mp hattached).1

theorem new (root : Text) : Placed { root } := ⟨rfl, .nil, nofun, nofun⟩

theorem reindex (h : e.Placed) : e.reindex.Placed := ⟨h.sizes, h.distinct, h.path_eq, h.attached⟩

/-- What has a place is found as before when another script is read. -/
theorem script_intern (h : e.Placed) (s : Script) (hid : e.unit? path = some id) :
    (e.intern s).2.script id = e.script id := by
  have hlt := h.lt_size hid
  show (e.scripts.push s)[id]?.getD _ = e.scripts[id]?.getD _
  rw [Array.getElem?_push_lt hlt, Array.getElem?_eq_getElem hlt]

theorem intern (h : e.Placed) (s : Script) : (e.intern s).2.Placed := by
  refine ⟨?_, h.distinct, fun path id hid => ?_, fun path id hid => ?_⟩
  · show (e.attached.push false).size = (e.scripts.push s).size
    simp [h.sizes]
  · rw [h.script_intern s hid]
    exact h.path_eq path id hid
  · show (e.attached.push false)[id]? = some true
    have hattached := h.attached path id hid
    have hlt := (Array.getElem?_eq_some_iff.mp hattached).1
    rw [Array.getElem?_push_lt hlt, ← Array.getElem?_eq_getElem hlt]
    exact hattached

/-- A script gets its place whether the one before it there is attached or not. -/
theorem put_of (hsizes : e.attached.size = e.scripts.size)
    (hdistinct : (e.units.map (·.1)).Nodup)
    (hpath : ∀ path id, e.unit? path = some id → (e.script id).path = path)
    (hattached : ∀ path other, path ≠ (e.script id).path → e.unit? path = some other →
      e.attached[other]? = some true)
    (hid : id < e.scripts.size) : (e.put id).Placed := by
  have hput : (e.put id).attached = e.attached.setIfInBounds id true := rfl
  refine ⟨by simp [hput, hsizes], ?_, fun path other hother => ?_, fun path other hother => ?_⟩
  · show ((if (e.units.lookup (e.script id).path).isSome then
        e.units.map fun (q, old) => if q = (e.script id).path then (q, id) else (q, old)
      else e.units ++ [((e.script id).path, id)]).map (·.1)).Nodup
    split
    · exact nodup_replaced hdistinct _ id
    · next hfree => exact nodup_appended hdistinct (Option.not_isSome_iff_eq_none.mp hfree) id
  · rw [unit?_put] at hother
    show (e.script other).path = path
    split at hother
    · next heq =>
        cases hother
        exact heq.symm
    · exact hpath path other hother
  · rw [unit?_put] at hother
    rw [hput, Array.getElem?_setIfInBounds]
    split
    · next heq => rw [if_pos (by rw [hsizes]; omega)]
    · next hne =>
        split at hother
        · cases hother
          exact absurd rfl hne
        · next hother' => exact hattached path other hother' hother

theorem put (h : e.Placed) (hid : id < e.scripts.size) : (e.put id).Placed :=
  put_of h.sizes h.distinct h.path_eq (fun path other _ => h.attached path other) hid

theorem addMany (h : e.Placed) (ids : List ScriptId) (hids : ∀ id ∈ ids, id < e.scripts.size) :
    (e.addMany ids).Placed := by
  have hfold : ∀ (ids : List ScriptId) (e : Environment), e.Placed →
      (∀ id ∈ ids, id < e.scripts.size) → (ids.foldl Environment.put e).Placed := by
    intro ids
    induction ids with
    | nil => intro e h _; exact h
    | cons id ids ih =>
        intro e h hids
        refine ih _ (h.put (hids id List.mem_cons_self)) fun other hother => ?_
        exact hids other (List.mem_cons_of_mem _ hother)
  exact (hfold ids e h hids).reindex

/-- Scripts at other paths stay attached when the script at a path is detached. -/
theorem attached_detach (h : e.Placed) {old : ScriptId} (hold : e.unit? path = some old)
    {p : Text} {other : ScriptId} (hp : p ≠ path) (hother : e.unit? p = some other) :
    (e.setAttached old false).attached[other]? = some true := by
  have hne : old ≠ other := by
    rintro rfl
    exact hp ((h.path_eq p old hother).symm.trans (h.path_eq path old hold))
  show (e.attached.setIfInBounds old false)[other]? = some true
  rw [Array.getElem?_setIfInBounds_ne hne]
  exact h.attached p other hother

theorem replace (h : e.Placed) (hid : id < e.scripts.size) : (e.replace id).Placed := by
  rw [Environment.replace]
  cases hold : e.unit? (e.script id).path with
  | none => exact (h.put hid).reindex
  | some old =>
      have hsizes : (e.setAttached old false).attached.size = e.scripts.size := by
        simp [setAttached, h.sizes]
      have hput : ((e.setAttached old false).put id).Placed :=
        put_of hsizes h.distinct h.path_eq
          (fun p other hp hother => h.attached_detach hold hp hother) hid
      exact hput.reindex

theorem add {e' : Environment} (h : e.Placed) (hid : id < e.scripts.size)
    (hadd : e.add id = .ok e') : e'.Placed := by
  rw [Environment.add] at hadd
  split at hadd
  · cases hadd
  · cases hadd
    exact (h.put hid).reindex

theorem remove {e' : Environment} (h : e.Placed) (hremove : e.remove path = .ok e') :
    e'.Placed := by
  rw [Environment.remove] at hremove
  split at hremove
  · cases hremove
  · next old hold =>
      cases hremove
      have hunit : ∀ p other, (e.units.filter (·.1 != path)).lookup p = some other →
          p ≠ path ∧ e.unit? p = some other := by
        intro p other hother
        rw [lookup_removed] at hother
        split at hother
        · cases hother
        · next hp => exact ⟨hp, hother⟩
      refine Placed.reindex ⟨by simp [setAttached, h.sizes], ?_, fun p other hother => ?_,
        fun p other hother => ?_⟩
      · exact h.distinct.sublist (List.filter_sublist.map _)
      · exact h.path_eq p other (hunit p other hother).2
      · obtain ⟨hp, hother⟩ := hunit p other hother
        exact h.attached_detach hold hp hother

end Placed

theorem Reachable.placed {e : Environment} (h : e.Reachable) : e.Placed := by
  induction h with
  | new root => exact .new root
  | read path package source _ ih => exact ih.intern _
  | add _ hid hadd ih => exact ih.add hid hadd
  | addMany _ hids ih => exact ih.addMany _ hids
  | replace _ hid ih => exact ih.replace hid
  | remove _ hremove ih => exact ih.remove hremove

/-! ## The order of the paths -/

/-- The order and the registry are those that the table of paths gives. -/
structure Current (e : Environment) : Prop where
  order_eq : e.order = e.reindex.order
  registry_eq : e.registry = e.order.foldl (fun r id => (e.script id).register id r) {}

theorem current_reindex (e : Environment) : e.reindex.Current := ⟨rfl, rfl⟩

theorem mem_order_reindex {e : Environment} (h : e.Placed) (id : ScriptId) :
    id ∈ e.reindex.order ↔ ∃ path, e.unit? path = some id := by
  show id ∈ (e.units.mergeSort fun a b => !b.1.before a.1).map (·.2) ↔ _
  rw [List.mem_map]
  constructor
  · intro ⟨⟨path, other⟩, hmem, heq⟩
    rw [(List.mergeSort_perm _ _).mem_iff, mem_units_iff h.distinct] at hmem
    exact ⟨path, heq ▸ hmem⟩
  · intro ⟨path, hid⟩
    refine ⟨(path, id), ?_, rfl⟩
    rwa [(List.mergeSort_perm _ _).mem_iff, mem_units_iff h.distinct]

theorem pairwise_order_reindex {e : Environment} (h : e.Placed) :
    e.reindex.order.Pairwise fun a b => (e.script a).path < (e.script b).path := by
  have hsorted := Text.pairwise_mergeSort (·.1) e.units
  have hdistinct : (e.units.mergeSort fun a b => !b.1.before a.1).Pairwise
      fun a b => a.1 ≠ b.1 :=
    List.pairwise_map.mp (((List.mergeSort_perm _ _).map _).nodup_iff.mpr h.distinct)
  refine List.pairwise_map.mpr ((hsorted.and hdistinct).imp_of_mem ?_)
  intro a b ha hb ⟨hab, hne⟩
  have hpath : ∀ unit ∈ e.units.mergeSort fun a b => !b.1.before a.1,
      (e.script unit.2).path = unit.1 := by
    intro unit hunit
    rw [(List.mergeSort_perm _ _).mem_iff, mem_units_iff h.distinct] at hunit
    exact h.path_eq unit.1 unit.2 hunit
  rw [hpath a ha, hpath b hb]
  exact List.not_le.mp fun hba => hne (List.le_antisymm hab hba)

theorem Reachable.current {e : Environment} (h : e.Reachable) : e.Current := by
  induction h with
  | new root => exact ⟨by simp [Environment.reindex], rfl⟩
  | @read e path package source he ih =>
      refine ⟨ih.order_eq, ih.registry_eq.trans ?_⟩
      refine List.foldl_ext _ _ _ fun r id hid => ?_
      rw [ih.order_eq, mem_order_reindex he.placed] at hid
      obtain ⟨path', hid⟩ := hid
      rw [he.placed.script_intern _ hid]
  | add _ _ hadd =>
      rw [Environment.add] at hadd
      split at hadd
      · cases hadd
      · cases hadd
        exact current_reindex _
  | addMany => exact current_reindex _
  | replace => exact current_reindex _
  | remove _ hremove =>
      rw [Environment.remove] at hremove
      split at hremove
      · cases hremove
      · cases hremove
        exact current_reindex _

/-! ## What every environment keeps -/

/-- The order lists the scripts of the workspace by path, the registry is made from
them in that order, and they see what the environment sees. -/
structure Indexed (e : Environment) : Prop where
  listed : ∀ id, id ∈ e.order ↔ ∃ path, e.unit? path = some id
  ordered : e.order.Pairwise fun a b => (e.script a).path < (e.script b).path
  globals : e.registry.globals = e.order.flatMap fun id => (e.script id).globalSymbols id
  expands : e.registry.expands = e.order.flatMap fun id => (e.script id).expandSymbols id
  classes : e.registry.classes = e.order.flatMap fun id => (e.script id).classTypes id
  named : ∀ name, e.registry.classNamed? name = e.registry.classes.find? (·.name == name)
  path_eq : ∀ path id, e.unit? path = some id → (e.script id).path = path
  attached : ∀ path id, e.unit? path = some id → e.attached[id]? = some true

theorem Reachable.indexed {e : Environment} (h : e.Reachable) : e.Indexed := by
  have hplaced := h.placed
  have hcurrent := h.current
  have hregisters := e.foldl_register e.order
  rw [← hcurrent.registry_eq] at hregisters
  refine ⟨?_, ?_, hregisters.globals, hregisters.expands, hregisters.classes,
    hregisters.consistent, hplaced.path_eq, hplaced.attached⟩
  · rw [hcurrent.order_eq]
    exact mem_order_reindex hplaced
  · rw [hcurrent.order_eq]
    exact pairwise_order_reindex hplaced

namespace Indexed

variable {e : Environment}

/-- Where a script is declared that the registry knows something of. -/
theorem unit_of_mem_globals (h : e.Indexed) {s : Symbol} (hs : s ∈ e.registry.globals) :
    ∃ path id d, e.unit? path = some id ∧ s = .declared id d := by
  rw [h.globals] at hs
  obtain ⟨id, hid, hs⟩ := List.mem_flatMap.mp hs
  obtain ⟨path, hpath⟩ := (h.listed id).mp hid
  obtain ⟨d, -, rfl⟩ := List.mem_map.mp hs
  exact ⟨path, id, d, hpath, rfl⟩

theorem unit_of_mem_expands (h : e.Indexed) {s : Symbol} (hs : s ∈ e.registry.expands) :
    ∃ path id d, e.unit? path = some id ∧ s = .declared id d := by
  rw [h.expands] at hs
  obtain ⟨id, hid, hs⟩ := List.mem_flatMap.mp hs
  obtain ⟨path, hpath⟩ := (h.listed id).mp hid
  obtain ⟨d, -, rfl⟩ := List.mem_map.mp hs
  exact ⟨path, id, d, hpath, rfl⟩

theorem unit_of_mem_classes (h : e.Indexed) {c : ClassType} (hc : c ∈ e.registry.classes) :
    ∃ path id n, e.unit? path = some id ∧ c.decl = some (.declared ⟨id, n⟩) := by
  rw [h.classes] at hc
  obtain ⟨id, hid, hc⟩ := List.mem_flatMap.mp hc
  obtain ⟨path, hpath⟩ := (h.listed id).mp hid
  obtain ⟨n, hn⟩ := Script.decl_of_mem_classTypes _ _ hc
  exact ⟨path, id, n, hpath, hn⟩

/-- A script of the workspace sees all of the registry. -/
theorem registryOf_eq (h : e.Indexed) {path : Text} {id : ScriptId}
    (hid : e.unit? path = some id) : e.registryOf id = e.registry := by
  rw [registryOf, h.attached path id hid]
  rfl

/-- A script of the workspace sees what the environment sees. -/
theorem ofScript_eq_view (h : e.Indexed) {path : Text} {id : ScriptId}
    (hid : e.unit? path = some id) : View.ofScript e id = e.view := by
  rw [View.ofScript, h.registryOf_eq hid]
  rfl

theorem ownType?_eq (h : e.Indexed) {path : Text} {id : ScriptId} (hid : e.unit? path = some id)
    (d : Declaration) : e.ownType? (.declared id d) =
      some (e.view.answer (e.view.symbolType (.declared id d))) := by
  rw [ownType?, h.ofScript_eq_view hid]

/-- The order is settled by the table of paths. -/
theorem order_eq {e' : Environment} (h : e.Indexed) (h' : e'.Indexed)
    (hscripts : e'.scripts = e.scripts) (hunits : ∀ path, e'.unit? path = e.unit? path) :
    e'.order = e.order := by
  have hscript := script_eq_of_scripts_eq hscripts
  have hordered' := h'.ordered
  rw [hscript] at hordered'
  refine eq_of_strict_order (fun hab => List.lt_asymm hab) hordered' h.ordered fun id => ?_
  rw [h'.listed, h.listed]
  simp only [hunits]

theorem registry_eq {e' : Environment} (h : e.Reachable) (h' : e'.Reachable)
    (hscripts : e'.scripts = e.scripts) (hunits : ∀ path, e'.unit? path = e.unit? path) :
    e'.registry = e.registry := by
  have hscript := script_eq_of_scripts_eq hscripts
  rw [h'.current.registry_eq, h.current.registry_eq,
    h.indexed.order_eq h'.indexed hscripts hunits, hscript]

end Indexed

end Environment

end Zensight
