import Zensight.Proofs.Indexes
import Zensight.Proofs.Paths
import Zensight.Workspace.Change

/-!
# What following a change does to the scripts of an environment

Following a change comes down to two steps, each at one path: a script is read
again, or the script at the path is removed. What a row of such steps does can
be told path by path, and the paths it does not touch keep their scripts.

A path that is gone can no longer be looked at. If its name is that of a script,
the script at this very path is removed. Otherwise it is taken for a directory,
and everything that begins with it is. So a directory goes with all that is
below it, unless it bears the name of a script, or is the root, which is seen
from itself as `.` while no path begins that way. `Takes` says what goes.
-/

namespace Zensight

theorem Config.inside?_of_relative? {c : Config} {path seen : Text}
    (h : Path.relative? c.root path = some seen) :
    c.inside? path = if seen.startsWith Path.dotDot then none else some seen := by
  rw [inside?, h, Option.filter_some]
  cases seen.startsWith Path.dotDot <;> rfl

namespace Environment

variable {e e' : Environment} {c : Config} {fs : FileSystem} {path : Text}

/-- The same script as before is at the path, if any. -/
structure Keeps (e e' : Environment) (path : Text) : Prop where
  unit_eq : e'.unit? path = e.unit? path
  script_eq : ∀ id, e.unit? path = some id → e'.script id = e.script id

theorem Keeps.refl (e : Environment) (path : Text) : Keeps e e path := ⟨rfl, fun _ _ => rfl⟩

theorem Keeps.trans {e'' : Environment} (h : Keeps e e' path) (h' : Keeps e' e'' path) :
    Keeps e e'' path := by
  refine ⟨h'.unit_eq.trans h.unit_eq, fun id hid => ?_⟩
  rw [h'.script_eq id (h.unit_eq.trans hid), h.script_eq id hid]

/-- The environment is as before but for the scripts at some paths, which are gone. -/
structure Without (e e' : Environment) (gone : Text → Prop) : Prop where
  scripts_eq : e'.scripts = e.scripts
  removed : ∀ q, gone q → e'.unit? q = none
  kept : ∀ q, ¬ gone q → e'.unit? q = e.unit? q

theorem Without.keeps {gone : Text → Prop} (h : Without e e' gone) {q : Text} (hq : ¬ gone q) :
    Keeps e e' q :=
  ⟨h.kept q hq, fun id _ => by rw [script_eq_of_scripts_eq h.scripts_eq]⟩

/-! ## One step -/

theorem unit?_replace (e : Environment) (id : ScriptId) (p : Text) :
    (e.replace id).unit? p = if p = (e.script id).path then some id else e.unit? p := by
  rw [replace]
  cases e.unit? (e.script id).path with
  | none => exact unit?_put e id p
  | some old => exact unit?_put (e.setAttached old false) id p

theorem exists_of_load {root : Text} {s : Script} (h : Script.load fs root path = .ok s) :
    ∃ source, fs.read (Path.join root path) = .ok source ∧
      s = Script.parse path (Package.ofPath path) source := by
  rw [Script.load] at h
  split at h
  · next source hread => exact ⟨source, hread, (Except.ok.inj h).symm⟩
  · cases h

theorem load_of_read {root source : Text} (h : fs.read (Path.join root path) = .ok source) :
    Script.load fs root path = .ok (Script.parse path (Package.ofPath path) source) := by
  rw [Script.load, h]

theorem path_load {root : Text} {s : Script} (h : Script.load fs root path = .ok s) :
    s.path = path := by
  obtain ⟨source, -, rfl⟩ := exists_of_load h
  rfl

theorem reload_of_load {s : Script} (h : Script.load fs c.root path = .ok s) :
    (e.reload c fs path).1 = (e.intern s).2.replace e.scripts.size := by
  rw [reload, h]
  rfl

theorem script_intern_new (e : Environment) (s : Script) :
    (e.intern s).2.script e.scripts.size = s := by
  show (e.scripts.push s)[e.scripts.size]?.getD _ = s
  rw [Array.getElem?_push_size, Option.getD_some]

theorem Reachable.reload (h : e.Reachable) : (e.reload c fs path).1.Reachable := by
  rw [Environment.reload, Script.load]
  cases fs.read (Path.join c.root path) with
  | error fault => exact h
  | ok source =>
      have hread := Reachable.read path (Package.ofPath path) source h
      refine hread.replace ?_
      show e.scripts.size < (e.scripts.push _).size
      simp

/-- A script that is read again is at its path, and nothing else has changed. -/
theorem Placed.reload (h : e.Placed) {s : Script} (hload : Script.load fs c.root path = .ok s) :
    (∃ id, (e.reload c fs path).1.unit? path = some id ∧
      (e.reload c fs path).1.script id = s) ∧
    ∀ q, q ≠ path → Keeps e (e.reload c fs path).1 q := by
  have hnew := script_intern_new e s
  have hscripts : ∀ id, ((e.intern s).2.replace e.scripts.size).script id =
      (e.intern s).2.script id := by
    rw [script_eq_of_scripts_eq (scripts_replace _ _)]
    exact fun _ => rfl
  rw [reload_of_load hload]
  refine ⟨⟨e.scripts.size, ?_, by rw [hscripts, hnew]⟩, fun q hq => ⟨?_, fun id hid => ?_⟩⟩
  · rw [unit?_replace, hnew, path_load hload, if_pos rfl]
  · rw [unit?_replace, hnew, path_load hload, if_neg hq]
    rfl
  · rw [hscripts, h.script_intern s hid]

theorem without_drop (e : Environment) (path : Text) :
    Without e (e.drop path).1 fun q => q = path := by
  rw [drop]
  cases hremove : e.remove path with
  | error err =>
      refine ⟨rfl, ?_, fun _ _ => rfl⟩
      rintro q rfl
      rw [remove] at hremove
      cases hunit : e.unit? q with
      | none => rfl
      | some id => rw [hunit] at hremove; cases hremove
  | ok e' =>
      refine ⟨scripts_remove hremove, fun q hq => ?_, fun q hq => ?_⟩ <;>
        rw [remove] at hremove <;> split at hremove <;> cases hremove
      · show (e.units.filter (·.1 != path)).lookup q = none
        rw [lookup_removed, if_pos hq]
      · show (e.units.filter (·.1 != path)).lookup q = e.units.lookup q
        rw [lookup_removed, if_neg hq]

theorem Reachable.drop (h : e.Reachable) : (e.drop path).1.Reachable := by
  rw [Environment.drop]
  cases hremove : e.remove path with
  | error err => exact h
  | ok e' => exact .remove h hremove

/-! ## A row of steps -/

theorem updateAll_cons (step : Environment → Text → Updated) (e : Environment) (path : Text)
    (rest : List Text) :
    (e.updateAll step (path :: rest)).1 = ((step e path).1.updateAll step rest).1 := rfl

/-- What every step keeps, a row of steps keeps. -/
theorem updateAll_keeps {P : Environment → Prop} {step : Environment → Text → Updated}
    (hstep : ∀ e path, P e → P (step e path).1) (paths : List Text) (h : P e) :
    P (e.updateAll step paths).1 := by
  induction paths generalizing e with
  | nil => exact h
  | cons path rest ih => exact ih (hstep e path h)

theorem without_updateAll_drop (e : Environment) (paths : List Text) :
    Without e (e.updateAll drop paths).1 (· ∈ paths) := by
  induction paths generalizing e with
  | nil => exact ⟨rfl, nofun, fun _ _ => rfl⟩
  | cons path rest ih =>
      have hfirst := without_drop e path
      have hrest := ih (e.drop path).1
      rw [updateAll_cons]
      refine ⟨hrest.scripts_eq.trans hfirst.scripts_eq, fun q hq => ?_, fun q hq => ?_⟩
      · by_cases hmem : q ∈ rest
        · exact hrest.removed q hmem
        · rw [hrest.kept q hmem]
          exact hfirst.removed q ((List.mem_cons.mp hq).resolve_right hmem)
      · rw [List.mem_cons, not_or] at hq
        rw [hrest.kept q hq.2, hfirst.kept q hq.1]

/-- Scripts that are read again one after another are at their paths in the end, and
nothing else has changed. -/
theorem Reachable.updateAll_reload (h : e.Reachable) (paths : List Text)
    (hloads : ∀ q ∈ paths, ∃ s, Script.load fs c.root q = .ok s) :
    (∀ q ∈ paths, ∃ id, (e.updateAll (Environment.reload c fs) paths).1.unit? q = some id ∧
      Script.load fs c.root q =
        .ok ((e.updateAll (Environment.reload c fs) paths).1.script id)) ∧
    ∀ q, q ∉ paths → Keeps e (e.updateAll (Environment.reload c fs) paths).1 q := by
  induction paths generalizing e with
  | nil => exact ⟨nofun, fun q _ => .refl e q⟩
  | cons path rest ih =>
      obtain ⟨s, hload⟩ := hloads path List.mem_cons_self
      obtain ⟨⟨id, hid, hscript⟩, hothers⟩ := h.placed.reload hload
      obtain ⟨hread, hkeeps⟩ := ih h.reload fun q hq => hloads q (List.mem_cons_of_mem _ hq)
      rw [updateAll_cons]
      refine ⟨fun q hq => ?_, fun q hq => ?_⟩
      · by_cases hmem : q ∈ rest
        · exact hread q hmem
        · -- Read now and not again, so the steps to come keep it.
          obtain rfl := (List.mem_cons.mp hq).resolve_right hmem
          have hkept := hkeeps q hmem
          refine ⟨id, hkept.unit_eq.trans hid, ?_⟩
          rw [hkept.script_eq id hid, hscript, hload]
      · rw [List.mem_cons, not_or] at hq
        exact (hothers q hq.1).trans (hkeeps q hq.2)

theorem Reachable.follow (h : e.Reachable) (change : Change) :
    (e.follow c fs change).1.Reachable := by
  -- Every branch leaves the environment, or goes through rows of the two steps.
  have hreloads : ∀ paths, (e.updateAll (Environment.reload c fs) paths).1.Reachable :=
    fun paths => updateAll_keeps (fun e path he => he.reload) paths h
  have hdrops : ∀ paths, (e.updateAll Environment.drop paths).1.Reachable :=
    fun paths => updateAll_keeps (fun e path he => he.drop) paths h
  rw [Environment.follow]
  split
  · exact h
  · split
    · split
      · exact h
      · split
        · exact hreloads _
        · exact h
      · split
        · exact h.reload
        · exact h
    · split
      · split
        · exact h.drop
        · exact hdrops _
      · exact h

/-! ## Paths that are gone -/

theorem Indexed.mem_pathsBelow_iff (h : e.Indexed) {directory q : Text} :
    q ∈ e.pathsBelow directory ↔ (e.unit? q).isSome ∧ directory ++ [Path.slash] <+: q := by
  rw [pathsBelow, List.mem_filter, Text.startsWith_iff]
  refine and_congr_left fun _ => ?_
  rw [List.mem_map, Option.isSome_iff_exists]
  constructor
  · rintro ⟨id, hid, rfl⟩
    obtain ⟨path, hpath⟩ := (h.listed id).mp hid
    exact ⟨id, by rwa [h.path_eq path id hpath]⟩
  · rintro ⟨id, hid⟩
    exact ⟨id, (h.listed id).mpr ⟨q, hid⟩, h.path_eq q id hid⟩

/-- What goes with a path that is gone: nothing for a path that does not seem to be
inside, the path alone if it has the name of a script, all that begins with it
otherwise. -/
def Takes (c : Config) (path seen q : Text) : Prop :=
  seen.startsWith Path.dotDot = false ∧
    if c.isScript path then q = seen else seen ++ [Path.slash] <+: q

theorem Reachable.without_follow (h : e.Reachable) {change : Change} {seen : Text}
    (hseen : Path.relative? c.root change.path = some seen) (happears : change.appears = false)
    (hvanishes : change.vanishes = true) :
    Without e (e.follow c fs change).1 (Takes c change.path seen) := by
  rw [Environment.follow, Config.inside?_of_relative? hseen]
  unfold Takes
  cases hdots : seen.startsWith Path.dotDot with
  | true => exact ⟨rfl, by simp, fun _ _ => rfl⟩
  | false =>
      simp only [Bool.false_eq_true, if_false, happears, hvanishes, if_true, true_and]
      split
      · exact without_drop e seen
      · have hdrops := without_updateAll_drop e (e.pathsBelow seen)
        refine ⟨hdrops.scripts_eq, fun q hq => ?_, fun q hq => ?_⟩
        · by_cases hmem : q ∈ e.pathsBelow seen
          · exact hdrops.removed q hmem
          · -- What begins with the path and is not listed was not there before.
            rw [hdrops.kept q hmem, ← Option.not_isSome_iff_eq_none]
            exact fun hunit => hmem (h.indexed.mem_pathsBelow_iff.mpr ⟨hunit, hq⟩)
        · refine hdrops.kept q fun hmem => hq ?_
          exact (h.indexed.mem_pathsBelow_iff.mp hmem).2

/-- After a path is gone, an environment has lost what `Takes` says and nothing else.
For a directory below the root whose name is not that of a script, this is what lay
below it. -/
theorem Reachable.follow_vanished (h : e.Reachable) {change : Change} {seen : Text}
    (hseen : Path.relative? c.root change.path = some seen) (happears : change.appears = false)
    (hvanishes : change.vanishes = true) :
    Without e (e.follow c fs change).1 (Takes c change.path seen) ∧
      (c.isScript change.path = false → seen ≠ Path.dot →
        seen.startsWith Path.dotDot = false →
        Without e (e.follow c fs change).1 (Path.Below seen)) := by
  have hwithout : Without e (e.follow c fs change).1 (Takes c change.path seen) :=
    h.without_follow hseen happears hvanishes
  refine ⟨hwithout, fun hscript hroot hdots => ?_⟩
  have hsame : Takes c change.path seen = Path.Below seen := by
    funext q
    simp [Takes, Path.Below, hscript, hroot, hdots]
  rwa [hsame] at hwithout

/-! ## Directories that go, and directories that stay -/

/-- A workspace with an empty script at each of the paths. -/
def ofPaths (paths : List Text) : Environment :=
  paths.foldl (fun e path =>
    (e.intern (Script.parse path (Package.ofPath path) [])).2.replace e.scripts.size)
    { root := txt "scripts" }

theorem reachable_ofPaths (paths : List Text) : (ofPaths paths).Reachable := by
  refine List.foldlRecOn paths _ (.new _) fun e he path _ => ?_
  refine (Reachable.read path (Package.ofPath path) [] he).replace ?_
  show e.scripts.size < (e.scripts.push _).size
  simp

/-- A directory goes with what is below it, and what merely begins like it stays. -/
theorem library_follow_vanished :
    let e := ofPaths [txt "lib/a.zs", txt "lib/deep/b.zs", txt "library.zs"]
    let e' := (e.follow {} {} ⟨txt "scripts/lib", [.rename]⟩).1
    (e.unit? (txt "lib/a.zs") = some 0 ∧ e.unit? (txt "lib/deep/b.zs") = some 1) ∧
      (e'.unit? (txt "lib/a.zs") = none ∧ e'.unit? (txt "lib/deep/b.zs") = none) ∧
      e'.unit? (txt "library.zs") = some 2 := by
  intro e e'
  have hwithout : Without e e' (Path.Below (txt "lib")) :=
    ((reachable_ofPaths _).follow_vanished (by decide +kernel) (by decide) (by decide)).2
      (by decide) (by decide) (by decide)
  refine ⟨by decide +kernel, ⟨hwithout.removed _ ?_, hwithout.removed _ ?_⟩, ?_⟩
  · exact .inr (by decide)
  · exact .inr (by decide)
  · rw [hwithout.kept _ (by rw [Path.Below]; decide)]
    decide +kernel

/-- A directory with the name of a script is taken for one: it is gone, and what was
below it stays. -/
theorem script_below_vanished_directory_stays :
    let e := ofPaths [txt "lib.zs/a.zs"]
    let e' := (e.follow {} {} ⟨txt "scripts/lib.zs", [.remove]⟩).1
    Path.Below (txt "lib.zs") (txt "lib.zs/a.zs") ∧ e'.unit? (txt "lib.zs/a.zs") = some 0 := by
  intro e e'
  have hwithout : Without e e' (Takes {} (txt "scripts/lib.zs") (txt "lib.zs")) :=
    (reachable_ofPaths _).without_follow (by decide +kernel) (by decide) (by decide)
  refine ⟨.inr (by decide), ?_⟩
  rw [hwithout.kept _ (by rw [Takes]; decide)]
  decide +kernel

/-- The root is gone, and every script of the workspace stays. -/
theorem script_below_vanished_root_stays :
    let e := ofPaths [txt "a.zs"]
    let e' := (e.follow {} {} ⟨txt "scripts", [.remove]⟩).1
    Path.Below Path.dot (txt "a.zs") ∧ e'.unit? (txt "a.zs") = some 0 := by
  intro e e'
  have hwithout : Without e e' (Takes {} (txt "scripts") Path.dot) :=
    (reachable_ofPaths _).without_follow (by decide +kernel) (by decide) (by decide)
  refine ⟨.inl rfl, ?_⟩
  rw [hwithout.kept _ (by rw [Takes]; decide)]
  decide +kernel

end Environment

end Zensight
