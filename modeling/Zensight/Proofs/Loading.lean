import Zensight.Proofs.Discovery
import Zensight.Proofs.Following

/-!
# What loading a workspace adds

A batch of scripts is taken in first, under numbers that follow on those in use,
and then given its places one by one; of two scripts with one path the later gets
it. Reading a path gives a script of that path, so it makes no difference whether
a path is listed twice: in the end each listed path has the script that reading it
gives, and the other paths have what they had (`load_of_readable`).
-/

namespace Zensight.Environment

variable {e : Environment} {c : Config} {fs : FileSystem}

/-! ## Taking a batch in -/

theorem scripts_internAll (e : Environment) (batch : List Script) :
    (e.internAll batch).2.scripts = e.scripts ++ batch.toArray := by
  induction batch generalizing e with
  | nil => simp [internAll]
  | cons s rest ih =>
      show ((e.intern s).2.internAll rest).2.scripts = _
      rw [ih]
      show e.scripts.push s ++ rest.toArray = _
      simp

theorem fst_internAll (e : Environment) (batch : List Script) :
    (e.internAll batch).1 = List.range' e.scripts.size batch.length := by
  induction batch generalizing e with
  | nil => rfl
  | cons s rest ih =>
      show e.scripts.size :: ((e.intern s).2.internAll rest).1 = _
      rw [ih]
      show e.scripts.size :: List.range' (e.scripts.push s).size rest.length = _
      rw [Array.size_push, List.length_cons, List.range'_succ]

theorem units_internAll (e : Environment) (batch : List Script) :
    (e.internAll batch).2.units = e.units := by
  induction batch generalizing e with
  | nil => rfl
  | cons s rest ih => exact ih (e.intern s).2

theorem Reachable.internAll (h : e.Reachable) {batch : List Script}
    (hparsed : ∀ s ∈ batch, ∃ path package source, s = Script.parse path package source) :
    (e.internAll batch).2.Reachable := by
  induction batch generalizing e with
  | nil => exact h
  | cons s rest ih =>
      obtain ⟨path, package, source, rfl⟩ := hparsed s List.mem_cons_self
      exact ih (.read path package source h) fun s hs => hparsed s (List.mem_cons_of_mem _ hs)

theorem script_internAll_of_lt (batch : List Script) {id : ScriptId} (hid : id < e.scripts.size) :
    (e.internAll batch).2.script id = e.script id := by
  rw [script, script, scripts_internAll, Array.getElem?_append_left hid]

/-- The numbers of a batch stand for its scripts. -/
theorem map_script_internAll (e : Environment) (batch : List Script) :
    (e.internAll batch).1.map (e.internAll batch).2.script = batch := by
  refine List.ext_getElem (by simp [fst_internAll]) fun i h _ => ?_
  have hi : i < batch.length := by simpa [fst_internAll] using h
  rw [List.getElem_map, script, scripts_internAll]
  simp only [fst_internAll, List.getElem_range', Nat.one_mul]
  rw [Array.getElem?_append_right (Nat.le_add_right _ _), Nat.add_sub_cancel_left]
  simp [hi]

/-! ## Giving a batch its places -/

/-- The last script of a path in a batch gets it. -/
theorem unit?_addMany (e : Environment) (ids : List ScriptId) (p : Text) :
    (e.addMany ids).unit? p =
      (ids.reverse.find? fun id => (e.script id).path = p).or (e.unit? p) := by
  show (ids.foldl put e).unit? p = _
  have hscript : ∀ ids : List ScriptId, (ids.foldl put e).script = e.script := fun ids =>
    script_eq_of_scripts_eq (scripts_addMany e ids)
  induction ids using List.reverseRecOn with
  | nil => rfl
  | append_singleton ids id ih =>
      rw [List.foldl_concat, unit?_put, hscript, ih, List.reverse_concat, List.find?_cons]
      by_cases hp : (e.script id).path = p
      · simp [hp]
      · simp [hp, Ne.symm hp]

/-- The environment with a batch of new scripts. -/
def withBatch (e : Environment) (batch : List Script) : Environment :=
  (e.internAll batch).2.addMany (e.internAll batch).1

theorem script_withBatch (e : Environment) (batch : List Script) :
    (e.withBatch batch).script = (e.internAll batch).2.script :=
  script_eq_of_scripts_eq (scripts_addMany _ _)

theorem unit?_withBatch (e : Environment) (batch : List Script) (q : Text) :
    (e.withBatch batch).unit? q =
      ((e.internAll batch).1.reverse.find? fun id =>
        ((e.withBatch batch).script id).path = q).or (e.unit? q) := by
  rw [script_withBatch, withBatch, unit?_addMany, unit?, unit?, units_internAll]

theorem mem_batch_iff (e : Environment) {batch : List Script} {s : Script} :
    s ∈ batch ↔ ∃ id ∈ (e.internAll batch).1, (e.withBatch batch).script id = s := by
  rw [script_withBatch, ← List.mem_map, map_script_internAll]

/-- The path of a new script is the place of a new script: of several with one path, the last. -/
theorem exists_unit?_of_mem_internAll (e : Environment) {batch : List Script} {id : ScriptId}
    (hid : id ∈ (e.internAll batch).1) :
    ∃ other ∈ (e.internAll batch).1,
      (e.withBatch batch).unit? ((e.withBatch batch).script id).path = some other ∧
      ((e.withBatch batch).script other).path = ((e.withBatch batch).script id).path := by
  rw [unit?_withBatch]
  cases hfind : (e.internAll batch).1.reverse.find? fun other =>
      ((e.withBatch batch).script other).path = ((e.withBatch batch).script id).path with
  | none =>
      have hne := List.find?_eq_none.mp hfind id (List.mem_reverse.mpr hid)
      simp at hne
  | some other =>
      have hother := List.mem_reverse.mp (List.mem_of_find?_eq_some hfind)
      exact ⟨other, hother, rfl, by simpa using List.find?_some hfind⟩

theorem exists_unit?_withBatch (e : Environment) {batch : List Script} {s : Script}
    (hs : s ∈ batch) :
    ∃ id, (e.withBatch batch).unit? s.path = some id ∧ (e.withBatch batch).script id ∈ batch ∧
      ((e.withBatch batch).script id).path = s.path := by
  obtain ⟨id, hid, rfl⟩ := e.mem_batch_iff.mp hs
  obtain ⟨other, hother, hunit, hpath⟩ := e.exists_unit?_of_mem_internAll hid
  exact ⟨other, hunit, e.mem_batch_iff.mpr ⟨other, hother, rfl⟩, hpath⟩

theorem Placed.keeps_withBatch (h : e.Placed) {batch : List Script} {q : Text}
    (hq : ∀ s ∈ batch, s.path ≠ q) : Keeps e (e.withBatch batch) q := by
  refine ⟨?_, fun id hid => ?_⟩
  · rw [unit?_withBatch, List.find?_eq_none.mpr, Option.none_or]
    intro id hid
    simpa using hq _ (e.mem_batch_iff.mpr ⟨id, List.mem_reverse.mp hid, rfl⟩)
  · rw [script_withBatch, script_internAll_of_lt batch (h.lt_size hid)]

theorem Reachable.withBatch (h : e.Reachable) {batch : List Script}
    (hparsed : ∀ s ∈ batch, ∃ path package source, s = Script.parse path package source) :
    (e.withBatch batch).Reachable := by
  refine .addMany (h.internAll hparsed) fun id hid => ?_
  rw [fst_internAll, List.mem_range'_1] at hid
  simpa [scripts_internAll] using hid.2

/-! ## Loading -/

theorem load_eq {paths : List Text} {batch : List Script} (hpaths : c.discover fs = .ok paths)
    (hbatch : paths.mapM (Script.load fs c.root) = .ok batch) :
    e.load fs c = .ok ((e.internAll batch).1, e.withBatch batch) := by
  rw [load, hpaths]
  show ((paths.mapM (Script.load fs c.root)).mapError (LoadError.unreadable c.root) >>= fun batch =>
    pure ((e.internAll batch).1, e.withBatch batch)) = _
  rw [hbatch]
  rfl

/-- Loading succeeds if every script can be read. Then all scripts are at their paths,
and nothing else has changed. -/
theorem Reachable.load_of_readable (h : e.Reachable) {paths : List Text}
    (hpaths : c.discover fs = .ok paths)
    (hloads : ∀ q ∈ paths, ∃ s, Script.load fs c.root q = .ok s) :
    ∃ ids e', e.load fs c = .ok (ids, e') ∧ e'.Reachable ∧
      (∀ q ∈ paths, ∃ id, e'.unit? q = some id ∧
        Script.load fs c.root q = .ok (e'.script id)) ∧
      ∀ q, q ∉ paths → Keeps e e' q := by
  choose! loaded hloaded using hloads
  have hpath : ∀ q ∈ paths, (loaded q).path = q := fun q hq => path_load (hloaded q hq)
  refine ⟨_, _, load_eq hpaths (mapM_eq_ok_map hloaded), h.withBatch ?_, fun q hq => ?_,
    fun q hq => h.placed.keeps_withBatch ?_⟩
  · rintro s hs
    obtain ⟨q, hq, rfl⟩ := List.mem_map.mp hs
    obtain ⟨source, -, hsource⟩ := exists_of_load (hloaded q hq)
    exact ⟨_, _, source, hsource⟩
  · obtain ⟨id, hunit, hmem, hsame⟩ :=
      e.exists_unit?_withBatch (List.mem_map_of_mem (f := loaded) hq)
    -- A script of the batch is the one that was read at its own path.
    obtain ⟨q', hq', hread⟩ := List.mem_map.mp hmem
    rw [← hread, hpath q' hq', hpath q hq] at hsame
    rw [hpath q hq] at hunit
    exact ⟨id, hunit, by rw [← hread, hsame, hloaded q hq]⟩
  · rintro s hs rfl
    obtain ⟨q', hq', rfl⟩ := List.mem_map.mp hs
    exact hq (by rwa [hpath q' hq'])

end Zensight.Environment
