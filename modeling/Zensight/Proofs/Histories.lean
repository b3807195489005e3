import Zensight.Environment

/-!
# Histories of environments

An environment comes about by reading scripts and by adding, replacing and
removing them. `Environment.Reachable` is what can come about so. A script that
was read once may be added again later, also after it was removed.
-/

namespace Zensight.Environment

inductive Reachable : Environment → Prop where
  | new (root : Text) : Reachable { root }
  | read {e : Environment} (path package source : Text) :
      Reachable e → Reachable (e.intern (Script.parse path package source)).2
  | add {e e' : Environment} {id : ScriptId} :
      Reachable e → id < e.scripts.size → e.add id = .ok e' → Reachable e'
  | addMany {e : Environment} {ids : List ScriptId} :
      Reachable e → (∀ id ∈ ids, id < e.scripts.size) → Reachable (e.addMany ids)
  | replace {e : Environment} {id : ScriptId} :
      Reachable e → id < e.scripts.size → Reachable (e.replace id)
  | remove {e e' : Environment} {path : Text} :
      Reachable e → e.remove path = .ok e' → Reachable e'

@[simp] theorem scripts_reindex (e : Environment) : e.reindex.scripts = e.scripts := rfl

@[simp] theorem scripts_put (e : Environment) (id : ScriptId) :
    (e.put id).scripts = e.scripts := rfl

@[simp] theorem scripts_setAttached (e : Environment) (id : ScriptId) (yes : Bool) :
    (e.setAttached id yes).scripts = e.scripts := rfl

@[simp] theorem scripts_addMany (e : Environment) (ids : List ScriptId) :
    (e.addMany ids).scripts = e.scripts := by
  have hfold : ∀ (ids : List ScriptId) (e : Environment),
      (ids.foldl put e).scripts = e.scripts := by
    intro ids
    induction ids with
    | nil => intro e; rfl
    | cons id rest ih => intro e; rw [List.foldl_cons, ih, scripts_put]
  rw [addMany, scripts_reindex, hfold]

@[simp] theorem scripts_replace (e : Environment) (id : ScriptId) :
    (e.replace id).scripts = e.scripts := by
  unfold replace
  simp only []
  split <;> rfl

theorem scripts_add {e e' : Environment} {id : ScriptId} (h : e.add id = .ok e') :
    e'.scripts = e.scripts := by
  unfold add at h
  simp only [] at h
  split at h
  · cases h
  · injection h with h
    subst h
    rfl

theorem scripts_remove {e e' : Environment} {path : Text} (h : e.remove path = .ok e') :
    e'.scripts = e.scripts := by
  unfold remove at h
  split at h
  · cases h
  · injection h with h
    subst h
    rfl

/-- Every script of an environment is one that was read. -/
theorem Reachable.script_parsed {e : Environment} (h : e.Reachable) (id : ScriptId) :
    ∃ path package source, e.script id = Script.parse path package source := by
  have hget : ∀ s ∈ e.scripts, ∃ path package source, s = Script.parse path package source := by
    clear id
    induction h with
    | new root => intro s hs; simp at hs
    | read path package source _ ih =>
        intro s hs
        rcases Array.mem_push.mp hs with hs | hs
        · exact ih s hs
        · exact ⟨path, package, source, hs⟩
    | add _ _ hadd ih => rw [scripts_add hadd]; exact ih
    | addMany _ _ ih => rw [scripts_addMany]; exact ih
    | replace _ _ ih => rw [scripts_replace]; exact ih
    | remove _ hremove ih => rw [scripts_remove hremove]; exact ih
  rw [script]
  cases hs : e.scripts[id]? with
  | none => exact ⟨[], [], [], rfl⟩
  | some s => exact hget s (Array.mem_of_getElem? hs)

end Zensight.Environment
