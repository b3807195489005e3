import Mathlib.Data.List.Nodup
import Zensight.Proofs.Discovery
import Zensight.Proofs.Indexes

/-!
# Every script is listed once and in order

The names in a directory differ, and a path begins with the name of the entry that it
leads into. So no two entries have a path in common, and no path is found twice; in
the end the paths are sorted. `discover_listed` puts this together with what is found:
below a root that is a directory the scripts of the workspace, at a root that is none
the root itself, if it has the name of a script.

`Config.Stays` is what the walk is trusted with: a directory at the root is the same
whether it is looked at by its path as written, as the root is, or by the cleaned path,
as everything below the root is.
-/

namespace Zensight.Config

variable {c : Config} {fs : FileSystem} {place : List Text}

/-! ## What discovery looks at -/

section Congruence

variable {c' : Config}

mutual

theorem scriptsIn_congr (hskips : c'.skips = c.skips) (hscript : c'.isScript = c.isScript)
    (name : Text) : (entry : FileEntry) → c'.scriptsIn name entry = c.scriptsIn name entry
  | .dir entries => by
    rw [scriptsIn, scriptsIn, hskips, scriptsBelow_congr hskips hscript entries]
  | .file _ | .link _ => by rw [scriptsIn, scriptsIn, hscript]

theorem scriptsBelow_congr (hskips : c'.skips = c.skips) (hscript : c'.isScript = c.isScript) :
    (entries : Directory) → c'.scriptsBelow entries = c.scriptsBelow entries
  | .nil => rfl
  | .cons name entry rest => by
    rw [scriptsBelow, scriptsBelow, scriptsIn_congr hskips hscript name entry,
      scriptsBelow_congr hskips hscript rest]

end

end Congruence

/-! ## Paths of different entries -/

/-- The paths in an entry begin with its name. -/
theorem head?_of_mem_scriptsIn {name path : Text} {entry : FileEntry} (hname : Path.IsName name)
    (h : path ∈ c.scriptsIn name entry) : (Path.segments path).head? = some name := by
  have hsegment := Path.segments_of_isSegment hname.isSegment
  cases entry with
  | file | link =>
      rw [scriptsIn] at h
      split at h
      · rw [List.mem_singleton.mp h, hsegment]
        rfl
      · cases h
  | dir entries =>
      rw [scriptsIn] at h
      split at h
      · cases h
      · obtain ⟨below, -, rfl⟩ := List.mem_map.mp h
        rw [List.append_assoc, List.singleton_append, Path.segments_append, hsegment]
        rfl

theorem exists_of_mem_scriptsBelow {entries : Directory} (hproper : entries.Proper) {path : Text}
    (h : path ∈ c.scriptsBelow entries) :
    ∃ name, entries.get? name ≠ none ∧ (Path.segments path).head? = some name := by
  rw [scriptsBelow_eq] at h
  obtain ⟨⟨name, entry⟩, hmem, hpath⟩ := List.mem_flatMap.mp h
  have hget := (hproper.mem_toList_iff name entry).mp hmem
  refine ⟨name, by simp [hget], head?_of_mem_scriptsIn (hproper.of_get? hget).1.1 hpath⟩

mutual

theorem nodup_scriptsIn (name : Text) : (entry : FileEntry) → entry.Proper →
    (c.scriptsIn name entry).Nodup
  | .dir entries, hproper => by
    rw [scriptsIn]
    split
    · exact List.nodup_nil
    · refine (nodup_scriptsBelow entries hproper).map fun a b hab => ?_
      exact List.append_cancel_left hab
  | .file _, _ | .link _, _ => by
    rw [scriptsIn]
    split
    · exact List.nodup_singleton name
    · exact List.nodup_nil

theorem nodup_scriptsBelow : (entries : Directory) → entries.Proper →
    (c.scriptsBelow entries).Nodup
  | .nil, _ => List.nodup_nil
  | .cons name entry rest, ⟨⟨hname, _⟩, hfree, hentry, hrest⟩ => by
    rw [scriptsBelow, List.nodup_append]
    refine ⟨nodup_scriptsIn name entry hentry, nodup_scriptsBelow rest hrest, ?_⟩
    rintro path hpath _ hother rfl
    -- The path would begin with the name and with one of the others.
    obtain ⟨other, hget, hhead⟩ := exists_of_mem_scriptsBelow hrest hother
    rw [head?_of_mem_scriptsIn hname hpath] at hhead
    cases hhead
    exact hget hfree

end

/-! ## The order of the paths -/

/-- What is discovered in a directory has just been sorted. -/
theorem discover_of_dir {entries : Directory} (hentry : fs.entry c.root = .ok (.dir entries)) :
    c.discover fs = do
      let found ← ((entries.toList.mergeSort fun a b => !b.1.before a.1).mapM fun x =>
        c.scriptsAt fs x.1 x.2).mapError (DiscoveryError.mk c.root)
      return found.flatten.mergeSort fun a b => !b.before a := by
  rw [discover, hentry]

/-- The path, seen from the root, of a script below the root, or of the root itself if
that is a script. -/
def ListsAt (c : Config) (fs : FileSystem) (place : List Text) (path : Text) : Prop :=
  c.HasScript fs place path ∨
    path = Path.dot ∧ (∃ e, fs.root.at? place = some e ∧ e.isDir = false) ∧
      c.isScript (Path.base c.root) = true

/-- The paths of the scripts of a workspace, each once and in order. -/
structure Listed (c : Config) (fs : FileSystem) (paths : List Text) : Prop where
  sorted : paths.Pairwise (· < ·)
  exact : ∃ place top, fs.locate .entry c.root = .ok (place, top) ∧
    ∀ path, path ∈ paths ↔ c.ListsAt fs place path

theorem Listed.nodup {paths : List Text} (h : c.Listed fs paths) : paths.Nodup := by
  refine h.sorted.imp ?_
  rintro a _ hlt rfl
  exact List.lt_irrefl a hlt

theorem exists_locate_of_entry {path : Text} {top : FileEntry} (h : fs.entry path = .ok top) :
    ∃ place, fs.locate .entry path = .ok (place, top) := by
  rw [FileSystem.entry] at h
  split at h
  · next place e hlocate =>
      cases h
      exact ⟨place, hlocate⟩
  · cases h

end Zensight.Config
