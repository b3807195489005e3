import Zensight.Proofs.Discovery
import Zensight.Proofs.Following

/-!
# What a change does to the scripts of a workspace

`Config.Alters` says what a change is: two trees that differ at one path below the
root, and what is told about it. A file was written, a file is gone, or a directory
came up with whatever is in it.

Away from the path both trees have the same scripts (`Alters.hasScript_iff`). They
also read the same, except that a link reads as what it leads to, and that may be
what has changed; `Config.LinksAgree` is the assumption that it has not. At the path
and below it there is a file and nothing else, or a directory. In the second case the
scripts are those that a search of the directory by itself finds
(`Alters.mem_scriptsOfDirectory_iff`).
-/

namespace Zensight

/-- What is told of a place where there was `before` and is `after`. -/
inductive Change.Tells (change : Change) : (before after : Option FileEntry) → Prop where
  /-- A file was made or written anew. -/
  | written {before : Option FileEntry} {file : FileEntry} :
      (∀ old, before = some old → old.isDir = false) → file.isDir = false →
      change.appears = true → change.Tells before (some file)
  /-- A directory was made, with whatever is in it. -/
  | made {entries : Directory} : change.has .create = true → change.Tells none (some (.dir entries))
  /-- A file was taken away. -/
  | gone {file : FileEntry} : file.isDir = false → change.appears = false →
      change.vanishes = true → change.Tells (some file) none

/-- Below the root, the trees `before` and `after` differ at most at the names
`parents ++ [name]`, and the change tells how. -/
structure Config.Alters (c : Config) (place parents : List Text) (name : Text) (change : Change)
    (before after : FileSystem) : Prop where
  old : c.RootedAt before place
  new : c.RootedAt after place
  readable : c.Readable after place
  elsewhere : ∀ names, ¬ parents ++ [name] <+: names →
    (after.root.at? (place ++ names)).map (·.outer) =
      (before.root.at? (place ++ names)).map (·.outer)
  entered : ∀ d ∈ parents, c.skips d = false
  inside : (Path.ofSegments (parents ++ [name])).startsWith Path.dotDot = false
  path_eq : change.path = Path.join c.root (Path.ofSegments (parents ++ [name]))
  told : change.Tells (before.root.at? (place ++ (parents ++ [name])))
    (after.root.at? (place ++ (parents ++ [name])))

/-- The links among the scripts away from some names read the same in both trees. -/
def Config.LinksAgree (c : Config) (place changed : List Text) (before after : FileSystem) : Prop :=
  ∀ names target, before.root.at? (place ++ names) = some (.link target) → ¬ changed <+: names →
    c.HasScript before place (Path.ofSegments names) →
    after.read (Path.join c.root (Path.ofSegments names)) =
      before.read (Path.join c.root (Path.ofSegments names))

variable {c : Config} {fs before after : FileSystem} {place parents : List Text} {name : Text}
  {change : Change} {q : Text}

/-! ## Scripts at a path and below it -/

theorem FileEntry.eq_of_outer_eq {x y : Option FileEntry} {entry : FileEntry}
    (h : x.map outer = y.map outer) (hy : y = some entry) (hleaf : entry.isDir = false) :
    x = some entry := by
  rw [hy, Option.map_some, outer_of_not_isDir hleaf, Option.map_eq_some_iff] at h
  obtain ⟨entry', rfl, houter⟩ := h
  rw [← houter, isDir_outer] at hleaf
  rw [← houter, outer_of_not_isDir hleaf]

namespace Config

/-- Where there is no directory, there is no script but the one that is there. -/
theorem HasScript.of_within_leaf (h : c.HasScript fs place q) (hproper : fs.root.Proper)
    (hnames : ∀ n ∈ parents ++ [name], Path.IsName n)
    (hleaf : ∀ entry, fs.root.at? (place ++ (parents ++ [name])) = some entry →
      entry.isDir = false)
    (hq : Path.Within (Path.ofSegments (parents ++ [name])) q) :
    q = Path.ofSegments (parents ++ [name]) ∧ c.isScript name = true ∧
      ∃ entry, fs.root.at? (place ++ (parents ++ [name])) = some entry := by
  obtain ⟨dirs, n, hfinds, rfl⟩ := h
  obtain ⟨⟨entry, hat, -⟩, -, hscript⟩ := finds_iff.mp hfinds
  rw [Path.within_ofSegments_iff hnames (by simp) fun m hm =>
    (hproper.isName_of_at? hat m hm).isSegment] at hq
  obtain ⟨rest, hrest⟩ := hq
  cases rest with
  | nil =>
      rw [List.append_nil] at hrest
      obtain ⟨rfl, hlast⟩ := List.append_inj' hrest rfl
      cases hlast
      exact ⟨rfl, hscript, entry, hat⟩
  | cons m rest =>
      -- More names follow, so there would be a directory.
      rw [← hrest, ← List.append_assoc, FileEntry.at?_append] at hat
      obtain ⟨top, htop, hat⟩ := Option.bind_eq_some_iff.mp hat
      obtain ⟨entries, _, rfl, -⟩ := FileEntry.exists_of_at?_cons hat
      cases hleaf _ htop

theorem not_hasScript_of_none (hproper : fs.root.Proper)
    (hnames : ∀ n ∈ parents ++ [name], Path.IsName n)
    (hnone : fs.root.at? (place ++ (parents ++ [name])) = none)
    (hq : Path.Within (Path.ofSegments (parents ++ [name])) q) : ¬ c.HasScript fs place q := by
  intro hhas
  obtain ⟨-, -, entry, hentry⟩ := hhas.of_within_leaf hproper hnames (by simp [hnone]) hq
  rw [hnone] at hentry
  cases hentry

/-- The scripts at a directory are below it, and it is not passed over. -/
theorem HasScript.of_within_dir (h : c.HasScript fs place q) (hproper : fs.root.Proper)
    {entries : Directory}
    (hdir : fs.root.at? (place ++ (parents ++ [name])) = some (.dir entries))
    (hq : Path.Within (Path.ofSegments (parents ++ [name])) q) :
    Path.Below (Path.ofSegments (parents ++ [name])) q ∧ c.skips name = false := by
  have hnames := hproper.isName_of_at? hdir
  obtain ⟨dirs, n, hfinds, rfl⟩ := h
  obtain ⟨⟨entry, hat, hleaf⟩, hdirs, -⟩ := finds_iff.mp hfinds
  have hsegments : ∀ m ∈ dirs ++ [n], Path.IsSegment m := fun m hm =>
    (hproper.isName_of_at? hat m hm).isSegment
  rw [Path.within_ofSegments_iff hnames (by simp) hsegments] at hq
  obtain ⟨rest, hrest⟩ := hq
  rcases List.eq_nil_or_concat rest with rfl | ⟨more, last, rfl⟩
  · rw [← hrest, List.append_nil, hdir] at hat
    cases hat
    cases hleaf
  · rw [Path.below_ofSegments_iff hnames (by simp) hsegments]
    refine ⟨⟨_, by simp, hrest.symm⟩, hdirs name ?_⟩
    rw [List.concat_eq_append, ← List.append_assoc] at hrest
    obtain ⟨rfl, -⟩ := List.append_inj' hrest rfl
    simp

theorem hasScript_of_leaf {entry : FileEntry}
    (hat : fs.root.at? (place ++ (parents ++ [name])) = some entry) (hleaf : entry.isDir = false)
    (hentered : ∀ d ∈ parents, c.skips d = false) (hscript : c.isScript name = true) :
    c.HasScript fs place (Path.ofSegments (parents ++ [name])) :=
  ⟨parents, name, finds_iff.mpr ⟨⟨entry, hat, hleaf⟩, hentered, hscript⟩, rfl⟩

/-- A file that two trees have, which agree away from a place. -/
theorem at?_of_agree (hproper : before.root.Proper)
    (hnames : ∀ n ∈ parents ++ [name], Path.IsName n)
    (hagree : ∀ names, ¬ parents ++ [name] <+: names →
      (after.root.at? (place ++ names)).map (·.outer) =
        (before.root.at? (place ++ names)).map (·.outer))
    {names : List Text} {entry : FileEntry} (hat : before.root.at? (place ++ names) = some entry)
    (hleaf : entry.isDir = false)
    (haway : ¬ Path.Within (Path.ofSegments (parents ++ [name])) (Path.ofSegments names)) :
    ¬ parents ++ [name] <+: names ∧ after.root.at? (place ++ names) = some entry := by
  rw [Path.within_ofSegments_iff hnames (by simp) fun m hm =>
    (hproper.isName_of_at? hat m hm).isSegment] at haway
  exact ⟨haway, FileEntry.eq_of_outer_eq (hagree names haway) hat hleaf⟩

/-! ## Away from the change -/

namespace Alters

theorem isName (h : c.Alters place parents name change before after) :
    ∀ n ∈ parents ++ [name], Path.IsName n := by
  -- In one of the trees there is something at the names.
  cases hold : before.root.at? (place ++ (parents ++ [name])) with
  | some entry => exact h.old.proper.isName_of_at? hold
  | none =>
      cases hnew : after.root.at? (place ++ (parents ++ [name])) with
      | some entry => exact h.new.proper.isName_of_at? hnew
      | none =>
          have htold := h.told
          rw [hold, hnew] at htold
          cases htold

theorem hasScript_iff (h : c.Alters place parents name change before after)
    (hq : ¬ Path.Within (Path.ofSegments (parents ++ [name])) q) :
    c.HasScript after place q ↔ c.HasScript before place q := by
  constructor
  · rintro ⟨dirs, n, hfinds, rfl⟩
    obtain ⟨⟨entry, hat, hleaf⟩, hdirs, hscript⟩ := finds_iff.mp hfinds
    have hsame := at?_of_agree h.new.proper h.isName
      (fun names haway => (h.elsewhere names haway).symm) hat hleaf hq
    exact hasScript_of_leaf hsame.2 hleaf hdirs hscript
  · rintro ⟨dirs, n, hfinds, rfl⟩
    obtain ⟨⟨entry, hat, hleaf⟩, hdirs, hscript⟩ := finds_iff.mp hfinds
    have hsame := at?_of_agree h.old.proper h.isName h.elsewhere hat hleaf hq
    exact hasScript_of_leaf hsame.2 hleaf hdirs hscript

theorem read_eq (h : c.Alters place parents name change before after)
    (hlinks : c.LinksAgree place (parents ++ [name]) before after)
    (hscript : c.HasScript before place q)
    (hq : ¬ Path.Within (Path.ofSegments (parents ++ [name])) q) :
    after.read (Path.join c.root q) = before.read (Path.join c.root q) := by
  obtain ⟨dirs, n, hfinds, rfl⟩ := hscript
  obtain ⟨⟨entry, hold, hleaf⟩, -⟩ := finds_iff.mp hfinds
  obtain ⟨haway, hnew⟩ := at?_of_agree h.old.proper h.isName h.elsewhere hold hleaf hq
  cases entry with
  | dir => cases hleaf
  | file content =>
      exact read_join_eq h.old h.new hold hnew
  | link target => exact hlinks _ target hold haway ⟨dirs, n, hfinds, rfl⟩

/-! ## At the change -/

theorem inside_eq (h : c.Alters place parents name change before after) :
    Path.relative? c.root change.path = some (Path.ofSegments (parents ++ [name])) ∧
      c.inside? change.path = some (Path.ofSegments (parents ++ [name])) := by
  have hrelative := Path.relative?_join c.root h.isName (by simp)
  rw [← h.path_eq] at hrelative
  refine ⟨hrelative, ?_⟩
  rw [inside?_of_relative? hrelative, h.inside]
  rfl

theorem isScript_eq (h : c.Alters place parents name change before after)
    (hextensions : ∀ x ∈ c.extensions, Path.slash ∉ x) :
    c.isScript change.path = c.isScript name := by
  rw [isScript, isScript, Bool.eq_iff_iff, List.any_eq_true, List.any_eq_true, h.path_eq]
  refine exists_congr fun x => and_congr_right fun hx => ?_
  rw [Path.endsWith_join c.root h.isName (hextensions x hx)]

theorem entered_of_skips (h : c.Alters place parents name change before after)
    (hskips : c.skips name = false) : ∀ d ∈ parents ++ [name], c.skips d = false := by
  intro d hd
  rcases List.mem_append.mp hd with hd | hd
  · exact h.entered d hd
  · rwa [List.mem_singleton.mp hd]

theorem checkPath_of_directory (h : c.Alters place parents name change before after)
    {entries : Directory}
    (hdir : after.root.at? (place ++ (parents ++ [name])) = some (.dir entries))
    (hskips : c.skips name = false) :
    FileSystem.checkPath (Path.join c.root (Path.ofSegments (parents ++ [name]))) = .ok () := by
  obtain ⟨listed, hlisted⟩ :=
    h.readable.lists _ entries (by simp) hdir (h.entered_of_skips hskips)
  exact checkPath_of_list hlisted

/-- The scripts of a directory that came up are those of the tree below it. -/
theorem mem_scriptsOfDirectory_iff (h : c.Alters place parents name change before after)
    {entries : Directory}
    (hdir : after.root.at? (place ++ (parents ++ [name])) = some (.dir entries))
    (hskips : c.skips name = false) {path : Text} :
    path ∈ c.scriptsOfDirectory after change.path ↔
      c.HasScript after place path ∧ Path.Below (Path.ofSegments (parents ++ [name])) path := by
  have hentered := h.entered_of_skips hskips
  have hrooted := h.new.directory hdir (h.checkPath_of_directory hdir hskips)
  obtain ⟨paths, hpaths⟩ :=
    (h.readable.directory h.new.proper hdir hentered).discover hrooted
  rw [← hasScript_directory_iff h.new.proper hdir hentered, h.path_eq, scriptsOfDirectory, hpaths]
  simp only [List.mem_filterMap, mem_discover_iff hrooted hpaths]
  refine exists_congr fun below => and_congr_right fun hbelow => ?_
  -- The path of a script of the directory, seen from the root.
  obtain ⟨names, hne, hnames, rfl⟩ := hbelow.exists_names h.new.proper
  have hboth : ∀ n ∈ parents ++ [name] ++ names, Path.IsName n := by
    intro n hn
    rcases List.mem_append.mp hn with hn | hn
    · exact h.isName n hn
    · exact hnames n hn
  rw [Path.join_join c.root h.isName (by simp) hnames hne,
    Path.relative?_join c.root hboth (by simp), Path.ofSegments_append (by simp) hne,
    Option.some_inj, eq_comm]

end Alters

end Config

/-! ## Changes of a tree -/

section Trees

variable {entries : Directory}

/-- An entry that is put into a directory of the workspace. -/
theorem Config.alters_put {entry : FileEntry} (hold : c.RootedAt before place)
    (hparent : before.root.at? (place ++ parents) = some (.dir entries))
    (hafter : after.root = before.root.put (place ++ (parents ++ [name])) entry)
    (hrooted : c.RootedAt after place) (hreadable : c.Readable after place)
    (hentered : ∀ d ∈ parents, c.skips d = false)
    (hinside : (Path.ofSegments (parents ++ [name])).startsWith Path.dotDot = false)
    (hpath : change.path = Path.join c.root (Path.ofSegments (parents ++ [name])))
    (htells : change.Tells (before.root.at? (place ++ (parents ++ [name]))) (some entry)) :
    c.Alters place parents name change before after := by
  rw [← List.append_assoc] at hafter
  have hnew : after.root.at? (place ++ (parents ++ [name])) = some entry := by
    rw [hafter, ← List.append_assoc]
    exact (FileEntry.at?_put hparent []).trans (FileEntry.at?_nil entry)
  refine ⟨hold, hrooted, hreadable, fun names haway => ?_, hentered, hinside, hpath,
    hnew ▸ htells⟩
  rw [hafter]
  refine FileEntry.outer_at?_put hparent fun hbelow => haway ?_
  rwa [List.append_assoc, List.prefix_append_right_inj] at hbelow

/-- A file that is taken out of a directory of the workspace. -/
theorem Config.alters_erase {file : FileEntry} (hold : c.RootedAt before place)
    (hfile : before.root.at? (place ++ (parents ++ [name])) = some file)
    (hleaf : file.isDir = false)
    (hafter : after.root = before.root.erase (place ++ (parents ++ [name])))
    (hrooted : c.RootedAt after place) (hreadable : c.Readable after place)
    (hentered : ∀ d ∈ parents, c.skips d = false)
    (hinside : (Path.ofSegments (parents ++ [name])).startsWith Path.dotDot = false)
    (hpath : change.path = Path.join c.root (Path.ofSegments (parents ++ [name])))
    (happears : change.appears = false) (hvanishes : change.vanishes = true) :
    c.Alters place parents name change before after := by
  obtain ⟨entries, hparent⟩ : ∃ entries, before.root.at? (place ++ parents) = some (.dir entries) := by
    rw [← List.append_assoc, FileEntry.at?_append] at hfile
    obtain ⟨parent, hparent, hat⟩ := Option.bind_eq_some_iff.mp hfile
    obtain ⟨entries, _, rfl, -⟩ := FileEntry.exists_of_at?_cons hat
    exact ⟨entries, hparent⟩
  rw [← List.append_assoc] at hafter
  have hnew : after.root.at? (place ++ (parents ++ [name])) = none := by
    rw [hafter, ← List.append_assoc]
    exact FileEntry.at?_erase hold.proper hparent []
  refine ⟨hold, hrooted, hreadable, fun names haway => ?_, hentered, hinside, hpath, ?_⟩
  · rw [hafter]
    refine FileEntry.outer_at?_erase hold.proper hparent fun hbelow => haway ?_
    rwa [List.append_assoc, List.prefix_append_right_inj] at hbelow
  · rw [hfile, hnew]
    exact .gone hleaf happears hvanishes

end Trees

end Zensight
