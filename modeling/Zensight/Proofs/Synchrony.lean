import Zensight.Proofs.Alterations
import Zensight.Proofs.Loading

/-!
# Following every change keeps an environment in sync

An environment is in sync with a file tree if it holds the scripts that are
discovered there, as they are read there. Following a change after it happened
keeps it so, and gives what loading the new tree would give.

Being in sync is a matter of each path by itself (`inSync_iff`), so the paths fall
into two kinds. Away from the changed path the environment keeps what it has, and
that is still right. At the path and below it, what was told decides what is read
again or removed, and each case is held against the scripts that the new tree has
there (`Alters.renewed`).

Links are followed when a script is read but not when a change is followed. So a
link goes out of sync when what it leads to changes, and a workspace behind a link
does with the first script that is written there.
-/

namespace Zensight

namespace Environment

/-- The environment holds the scripts that are discovered, as they are read. -/
structure InSync (c : Config) (fs : FileSystem) (e : Environment) : Prop where
  paths : ∃ paths, c.discover fs = .ok paths ∧ ∀ q, q ∈ paths ↔ (e.unit? q).isSome
  scripts : ∀ q id, e.unit? q = some id → Script.load fs c.root q = .ok (e.script id)

/-- The environment has at the path what the tree has. -/
structure SyncedAt (c : Config) (fs : FileSystem) (place : List Text) (e : Environment)
    (q : Text) : Prop where
  present : (e.unit? q).isSome ↔ c.HasScript fs place q
  current : ∀ id, e.unit? q = some id → Script.load fs c.root q = .ok (e.script id)

variable {c : Config} {fs before after : FileSystem} {place parents : List Text} {name : Text}
  {change : Change} {e e' : Environment} {q : Text}

theorem inSync_iff (h : c.RootedAt fs place) :
    InSync c fs e ↔ (∃ paths, c.discover fs = .ok paths) ∧ ∀ q, SyncedAt c fs place e q := by
  constructor
  · rintro ⟨⟨paths, hpaths, hunits⟩, hscripts⟩
    refine ⟨⟨paths, hpaths⟩, fun q => ⟨?_, hscripts q⟩⟩
    rw [← hunits, Config.mem_discover_iff h hpaths]
  · rintro ⟨⟨paths, hpaths⟩, hsynced⟩
    refine ⟨⟨paths, hpaths, fun q => ?_⟩, fun q => (hsynced q).current⟩
    rw [Config.mem_discover_iff h hpaths, (hsynced q).present]

theorem SyncedAt.unit?_eq_none (h : SyncedAt c fs place e q)
    (hscript : ¬ c.HasScript fs place q) : e.unit? q = none := by
  rwa [← h.present, Option.not_isSome_iff_eq_none] at hscript

theorem SyncedAt.absent (hunit : e.unit? q = none) (hscript : ¬ c.HasScript fs place q) :
    SyncedAt c fs place e q :=
  ⟨by simp [hunit, hscript], fun id hid => by rw [hunit] at hid; cases hid⟩

theorem SyncedAt.of_read (hscript : c.HasScript fs place q)
    (hread : ∃ id, e.unit? q = some id ∧ Script.load fs c.root q = .ok (e.script id)) :
    SyncedAt c fs place e q := by
  obtain ⟨id, hid, hload⟩ := hread
  refine ⟨by simp [hid, hscript], fun id' hid' => ?_⟩
  rw [hid] at hid'
  cases hid'
  exact hload

/-- The environment `e'` has what the tree has at the path and below it, and what `e`
has elsewhere. -/
structure Renewed (c : Config) (fs : FileSystem) (place : List Text) (path : Text)
    (e e' : Environment) : Prop where
  synced : ∀ q, Path.Within path q → SyncedAt c fs place e' q
  kept : ∀ q, ¬ Path.Within path q → Keeps e e' q

end Environment

open Environment (Keeps SyncedAt InSync Renewed)

variable {c : Config} {fs before after : FileSystem} {place parents : List Text} {name : Text}
  {change : Change} {e e' : Environment} {q : Text}

/-! ## One change -/

namespace Config.Alters

/-- What was in sync and is kept is in sync with the new tree, away from the change. -/
theorem syncedAt_of_keeps (h : c.Alters place parents name change before after)
    (hlinks : c.LinksAgree place (parents ++ [name]) before after)
    (hq : ¬ Path.Within (Path.ofSegments (parents ++ [name])) q)
    (hsync : SyncedAt c before place e q) (hkeeps : Keeps e e' q) :
    SyncedAt c after place e' q := by
  refine ⟨?_, fun id hid => ?_⟩
  · rw [hkeeps.unit_eq, hsync.present, h.hasScript_iff hq]
  · rw [hkeeps.unit_eq] at hid
    have hscript : c.HasScript before place q := hsync.present.mp (by rw [hid]; rfl)
    rw [hkeeps.script_eq id hid, ← hsync.current id hid, Script.load, Script.load,
      h.read_eq hlinks hscript hq]

/-- Nothing is read again if there is no script at the path or below it, neither in the
tree before nor in the tree after the change. -/
theorem renewed_self (hsync : ∀ q, SyncedAt c before place e q)
    (hold : ∀ q, Path.Within (Path.ofSegments (parents ++ [name])) q → ¬ c.HasScript before place q)
    (hnew : ∀ q, Path.Within (Path.ofSegments (parents ++ [name])) q → ¬ c.HasScript after place q) :
    Renewed c after place (Path.ofSegments (parents ++ [name])) e e :=
  ⟨fun q hq => .absent ((hsync q).unit?_eq_none (hold q hq)) (hnew q hq), fun q _ => .refl e q⟩

theorem follow_script (h : c.Alters place parents name change before after)
    (hextensions : ∀ x ∈ c.extensions, Path.slash ∉ x) (hscript : c.isScript name = true)
    (happears : change.appears = true) {content : Text}
    (hread : after.read change.path = .ok content) :
    (e.follow c after change).1 =
      (e.reload c after (Path.ofSegments (parents ++ [name]))).1 := by
  have hdestination := FileSystem.destination_of_read hread
  rw [Environment.follow, h.inside_eq.2]
  simp only [happears, if_true, hdestination, h.isScript_eq hextensions, hscript]

/-- A file that is no script is of no account, also if it is a link to a directory. -/
theorem follow_other (h : c.Alters place parents name change before after)
    (hextensions : ∀ x ∈ c.extensions, Path.slash ∉ x) (hscript : c.isScript name = false)
    (happears : change.appears = true) {file : FileEntry}
    (hat : after.root.at? (place ++ (parents ++ [name])) = some file) (hfile : file.isDir = false) :
    (e.follow c after change).1 = e := by
  have hnone : c.scriptsOfDirectory after change.path = [] := by
    rw [scriptsOfDirectory, discover]
    simp only
    cases hentry : after.entry change.path with
    | error fault => rfl
    | ok entry =>
        rw [FileSystem.entry, h.path_eq] at hentry
        split at hentry
        · next hlocate =>
            have hsame := eq_of_locate_join h.new hat (.inl rfl) hlocate
            cases hentry
            subst hsame
            have hbase : Path.base change.path = name := by
              rw [h.path_eq, Path.base_join c.root h.isName]
            have hskip : { c with root := change.path }.isScript name = false := hscript
            cases entry with
            | dir => cases hfile
            | _ => simp [hbase, hskip]
        · cases hentry
  rw [Environment.follow, h.inside_eq.2]
  simp only [happears, if_true, h.isScript_eq hextensions, hscript, if_neg Bool.false_ne_true,
    hnone]
  split
  · rfl
  · split <;> rfl
  · rfl

theorem renewed_of_written (h : c.Alters place parents name change before after)
    (hextensions : ∀ x ∈ c.extensions, Path.slash ∉ x) (he : e.Reachable)
    (hsync : ∀ q, SyncedAt c before place e q)
    (hold : ∀ entry, before.root.at? (place ++ (parents ++ [name])) = some entry →
      entry.isDir = false)
    {file : FileEntry} (hnew : after.root.at? (place ++ (parents ++ [name])) = some file)
    (hfile : file.isDir = false) (happears : change.appears = true) :
    Renewed c after place (Path.ofSegments (parents ++ [name])) e (e.follow c after change).1 := by
  have hnewLeaf : ∀ entry, after.root.at? (place ++ (parents ++ [name])) = some entry →
      entry.isDir = false := by
    intro entry hentry
    rw [hnew] at hentry
    cases hentry
    exact hfile
  cases hscript : c.isScript name with
  | false =>
      rw [h.follow_other hextensions hscript happears hnew hfile]
      refine renewed_self hsync (fun q hq hhas => ?_) fun q hq hhas => ?_
      · have hleaf := (hhas.of_within_leaf h.old.proper h.isName hold hq).2.1
        rw [hscript] at hleaf
        cases hleaf
      · have hleaf := (hhas.of_within_leaf h.new.proper h.isName hnewLeaf hq).2.1
        rw [hscript] at hleaf
        cases hleaf
  | true =>
      have hhas := hasScript_of_leaf hnew hfile h.entered hscript
      obtain ⟨content, hread⟩ := h.readable.reads _ hhas
      have hload := Environment.load_of_read hread
      obtain ⟨⟨id, hid, hidScript⟩, hothers⟩ := he.placed.reload hload
      rw [h.follow_script hextensions hscript happears (h.path_eq ▸ hread)]
      refine ⟨fun q hq => ?_, fun q hq => hothers q fun heq => hq (.inl heq)⟩
      by_cases heq : q = Path.ofSegments (parents ++ [name])
      · subst heq
        exact .of_read hhas ⟨id, hid, by rw [hidScript, hload]⟩
      · -- Below a file there is nothing.
        have hunit := (hsync q).unit?_eq_none fun hhas' =>
          heq (hhas'.of_within_leaf h.old.proper h.isName hold hq).1
        refine .absent ?_ fun hhas' =>
          heq (hhas'.of_within_leaf h.new.proper h.isName hnewLeaf hq).1
        rw [(hothers q heq).unit_eq, hunit]

theorem renewed_of_gone (h : c.Alters place parents name change before after)
    (hextensions : ∀ x ∈ c.extensions, Path.slash ∉ x) (he : e.Reachable)
    (hsync : ∀ q, SyncedAt c before place e q)
    {file : FileEntry} (hold : before.root.at? (place ++ (parents ++ [name])) = some file)
    (hfile : file.isDir = false) (hnew : after.root.at? (place ++ (parents ++ [name])) = none)
    (happears : change.appears = false) (hvanishes : change.vanishes = true) :
    Renewed c after place (Path.ofSegments (parents ++ [name])) e (e.follow c after change).1 := by
  have hwithout : Environment.Without e (e.follow c after change).1
      (Environment.Takes c change.path (Path.ofSegments (parents ++ [name]))) :=
    he.without_follow h.inside_eq.1 happears hvanishes
  refine ⟨fun q hq => ?_, fun q hq => hwithout.keeps fun htakes => hq ?_⟩
  · refine .absent ?_ (not_hasScript_of_none h.new.proper h.isName hnew hq)
    by_cases htakes : Environment.Takes c change.path (Path.ofSegments (parents ++ [name])) q
    · exact hwithout.removed q htakes
    · -- Only a script at the path itself could have been there, and that is taken.
      rw [hwithout.kept q htakes]
      refine (hsync q).unit?_eq_none fun hhas => htakes ⟨h.inside, ?_⟩
      obtain ⟨heq, hscript, -⟩ := hhas.of_within_leaf h.old.proper h.isName
        (fun entry hentry => by rw [hold] at hentry; cases hentry; exact hfile) hq
      rw [h.isScript_eq hextensions, hscript]
      exact heq
  · obtain ⟨-, htakes⟩ := htakes
    split at htakes
    · exact .inl htakes
    · exact .inr (.inr htakes)

theorem follow_directory (h : c.Alters place parents name change before after)
    {entries : Directory}
    (hdir : after.root.at? (place ++ (parents ++ [name])) = some (.dir entries))
    (hcreate : change.has .create = true) :
    (e.follow c after change).1 =
      if c.skips name then e
      else (e.updateAll (Environment.reload c after) (c.scriptsOfDirectory after change.path)).1 := by
  have happears : change.appears = true := by simp [Change.appears, hcreate]
  have hbase : Path.base change.path = name := by rw [h.path_eq, Path.base_join c.root h.isName]
  rw [Environment.follow, h.inside_eq.2]
  simp only [happears, if_true, hbase, hcreate, Bool.true_and]
  cases hskips : c.skips name with
  | true =>
      -- Nothing else than the directory can be found there.
      cases hfound : after.destination change.path with
      | error fault => rfl
      | ok entry =>
          rw [FileSystem.destination, h.path_eq] at hfound
          split at hfound
          · next hlocate =>
              cases hfound
              rw [eq_of_locate_join h.new hdir (.inr (by simp)) hlocate]
              rfl
          · cases hfound
  | false =>
      have hfound : after.destination change.path = .ok (.dir entries) := by
        rw [FileSystem.destination, h.path_eq, h.new.locate_join hdir
          (.inr (by simp)) (h.checkPath_of_directory hdir hskips)]
      rw [hfound]
      rfl

theorem renewed_of_made (h : c.Alters place parents name change before after) (he : e.Reachable)
    (hsync : ∀ q, SyncedAt c before place e q)
    (hold : before.root.at? (place ++ (parents ++ [name])) = none) {entries : Directory}
    (hdir : after.root.at? (place ++ (parents ++ [name])) = some (.dir entries))
    (hcreate : change.has .create = true) :
    Renewed c after place (Path.ofSegments (parents ++ [name])) e (e.follow c after change).1 := by
  have hnone : ∀ q, Path.Within (Path.ofSegments (parents ++ [name])) q →
      ¬ c.HasScript before place q := fun q hq =>
    not_hasScript_of_none h.old.proper h.isName hold hq
  rw [h.follow_directory hdir hcreate]
  -- There was nothing before, so what is there now is what the search finds, or nothing
  -- for a directory that is passed over.
  split
  · next hskips =>
      refine renewed_self hsync hnone fun q hq hhas => ?_
      rw [(hhas.of_within_dir h.new.proper hdir hq).2] at hskips
      cases hskips
  · next hskips =>
      have hmem : ∀ q, q ∈ c.scriptsOfDirectory after change.path ↔ _ := fun q =>
        h.mem_scriptsOfDirectory_iff hdir (by simpa using hskips)
      obtain ⟨hread, hothers⟩ :=
        he.updateAll_reload (c.scriptsOfDirectory after change.path) fun q hq => by
          obtain ⟨source, hsource⟩ := h.readable.reads q ((hmem q).mp hq).1
          exact ⟨_, Environment.load_of_read hsource⟩
      refine ⟨fun q hq => ?_, fun q hq => hothers q fun hin => hq (.inr ((hmem q).mp hin).2)⟩
      by_cases hin : q ∈ c.scriptsOfDirectory after change.path
      · exact .of_read ((hmem q).mp hin).1 (hread q hin)
      · refine .absent ?_ fun hhas =>
          hin ((hmem q).mpr ⟨hhas, (hhas.of_within_dir h.new.proper hdir hq).1⟩)
        rw [(hothers q hin).unit_eq, (hsync q).unit?_eq_none (hnone q hq)]

/-- Whatever happened, following the change renews what is at the path and below it. -/
theorem renewed (h : c.Alters place parents name change before after)
    (hextensions : ∀ x ∈ c.extensions, Path.slash ∉ x) (he : e.Reachable)
    (hsync : ∀ q, SyncedAt c before place e q) :
    Renewed c after place (Path.ofSegments (parents ++ [name])) e (e.follow c after change).1 := by
  have htold := h.told
  generalize hold : before.root.at? (place ++ (parents ++ [name])) = old at htold
  generalize hnew : after.root.at? (place ++ (parents ++ [name])) = new at htold
  cases htold with
  | written hleaf hfile happears =>
      exact h.renewed_of_written hextensions he hsync (hold ▸ hleaf) hnew hfile happears
  | made hcreate => exact h.renewed_of_made he hsync hold hnew hcreate
  | gone hfile happears hvanishes =>
      exact h.renewed_of_gone hextensions he hsync hold hfile hnew happears hvanishes

theorem inSync_follow (h : c.Alters place parents name change before after)
    (hlinks : c.LinksAgree place (parents ++ [name]) before after)
    (hextensions : ∀ x ∈ c.extensions, Path.slash ∉ x) (he : e.Reachable)
    (hsync : InSync c before e) : InSync c after (e.follow c after change).1 := by
  have hsynced := ((Environment.inSync_iff h.old).mp hsync).2
  have hrenewed := h.renewed hextensions he hsynced
  refine (Environment.inSync_iff h.new).mpr
    ⟨h.readable.discover h.new, fun q => ?_⟩
  by_cases hq : Path.Within (Path.ofSegments (parents ++ [name])) q
  · exact hrenewed.synced q hq
  · exact h.syncedAt_of_keeps hlinks hq (hsynced q) (hrenewed.kept q hq)

end Config.Alters

namespace Environment

/-! ## Loading anew -/

/-- In sync with one tree, two environments hold the same scripts. -/
theorem InSync.same (h : InSync c fs e) (h' : InSync c fs e') (q : Text) :
    (e.unit? q).map e.script = (e'.unit? q).map e'.script := by
  obtain ⟨paths, hpaths, hunits⟩ := h.paths
  obtain ⟨paths', hpaths', hunits'⟩ := h'.paths
  rw [hpaths] at hpaths'
  cases hpaths'
  have hboth : (e.unit? q).isSome ↔ (e'.unit? q).isSome := by rw [← hunits, ← hunits']
  cases hunit : e.unit? q with
  | none =>
      rw [hunit, ← not_iff_not] at hboth
      rw [Option.not_isSome_iff_eq_none.mp (hboth.mp (by simp))]
      rfl
  | some id =>
      rw [hunit] at hboth
      obtain ⟨id', hunit'⟩ := Option.isSome_iff_exists.mp (hboth.mp rfl)
      have hload := h.scripts q id hunit
      rw [h'.scripts q id' hunit'] at hload
      rw [hunit', Option.map_some, Option.map_some, Except.ok.inj hload]

/-- A workspace that can be read is loaded into an environment in sync with it. -/
theorem exists_load (h : c.RootedAt fs place) (hreadable : c.Readable fs place) :
    ∃ ids fresh, ({ root := c.root } : Environment).load fs c = .ok (ids, fresh) ∧
      fresh.Reachable ∧ InSync c fs fresh := by
  obtain ⟨paths, hpaths⟩ := hreadable.discover h
  have hmem : ∀ q, q ∈ paths ↔ c.HasScript fs place q := fun q =>
    Config.mem_discover_iff h hpaths
  obtain ⟨ids, fresh, hload, hreachable, hread, hothers⟩ :=
    (Reachable.new c.root).load_of_readable hpaths fun q hq => by
      obtain ⟨source, hsource⟩ := hreadable.reads q ((hmem q).mp hq)
      exact ⟨_, load_of_read hsource⟩
  refine ⟨ids, fresh, hload, hreachable, (inSync_iff h).mpr ⟨⟨paths, hpaths⟩, fun q => ?_⟩⟩
  by_cases hq : q ∈ paths
  · exact .of_read ((hmem q).mp hq) (hread q hq)
  · exact .absent (hothers q hq).unit_eq fun hhas => hq ((hmem q).mpr hhas)

end Environment

/-! ## One change and many -/

/-- After a change was followed, an environment is in sync with the new tree. It holds
the scripts that loading the tree gives, and away from the change it is as before. -/
theorem Config.Alters.follow_as_loaded (h : c.Alters place parents name change before after)
    (hlinks : c.LinksAgree place (parents ++ [name]) before after)
    (hextensions : ∀ x ∈ c.extensions, Path.slash ∉ x) (he : e.Reachable)
    (hsync : InSync c before e) :
    InSync c after (e.follow c after change).1 ∧
      (∀ q, ¬ Path.Within (Path.ofSegments (parents ++ [name])) q →
        Keeps e (e.follow c after change).1 q) ∧
      ∃ ids fresh, ({ root := c.root } : Environment).load after c = .ok (ids, fresh) ∧
        ∀ q, ((e.follow c after change).1.unit? q).map (e.follow c after change).1.script =
          (fresh.unit? q).map fresh.script := by
  have hfollow := h.inSync_follow hlinks hextensions he hsync
  obtain ⟨ids, fresh, hload, -, hfresh⟩ := Environment.exists_load h.new h.readable
  refine ⟨hfollow, (h.renewed hextensions he ?_).kept, ids, fresh, hload, hfollow.same hfresh⟩
  exact ((Environment.inSync_iff h.old).mp hsync).2

/-- A file tree with a workspace at the place where it is by default. -/
def FileSystem.ofScripts (entries : Directory) : FileSystem where
  root := .dir (.cons (txt "scripts") (.dir entries) .nil)

theorem rootedAt_ofScripts {entries : Directory} (h : entries.Proper) :
    Config.RootedAt {} (.ofScripts entries) [txt "scripts"] := by
  have hproper : (FileSystem.ofScripts entries).root.Proper := ⟨by decide, rfl, h, trivial⟩
  exact .of_names hproper rfl (by decide) rfl

theorem readable_ofScripts {entries : Directory} (h : entries.Proper)
    (hplain : (FileEntry.dir entries).every (Config.plain {}) = true) :
    Config.Readable {} (.ofScripts entries) [txt "scripts"] :=
  Config.readable_of_every (rootedAt_ofScripts h) rfl hplain

theorem linksAgree_ofScripts {entries : Directory} {changed : List Text}
    (hplain : (FileEntry.dir entries).every (Config.plain {}) = true) :
    Config.LinksAgree {} [txt "scripts"] changed (.ofScripts entries) after := by
  intro names target hat
  rw [FileEntry.at?_append] at hat
  exact absurd (FileEntry.check_of_every hplain hat) (by simp [Config.plain])

/-- A directory with a script and with a hidden directory, in which there is another. -/
def FileEntry.library : FileEntry :=
  .dir (.cons (txt "b.zs") (.file [])
    (.cons (txt ".git") (.dir (.cons (txt "c.zs") (.file []) .nil)) .nil))

/-- A directory comes up, then a file goes. -/
theorem library_follow_as_loaded :
    let before := FileSystem.ofScripts (.cons (txt "a.zs") (.file []) .nil)
    let between := FileSystem.ofScripts
      (.cons (txt "a.zs") (.file []) (.cons (txt "lib") .library .nil))
    let after := FileSystem.ofScripts (.cons (txt "lib") .library .nil)
    ∃ ids e, ({ root := txt "scripts" } : Environment).load before {} = .ok (ids, e) ∧
      ∃ e', (e.follow {} between ⟨txt "scripts/lib", [.create]⟩).1 = e' ∧ InSync {} between e' ∧
      ∃ e'', (e'.follow {} after ⟨txt "scripts/a.zs", [.remove]⟩).1 = e'' ∧
        ∀ q, (e''.unit? q).isSome ↔ q = txt "lib/b.zs" := by
  intro before between after
  have hbefore : Config.RootedAt {} before [txt "scripts"] := rootedAt_ofScripts (by decide)
  have hbetween : Config.RootedAt {} between [txt "scripts"] := rootedAt_ofScripts (by decide)
  have hafter : Config.RootedAt {} after [txt "scripts"] := rootedAt_ofScripts (by decide)
  have hmade : Config.Alters {} [txt "scripts"] [] (txt "lib") ⟨txt "scripts/lib", [.create]⟩
      before between :=
    Config.alters_put hbefore rfl rfl hbetween
      (readable_ofScripts (by decide) (by decide)) (by simp) (by decide) (by decide +kernel)
      (.made (by decide))
  have hgone : Config.Alters {} [txt "scripts"] [] (txt "a.zs") ⟨txt "scripts/a.zs", [.remove]⟩
      between after :=
    Config.alters_erase hbetween rfl rfl rfl hafter
      (readable_ofScripts (by decide) (by decide)) (by simp) (by decide) (by decide +kernel)
      (by decide) (by decide)
  obtain ⟨ids, e, hload, he, hsync⟩ :=
    Environment.exists_load hbefore (readable_ofScripts (by decide) (by decide))
  have hfirst := (hmade.follow_as_loaded (linksAgree_ofScripts (by decide)) (by decide) he hsync).1
  have hsecond := (hgone.follow_as_loaded (linksAgree_ofScripts (by decide)) (by decide)
    (he.follow _) hfirst).1
  refine ⟨ids, e, hload, _, rfl, hfirst, _, rfl, fun q => ?_⟩
  rw [(((Environment.inSync_iff hafter).mp hsecond).2 q).present,
    Config.hasScript_iff_mem hafter.proper rfl]
  have hscripts : Config.scriptsBelow {} (.cons (txt "lib") .library .nil) = [txt "lib/b.zs"] := by
    decide
  rw [hscripts, List.mem_singleton]

/-- A script and a link to it. -/
def FileSystem.linked (content : Text) : FileSystem :=
  .ofScripts (.cons (txt "a.zs") (.file content) (.cons (txt "b.zs") (.link (txt "a.zs")) .nil))

theorem rootedAt_linked (content : Text) :
    Config.RootedAt {} (.linked content) [txt "scripts"] :=
  rootedAt_ofScripts ⟨by decide, by decide, trivial, by decide, rfl, trivial, trivial⟩

theorem hasScript_linked_iff (content : Text) :
    Config.HasScript {} (.linked content) [txt "scripts"] q ↔
      q = txt "a.zs" ∨ q = txt "b.zs" := by
  rw [Config.hasScript_iff_mem (rootedAt_linked content).proper rfl]
  have hscripts : Config.scriptsBelow {} (.cons (txt "a.zs") (.file content)
      (.cons (txt "b.zs") (.link (txt "a.zs")) .nil)) = [txt "a.zs", txt "b.zs"] := by
    rfl
  rw [hscripts]
  simp

theorem read_linked (content : Text) :
    (FileSystem.linked content).read (Path.join (txt "scripts") (txt "b.zs")) = .ok content := by
  have hproper := (rootedAt_linked content).proper
  have hdir : (FileSystem.linked content).root.at? ([txt "scripts"] ++ []) =
      some (.dir (.cons (txt "a.zs") (.file content)
        (.cons (txt "b.zs") (.link (txt "a.zs")) .nil))) := rfl
  have hfollow := calc
    FileSystem.follow (FileSystem.linked content).root .target 40 [] [txt "scripts", txt "b.zs"]
      = FileSystem.follow (FileSystem.linked content).root .target 40 [txt "scripts"]
          [txt "b.zs"] := FileSystem.follow_cons hproper rfl rfl (by simp)
    _ = FileSystem.follow (FileSystem.linked content).root .target 39 [txt "scripts"]
          (FileSystem.steps (txt "a.zs") ++ []) := FileSystem.follow_link hproper hdir rfl rfl
    _ = .ok [txt "scripts", txt "a.zs"] :=
      FileSystem.follow_of_at? hproper hdir rfl (.inr (by simp))
  have hsteps : FileSystem.steps (Path.join (txt "scripts") (txt "b.zs")) =
      [txt "scripts", txt "b.zs"] := by decide
  rw [← hsteps] at hfollow
  exact FileSystem.read_of_follow (by decide) hfollow rfl

theorem readable_linked (content : Text) :
    Config.Readable {} (.linked content) [txt "scripts"] := by
  have hrooted := rootedAt_linked content
  refine ⟨fun dirs entries hne hdir _ => ?_, fun path hpath => ?_⟩
  · have hleaves : (FileEntry.dir (.cons (txt "a.zs") (.file content)
        (.cons (txt "b.zs") (.link (txt "a.zs")) .nil))).every
        (fun names entry => names.isEmpty || !entry.isDir) = true := rfl
    rw [FileEntry.at?_append] at hdir
    have hleaf := FileEntry.check_of_every hleaves hdir
    simp [hne, FileEntry.isDir] at hleaf
  · rcases (hasScript_linked_iff content).mp hpath with rfl | rfl
    · have hat : (FileSystem.linked content).root.at? ([txt "scripts"] ++ ([] ++ [txt "a.zs"])) =
          some (.file content) := rfl
      exact ⟨content, FileSystem.read_of_follow (by decide)
        (hrooted.follow_at? hat .target (.inr (by simp))) hat⟩
    · exact ⟨content, read_linked content⟩

/-- A script is written, and the link to it goes on to read as before in the
environment. -/
theorem link_out_of_sync :
    let change : Change := ⟨txt "scripts/a.zs", [.write]⟩
    Config.Alters {} [txt "scripts"] [] (txt "a.zs") change (.linked []) (.linked (txt "x;")) ∧
      ∃ ids e, ({ root := txt "scripts" } : Environment).load (.linked []) {} = .ok (ids, e) ∧
        e.Reachable ∧ InSync {} (.linked []) e ∧
        ¬ InSync {} (.linked (txt "x;")) (e.follow {} (.linked (txt "x;")) change).1 := by
  intro change
  have halters : Config.Alters {} [txt "scripts"] [] (txt "a.zs") change (.linked [])
      (.linked (txt "x;")) :=
    Config.alters_put (rootedAt_linked []) rfl rfl (rootedAt_linked _) (readable_linked _)
      (by simp) (by decide) (by decide +kernel)
      (.written (by rintro old ⟨⟩; rfl) rfl (by decide))
  obtain ⟨ids, e, hload, he, hsync⟩ :=
    Environment.exists_load (rootedAt_linked []) (readable_linked [])
  refine ⟨halters, ids, e, hload, he, hsync, fun hnew => ?_⟩
  -- The script of the link is kept, so it would have to read the same in both trees.
  have hsynced := ((Environment.inSync_iff (rootedAt_linked [])).mp hsync).2
  obtain ⟨id, hid⟩ := Option.isSome_iff_exists.mp
    ((hsynced (txt "b.zs")).present.mpr ((hasScript_linked_iff []).mpr (.inr rfl)))
  have hkeeps := (halters.renewed (by decide) he hsynced).kept (txt "b.zs")
    (by rw [Path.Within, Path.Below]; decide)
  have hold := hsync.scripts _ id hid
  have hstale := hnew.scripts _ id (hkeeps.unit_eq.trans hid)
  rw [hkeeps.script_eq id hid, ← hold, Environment.load_of_read (read_linked _),
    Environment.load_of_read (read_linked _)] at hstale
  have hsize := congrArg (fun s => s.outline.size) (Except.ok.inj hstale)
  revert hsize
  decide +kernel

/-- A workspace behind a link. -/
def FileSystem.behindLink (entries : Directory) : FileSystem where
  root := .dir (.cons (txt "real") (.dir entries)
    (.cons (txt "scripts") (.link (txt "real")) .nil))

theorem discover_behindLink {entries : Directory} (h : entries.Proper) :
    Config.discover {} (.behindLink entries) = .ok [] := by
  have hproper : (FileSystem.behindLink entries).root.Proper :=
    ⟨by decide, rfl, h, by decide, rfl, trivial, trivial⟩
  have htop : (FileSystem.behindLink entries).root.at? ([] ++ []) =
      some (FileSystem.behindLink entries).root := rfl
  have hfollow : FileSystem.follow (FileSystem.behindLink entries).root .entry 40 []
      [txt "scripts"] = .ok [txt "scripts"] :=
    FileSystem.follow_of_at? hproper htop rfl (.inl rfl)
  have hsteps : FileSystem.steps (txt "scripts") = [txt "scripts"] := by decide
  rw [← hsteps] at hfollow
  have hentry : (FileSystem.behindLink entries).entry (txt "scripts") =
      .ok (.link (txt "real")) := by
    rw [FileSystem.entry, FileSystem.locate_of_follow (by decide) hfollow rfl]
  rw [Config.discover, hentry]
  rfl

theorem locate_behindLink :
    (FileSystem.behindLink (.cons (txt "a.zs") (.file []) .nil)).locate .target
      (Path.join (txt "scripts") (txt "a.zs")) = .ok ([txt "real", txt "a.zs"], .file []) := by
  have hproper : (FileSystem.behindLink (.cons (txt "a.zs") (.file []) .nil)).root.Proper := by
    decide
  have hreal : (FileSystem.behindLink (.cons (txt "a.zs") (.file []) .nil)).root.at?
      ([] ++ [txt "real"]) = some (.dir (.cons (txt "a.zs") (.file []) .nil)) := rfl
  have hfollow := calc
    FileSystem.follow (FileSystem.behindLink (.cons (txt "a.zs") (.file []) .nil)).root .target 40
        [] [txt "scripts", txt "a.zs"]
      = FileSystem.follow (FileSystem.behindLink (.cons (txt "a.zs") (.file []) .nil)).root .target
          39 [] (FileSystem.steps (txt "real") ++ [txt "a.zs"]) :=
        FileSystem.follow_link hproper rfl rfl rfl
    _ = .ok [txt "real", txt "a.zs"] :=
      FileSystem.follow_of_at? hproper hreal rfl (.inr (by simp))
  have hsteps : FileSystem.steps (Path.join (txt "scripts") (txt "a.zs")) =
      [txt "scripts", txt "a.zs"] := by decide
  rw [← hsteps] at hfollow
  exact FileSystem.locate_of_follow (by decide) hfollow rfl

/-- Nothing is discovered behind a root that is a link, but a script that is written
there is read. -/
theorem linked_root_out_of_sync :
    let e : Environment := { root := txt "scripts" }
    let after := FileSystem.behindLink (.cons (txt "a.zs") (.file []) .nil)
    InSync {} (.behindLink .nil) e ∧
      ¬ InSync {} after (e.follow {} after ⟨txt "scripts/a.zs", [.create]⟩).1 := by
  intro e after
  have hbefore : InSync {} (.behindLink .nil) e := by
    refine ⟨⟨[], discover_behindLink trivial, fun q => ?_⟩, fun q id hid => by cases hid⟩
    simp [Environment.unit?, e]
  refine ⟨hbefore, fun hsync => ?_⟩
  have hpath : txt "scripts/a.zs" = Path.join (txt "scripts") (txt "a.zs") := by decide
  have hinside : Config.inside? {} (txt "scripts/a.zs") = some (txt "a.zs") := by decide
  have hfile : after.destination (txt "scripts/a.zs") = .ok (.file []) := by
    rw [FileSystem.destination, hpath, locate_behindLink]
  have hread : after.read (Path.join (txt "scripts") (txt "a.zs")) = .ok [] := by
    rw [FileSystem.read, locate_behindLink]
  have hfollow : (e.follow {} after ⟨txt "scripts/a.zs", [.create]⟩).1 =
      (e.reload {} after (txt "a.zs")).1 := by
    rw [Environment.follow, hinside]
    simp only [hfile]
    rfl
  obtain ⟨⟨id, hid, -⟩, -⟩ := (Environment.Placed.new (txt "scripts")).reload
    (c := {}) (Environment.load_of_read hread)
  obtain ⟨paths, hpaths, hunits⟩ := hsync.paths
  rw [discover_behindLink (by decide)] at hpaths
  cases hpaths
  rw [hfollow] at hunits
  exact absurd ((hunits (txt "a.zs")).mpr (by rw [hid]; rfl)) (by simp)

/-- Changes that happen one after the other, each with the tree that it leads to. -/
inductive Config.Course (c : Config) (place : List Text) :
    FileSystem → List (Change × FileSystem) → Prop where
  | nil (fs : FileSystem) : c.Course place fs []
  | cons {parents : List Text} {name : Text} {change : Change} {before after : FileSystem}
      {rest : List (Change × FileSystem)} :
      c.Alters place parents name change before after →
      c.LinksAgree place (parents ++ [name]) before after → c.Course place after rest →
      c.Course place before ((change, after) :: rest)

/-- Follows changes one after the other. -/
def Environment.followAll (c : Config) (e : Environment) (course : List (Change × FileSystem)) :
    Environment :=
  course.foldl (fun e (change, fs) => (e.follow c fs change).1) e

/-- Whatever course the changes take, the environment ends in sync with the last tree. -/
theorem Config.Course.inSync {course : List (Change × FileSystem)} (h : c.Course place fs course)
    (hextensions : ∀ x ∈ c.extensions, Path.slash ∉ x) (he : e.Reachable)
    (hsync : InSync c fs e) :
    InSync c ((course.map (·.2)).getLastD fs) (Environment.followAll c e course) := by
  induction h generalizing e with
  | nil fs => exact hsync
  | cons halters hlinks _ ih =>
      rw [List.map_cons, List.getLastD_cons]
      exact ih (he.follow _) (halters.inSync_follow hlinks hextensions he hsync)

end Zensight
