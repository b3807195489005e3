import Mathlib.Data.List.Forall2
import Zensight.Proofs.FileTrees
import Zensight.Workspace.Discovery

/-!
# What belongs to a workspace

`Config.Finds` says which entries below the root of a workspace are its scripts:
those with the name of a script that are no directories, in directories of which
none is passed over. `Config.discover` lists their paths and nothing else.

A path is a text, and the walk hands texts to the file system. So it has to be
settled where they lead. `Config.RootedAt` says that the root is a directory,
found at its place by the path as it is written and by the cleaned path alike.
Then names below the root lead where the tree says, be it for listing a
directory, for looking at an entry or for reading a file.
-/

namespace Zensight

theorem mapM_eq_ok_map {α β ε : Type} {f : α → Except ε β} {g : α → β} {l : List α}
    (h : ∀ a ∈ l, f a = .ok (g a)) : l.mapM f = .ok (l.map g) := by
  induction l with
  | nil => rfl
  | cons a l ih =>
      rw [List.mapM_cons, h a List.mem_cons_self, ih fun b hb => h b (List.mem_cons_of_mem _ hb)]
      rfl

theorem forall₂_of_mapM_eq_ok {α β ε : Type} {f : α → Except ε β} {l : List α} {bs : List β}
    (h : l.mapM f = .ok bs) : List.Forall₂ (fun a b => f a = .ok b) l bs := by
  induction l generalizing bs with
  | nil =>
      cases h
      exact .nil
  | cons a l ih =>
      rw [List.mapM_cons] at h
      cases ha : f a with
      | error err => rw [ha] at h; cases h
      | ok b =>
          cases hl : l.mapM f with
          | error err => rw [ha, hl] at h; cases h
          | ok bs =>
              rw [ha, hl] at h
              cases h
              exact .cons ha (ih hl)

theorem exists_of_mem_of_forall₂ {α β : Type} {R : α → β → Prop} {l : List α} {bs : List β}
    (h : List.Forall₂ R l bs) {b : β} (hb : b ∈ bs) : ∃ a ∈ l, R a b := by
  induction h with
  | nil => cases hb
  | cons hR _ ih =>
      rcases List.mem_cons.mp hb with rfl | hb
      · exact ⟨_, List.mem_cons_self, hR⟩
      · obtain ⟨a, ha, hR⟩ := ih hb
        exact ⟨a, List.mem_cons_of_mem _ ha, hR⟩

theorem ok_of_mapM_eq_ok {α β ε : Type} {f : α → Except ε β} {l : List α} {bs : List β}
    (h : l.mapM f = .ok bs) : ∀ a ∈ l, ∃ b, f a = .ok b := by
  intro a ha
  obtain ⟨b, -, hb⟩ := exists_of_mem_of_forall₂ (forall₂_of_mapM_eq_ok h).flip ha
  exact ⟨b, hb⟩

namespace FileSystem

theorem ok_of_locate {fs : FileSystem} {ending : Ending} {path : Text} {place : List Text}
    {e : FileEntry} (h : fs.locate ending path = .ok (place, e)) :
    checkPath path = .ok () ∧ fs.root.at? place = some e := by
  rw [locate] at h
  cases hcheck : checkPath path with
  | error err => rw [hcheck] at h; cases h
  | ok =>
      cases hfollow : follow fs.root ending linkLimit (fs.start path) (steps path) with
      | error err => rw [hcheck, hfollow] at h; cases h
      | ok found =>
          simp only [hcheck, hfollow, bind, Except.bind] at h
          cases hat : fs.root.at? found with
          | none => rw [hat] at h; cases h
          | some entry =>
              rw [hat] at h
              cases h
              exact ⟨rfl, hat⟩

theorem locate_of_follow {fs : FileSystem} {ending : Ending} {path : Text} {place : List Text}
    {e : FileEntry} (hcheck : checkPath path = .ok ())
    (hfollow : follow fs.root ending linkLimit (fs.start path) (steps path) = .ok place)
    (hat : fs.root.at? place = some e) : fs.locate ending path = .ok (place, e) := by
  rw [locate, hcheck, hfollow]
  simp only [bind, Except.bind, hat]
  rfl

theorem read_of_follow {fs : FileSystem} {path content : Text} {place : List Text}
    (hcheck : checkPath path = .ok ())
    (hfollow : follow fs.root .target linkLimit (fs.start path) (steps path) = .ok place)
    (hat : fs.root.at? place = some (.file content)) : fs.read path = .ok content := by
  rw [read, locate_of_follow hcheck hfollow hat]

theorem destination_of_read {fs : FileSystem} {path content : Text}
    (h : fs.read path = .ok content) : fs.destination path = .ok (.file content) := by
  rw [read] at h
  rw [destination]
  split at h
  · next hlocate => cases h; rw [hlocate]
  · cases h
  · cases h

theorem locate_of_check_error {fs : FileSystem} {ending : Ending} {path : Text} {err : FileError}
    (hcheck : checkPath path = .error err) : fs.locate ending path = .error err := by
  rw [locate, hcheck]
  rfl

theorem steps_join (root : Text) {names : List Text} (hnames : ∀ n ∈ names, Path.IsName n)
    (hne : names ≠ []) :
    steps (Path.join root (Path.ofSegments names)) = Path.cleanSegments root ++ names := by
  rw [steps, Path.segments_join root hnames hne, if_neg (Path.getLast?_join root hnames hne),
    List.append_nil]

theorem start_join (fs : FileSystem) (root : Text) {names : List Text}
    (hnames : ∀ n ∈ names, Path.IsName n) (hne : names ≠ []) :
    fs.start (Path.join root (Path.ofSegments names)) = fs.start root := by
  rw [start, start, Path.isAbsolute_join root hnames hne]

end FileSystem

namespace Config

open FileSystem (Ending)

variable {c : Config} {fs : FileSystem} {place : List Text} {top : FileEntry}

/-- A script in the directory that `dirs` lead to from the top of a workspace. -/
structure Finds (c : Config) (top : FileEntry) (dirs : List Text) (name : Text) : Prop where
  entry : ∃ e, top.at? (dirs ++ [name]) = some e ∧ e.isDir = false
  entered : ∀ d ∈ dirs, c.skips d = false
  script : c.isScript name = true

/-! ## The walk over a tree -/

theorem Finds.child {entries : Directory} {d name : Text} {dirs : List Text} {child : FileEntry}
    (hget : entries.get? d = some child) (hskips : c.skips d = false)
    (h : c.Finds child dirs name) : c.Finds (.dir entries) (d :: dirs) name := by
  obtain ⟨e, hat, hleaf⟩ := h.entry
  refine ⟨⟨e, ?_, hleaf⟩, fun d' hd' => ?_, h.script⟩
  · rw [List.cons_append, FileEntry.at?_dir_cons, hget]
    exact hat
  · rcases List.mem_cons.mp hd' with rfl | hd'
    · exact hskips
    · exact h.entered d' hd'

/-- What the rest of a directory holds, the directory holds. -/
theorem Finds.cons {rest : Directory} {n name : Text} {dirs : List Text} {entry : FileEntry}
    (hfree : rest.get? n = none) (h : c.Finds (.dir rest) dirs name) :
    c.Finds (.dir (.cons n entry rest)) dirs name := by
  have hget : ∀ m, (rest.get? m).isSome → (Directory.cons n entry rest).get? m = rest.get? m := by
    intro m hm
    rw [Directory.get?, if_neg]
    rintro rfl
    rw [hfree] at hm
    cases hm
  obtain ⟨e, hat, hleaf⟩ := h.entry
  refine ⟨⟨e, ?_, hleaf⟩, h.entered, h.script⟩
  cases dirs with
  | nil =>
      rw [List.nil_append, FileEntry.at?_dir_cons] at hat ⊢
      rwa [hget name (Option.isSome_of_mem (Option.bind_eq_some_iff.mp hat).choose_spec.1)]
  | cons d dirs =>
      rw [List.cons_append, FileEntry.at?_dir_cons] at hat ⊢
      rwa [hget d (Option.isSome_of_mem (Option.bind_eq_some_iff.mp hat).choose_spec.1)]

mutual

theorem finds_of_mem_scriptsIn : (entry : FileEntry) → entry.Proper → {name path : Text} →
    path ∈ c.scriptsIn name entry →
    (entry.isDir = false ∧ c.isScript name = true ∧ path = name) ∨
      c.skips name = false ∧ ∃ dirs n, c.Finds entry dirs n ∧
        path = Path.ofSegments (name :: (dirs ++ [n]))
  | .dir entries, hproper, name, path, hmem => by
    rw [scriptsIn] at hmem
    split at hmem
    · cases hmem
    · next hskips =>
        obtain ⟨below, hbelow, rfl⟩ := List.mem_map.mp hmem
        obtain ⟨dirs, n, hfinds, rfl⟩ := finds_of_mem_scriptsBelow entries hproper hbelow
        refine .inr ⟨by simpa using hskips, dirs, n, hfinds, ?_⟩
        rw [Path.ofSegments_cons (by simp), List.append_assoc]
        rfl
  | .file _, _, name, path, hmem | .link _, _, name, path, hmem => by
    rw [scriptsIn] at hmem
    split at hmem
    · next hscript => exact .inl ⟨rfl, hscript, List.mem_singleton.mp hmem⟩
    · cases hmem

theorem finds_of_mem_scriptsBelow : (entries : Directory) → entries.Proper → {path : Text} →
    path ∈ c.scriptsBelow entries →
    ∃ dirs n, c.Finds (.dir entries) dirs n ∧ path = Path.ofSegments (dirs ++ [n])
  | .nil, _, _, hmem => by cases hmem
  | .cons name entry rest, hproper, path, hmem => by
    have hget : (Directory.cons name entry rest).get? name = some entry := by
      rw [Directory.get?, if_pos rfl]
    rw [scriptsBelow] at hmem
    rcases List.mem_append.mp hmem with hmem | hmem
    · rcases finds_of_mem_scriptsIn entry hproper.2.2.1 hmem with
        ⟨hleaf, hscript, rfl⟩ | ⟨hskips, dirs, n, hfinds, rfl⟩
      · refine ⟨[], path, ⟨⟨entry, ?_, hleaf⟩, by simp, hscript⟩, rfl⟩
        rw [List.nil_append, FileEntry.at?_dir_cons, hget]
        exact FileEntry.at?_nil entry
      · exact ⟨name :: dirs, n, hfinds.child hget hskips, rfl⟩
    · obtain ⟨dirs, n, hfinds, hpath⟩ := finds_of_mem_scriptsBelow rest hproper.2.2.2 hmem
      exact ⟨dirs, n, hfinds.cons hproper.2.1, hpath⟩

end

theorem scriptsBelow_eq : (entries : Directory) →
    c.scriptsBelow entries = entries.toList.flatMap fun (name, entry) => c.scriptsIn name entry
  | .nil => rfl
  | .cons name entry rest => by
    rw [scriptsBelow, scriptsBelow_eq rest, Directory.toList, List.flatMap_cons]

theorem mem_scriptsBelow_of_get? {entries : Directory} (hproper : entries.Proper)
    {name path : Text} {entry : FileEntry} (hget : entries.get? name = some entry)
    (hmem : path ∈ c.scriptsIn name entry) : path ∈ c.scriptsBelow entries := by
  rw [scriptsBelow_eq]
  exact List.mem_flatMap.mpr ⟨(name, entry), (hproper.mem_toList_iff name entry).mpr hget, hmem⟩

theorem Finds.mem_scriptsBelow {entries : Directory} (hproper : entries.Proper) {dirs : List Text}
    {name : Text} (h : c.Finds (.dir entries) dirs name) :
    Path.ofSegments (dirs ++ [name]) ∈ c.scriptsBelow entries := by
  obtain ⟨e, hat, hleaf⟩ := h.entry
  induction dirs generalizing entries with
  | nil =>
      rw [List.nil_append, FileEntry.at?_dir_cons] at hat
      obtain ⟨entry, hget, hentry⟩ := Option.bind_eq_some_iff.mp hat
      rw [FileEntry.at?_nil] at hentry
      cases hentry
      refine mem_scriptsBelow_of_get? hproper hget ?_
      cases e with
      | dir => cases hleaf
      | file | link =>
          rw [scriptsIn, if_pos h.script]
          exact List.mem_singleton.mpr rfl
  | cons d dirs ih =>
      rw [List.cons_append] at hat
      obtain ⟨siblings, child, heq, hget, hat⟩ := FileEntry.exists_of_at?_cons hat
      cases heq
      have hchild := (hproper.of_get? hget).2
      -- More names follow, so the child is a directory as well.
      obtain ⟨entries', rfl⟩ : ∃ entries', child = .dir entries' := by
        cases hnames : dirs ++ [name] with
        | nil => simp at hnames
        | cons n names =>
            rw [hnames] at hat
            obtain ⟨entries', _, rfl, _⟩ := FileEntry.exists_of_at?_cons hat
            exact ⟨entries', rfl⟩
      have hbelow := ih hchild
        ⟨⟨e, hat, hleaf⟩, fun d' hd' => h.entered d' (List.mem_cons_of_mem _ hd'), h.script⟩ hat
      refine mem_scriptsBelow_of_get? hproper hget ?_
      rw [scriptsIn, h.entered d List.mem_cons_self, if_neg Bool.false_ne_true]
      refine List.mem_map.mpr ⟨_, hbelow, ?_⟩
      rw [List.cons_append, Path.ofSegments_cons (by simp), List.append_assoc]
      rfl

theorem mem_scriptsBelow_iff {entries : Directory} (hproper : entries.Proper) {path : Text} :
    path ∈ c.scriptsBelow entries ↔
      ∃ dirs name, c.Finds (.dir entries) dirs name ∧ path = Path.ofSegments (dirs ++ [name]) := by
  refine ⟨finds_of_mem_scriptsBelow entries hproper, ?_⟩
  rintro ⟨dirs, name, hfinds, rfl⟩
  exact hfinds.mem_scriptsBelow hproper

/-! ## The walk over a file system -/

/-- The root of the workspace is a directory of a proper tree, found at its place by its
path as it stands and by the cleaned path. -/
structure RootedAt (c : Config) (fs : FileSystem) (place : List Text) : Prop where
  proper : fs.root.Proper
  entry : ∃ entries, fs.locate .entry c.root = .ok (place, .dir entries)
  clean : FileSystem.follow fs.root .target FileSystem.linkLimit (fs.start c.root)
    (Path.cleanSegments c.root) = .ok place

namespace RootedAt

/-- A root that is written as the names of directories. -/
theorem of_names (hproper : fs.root.Proper) {names : List Text} {entries : Directory}
    (hroot : c.root = Path.ofSegments names) (hcheck : FileSystem.checkPath c.root = .ok ())
    (hdir : fs.root.at? (fs.here ++ names) = some (.dir entries)) :
    c.RootedAt fs (fs.here ++ names) := by
  have hnames := hproper.isName_of_at? hdir
  have hsegments : ∀ n ∈ names, Path.IsSegment n := fun n hn => (hnames n hn).isSegment
  have hstart : fs.start c.root = fs.here := by
    rw [FileSystem.start, hroot, Path.isAbsolute_ofSegments hsegments]
    rfl
  have hsteps : FileSystem.steps c.root = names := by
    rw [FileSystem.steps, hroot, Path.segments_ofSegments hsegments,
      if_neg (Path.getLast?_ofSegments hsegments), List.append_nil]
  have hfollow : ∀ ending, FileSystem.follow fs.root ending FileSystem.linkLimit fs.here names =
      .ok (fs.here ++ names) := by
    intro ending
    have hdirs : FileSystem.follow fs.root ending FileSystem.linkLimit fs.here (names ++ []) =
        FileSystem.follow fs.root ending FileSystem.linkLimit (fs.here ++ names) [] :=
      FileSystem.follow_dirs hproper hdir
    rw [List.append_nil] at hdirs
    rw [hdirs, FileSystem.follow]
  refine ⟨hproper, ⟨entries, FileSystem.locate_of_follow hcheck ?_ hdir⟩, ?_⟩
  · rw [hstart, hsteps]
    exact hfollow .entry
  · rw [hstart, hroot, Path.cleanSegments_ofSegments hnames]
    exact hfollow .target

theorem at? (h : c.RootedAt fs place) : ∃ entries, fs.root.at? place = some (.dir entries) := by
  obtain ⟨entries, hlocate⟩ := h.entry
  exact ⟨entries, (FileSystem.ok_of_locate hlocate).2⟩

/-- The path of names below the root leads where they lead from its place. -/
theorem follow_join (h : c.RootedAt fs place) :
    ∃ links, ∀ (ending : Ending) (names : List Text), names ≠ [] →
      (∀ n ∈ names, Path.IsName n) →
      FileSystem.follow fs.root ending FileSystem.linkLimit
          (fs.start (Path.join c.root (Path.ofSegments names)))
          (FileSystem.steps (Path.join c.root (Path.ofSegments names))) =
        FileSystem.follow fs.root ending links place names := by
  obtain ⟨links, hlinks⟩ := FileSystem.follow_append h.clean
  refine ⟨links, fun ending names hne hnames => ?_⟩
  rw [fs.start_join c.root hnames hne, FileSystem.steps_join c.root hnames hne]
  exact hlinks ending names hne

theorem follow_at? (h : c.RootedAt fs place) {parents : List Text}
    {name : Text} {e : FileEntry} (hat : fs.root.at? (place ++ (parents ++ [name])) = some e)
    (ending : Ending) (hlink : ending = .entry ∨ ∀ target, e ≠ .link target) :
    FileSystem.follow fs.root ending FileSystem.linkLimit
        (fs.start (Path.join c.root (Path.ofSegments (parents ++ [name]))))
        (FileSystem.steps (Path.join c.root (Path.ofSegments (parents ++ [name])))) =
      .ok (place ++ (parents ++ [name])) := by
  obtain ⟨links, hlinks⟩ := h.follow_join
  have hnames : ∀ n ∈ parents ++ [name], Path.IsName n := h.proper.isName_of_at? hat
  rw [← List.append_assoc, FileEntry.at?_append] at hat
  obtain ⟨parent, hparent, hentry⟩ := Option.bind_eq_some_iff.mp hat
  obtain ⟨entries, child, rfl, hget, hchild⟩ := FileEntry.exists_of_at?_cons hentry
  rw [FileEntry.at?_nil] at hchild
  cases hchild
  rw [hlinks ending _ (by simp) hnames, FileSystem.follow_of_at? h.proper hparent hget hlink,
    List.append_assoc]

/-- What the tree has at names below the root is found by their path, if that is one
that can be followed at all. -/
theorem locate_join (h : c.RootedAt fs place) {parents : List Text}
    {name : Text} {e : FileEntry} (hat : fs.root.at? (place ++ (parents ++ [name])) = some e)
    {ending : Ending} (hlink : ending = .entry ∨ ∀ target, e ≠ .link target)
    (hcheck : FileSystem.checkPath (Path.join c.root (Path.ofSegments (parents ++ [name]))) =
      .ok ()) :
    fs.locate ending (Path.join c.root (Path.ofSegments (parents ++ [name]))) =
      .ok (place ++ (parents ++ [name]), e) :=
  FileSystem.locate_of_follow hcheck (h.follow_at? hat ending hlink) hat

end RootedAt

theorem eq_of_locate_join (h : c.RootedAt fs place)
    {parents found : List Text} {name : Text} {e x : FileEntry}
    (hat : fs.root.at? (place ++ (parents ++ [name])) = some e) {ending : Ending}
    (hlink : ending = .entry ∨ ∀ target, e ≠ .link target)
    (hlocate : fs.locate ending (Path.join c.root (Path.ofSegments (parents ++ [name]))) =
      .ok (found, x)) : x = e := by
  rw [h.locate_join hat hlink (FileSystem.ok_of_locate hlocate).1] at hlocate
  cases hlocate
  rfl

theorem list_join (h : c.RootedAt fs place) {parents : List Text}
    {name : Text} {entries sub : Directory}
    (hat : fs.root.at? (place ++ (parents ++ [name])) = some (.dir sub))
    (hlist : fs.list (Path.join c.root (Path.ofSegments (parents ++ [name]))) = .ok entries) :
    entries = sub := by
  rw [FileSystem.list] at hlist
  split at hlist
  · next hlocate =>
      have hsame := eq_of_locate_join h hat (.inr (by simp)) hlocate
      cases hlist
      cases hsame
      rfl
  · cases hlist
  · cases hlist

/-- Where a directory can be listed at all, it is the one in the tree. -/
theorem scriptsAt_eq (h : c.RootedAt fs place) {name : Text}
    {entry : FileEntry} (hat : fs.root.at? (place ++ [name]) = some entry) {paths : List Text}
    (hscripts : c.scriptsAt fs name entry = .ok paths) : paths = c.scriptsIn name entry := by
  cases entry with
  | file | link => cases hscripts; rfl
  | dir sub =>
      rw [scriptsAt] at hscripts
      split at hscripts
      · next hskips =>
          cases hscripts
          rw [scriptsIn, if_pos hskips]
      · cases hlist : fs.list (Path.join c.root name) with
        | error fault => rw [hlist] at hscripts; cases hscripts
        | ok entries =>
            rw [hlist] at hscripts
            cases hscripts
            have hat : fs.root.at? (place ++ ([] ++ [name])) = some (.dir sub) := hat
            rw [list_join h hat hlist]

theorem RootedAt.entry_root (h : c.RootedAt fs place) {entries : Directory}
    (htop : fs.root.at? place = some (.dir entries)) : fs.entry c.root = .ok (.dir entries) := by
  obtain ⟨entries', hlocate⟩ := h.entry
  have hsame := (FileSystem.ok_of_locate hlocate).2
  rw [htop] at hsame
  cases hsame
  rw [FileSystem.entry, hlocate]

theorem discover_of_scriptsAt (h : c.RootedAt fs place) {entries : Directory}
    (htop : fs.root.at? place = some (.dir entries))
    (hall : ∀ name entry, (name, entry) ∈ entries.toList →
      c.scriptsAt fs name entry = .ok (c.scriptsIn name entry)) :
    ∃ paths, c.discover fs = .ok paths ∧ paths.Perm (c.scriptsBelow entries) := by
  have hperm := List.mergeSort_perm entries.toList fun a b => !b.1.before a.1
  have hfound := mapM_eq_ok_map (l := entries.toList.mergeSort fun a b => !b.1.before a.1)
    (f := fun (name, entry) => c.scriptsAt fs name entry)
    (g := fun (name, entry) => c.scriptsIn name entry)
    fun (name, entry) hmem => hall name entry (hperm.mem_iff.mp hmem)
  -- The entries are sorted before the walk and the paths after it.
  refine ⟨_, by rw [discover, h.entry_root htop]; simp only [hfound]; rfl, ?_⟩
  refine (List.mergeSort_perm _ _).trans ?_
  rw [scriptsBelow_eq, ← List.flatMap_def]
  exact hperm.flatMap_right _

/-- Whatever is discovered stands in the tree, in some order. -/
theorem discover_perm (h : c.RootedAt fs place) {entries : Directory}
    (htop : fs.root.at? place = some (.dir entries)) {paths : List Text}
    (hok : c.discover fs = .ok paths) : paths.Perm (c.scriptsBelow entries) := by
  have hentries : entries.Proper := (h.proper.at? htop).2
  have hall : ∀ name entry, (name, entry) ∈ entries.toList →
      c.scriptsAt fs name entry = .ok (c.scriptsIn name entry) := by
    intro name entry hmem
    have hat : fs.root.at? (place ++ [name]) = some entry := by
      rw [FileEntry.at?_append, htop]
      simp [(hentries.mem_toList_iff name entry).mp hmem]
    -- No directory of the root was refused, or nothing would be discovered.
    rw [discover, h.entry_root htop] at hok
    cases hfound : (entries.toList.mergeSort fun a b => !b.1.before a.1).mapM
        fun (name, entry) => c.scriptsAt fs name entry with
    | error fault => simp only [hfound] at hok; cases hok
    | ok found =>
        obtain ⟨paths', hpaths'⟩ := ok_of_mapM_eq_ok hfound (name, entry)
          ((List.mergeSort_perm _ _).mem_iff.mpr hmem)
        have hpaths' : c.scriptsAt fs name entry = .ok paths' := hpaths'
        rw [hpaths', scriptsAt_eq h hat hpaths']
  obtain ⟨paths', hok', hperm⟩ := discover_of_scriptsAt h htop hall
  rw [hok] at hok'
  cases hok'
  exact hperm

/-- There is a script of the workspace at the path, which is seen from the root. -/
def HasScript (c : Config) (fs : FileSystem) (place : List Text) (path : Text) : Prop :=
  ∃ dirs name, (∃ top, fs.root.at? place = some top ∧ c.Finds top dirs name) ∧
    path = Path.ofSegments (dirs ++ [name])

theorem finds_iff {dirs : List Text} {name : Text} :
    (∃ top, fs.root.at? place = some top ∧ c.Finds top dirs name) ↔
      (∃ e, fs.root.at? (place ++ (dirs ++ [name])) = some e ∧ e.isDir = false) ∧
        (∀ d ∈ dirs, c.skips d = false) ∧ c.isScript name = true := by
  rw [FileEntry.at?_append]
  constructor
  · rintro ⟨top, htop, ⟨e, hat, hleaf⟩, hentered, hscript⟩
    exact ⟨⟨e, by rw [htop]; exact hat, hleaf⟩, hentered, hscript⟩
  · rintro ⟨⟨e, hat, hleaf⟩, hentered, hscript⟩
    obtain ⟨top, htop, hat⟩ := Option.bind_eq_some_iff.mp hat
    exact ⟨top, htop, ⟨⟨e, hat, hleaf⟩, hentered, hscript⟩⟩

theorem hasScript_iff_mem (hproper : fs.root.Proper) {entries : Directory}
    (htop : fs.root.at? place = some (.dir entries)) {path : Text} :
    c.HasScript fs place path ↔ path ∈ c.scriptsBelow entries := by
  rw [mem_scriptsBelow_iff (hproper.at? htop).2]
  constructor
  · rintro ⟨dirs, name, ⟨top, htop', hfinds⟩, hpath⟩
    rw [htop] at htop'
    cases htop'
    exact ⟨dirs, name, hfinds, hpath⟩
  · rintro ⟨dirs, name, hfinds, hpath⟩
    exact ⟨dirs, name, ⟨_, htop, hfinds⟩, hpath⟩

theorem mem_discover_iff (h : c.RootedAt fs place) {paths : List Text}
    (hok : c.discover fs = .ok paths) {path : Text} :
    path ∈ paths ↔ c.HasScript fs place path := by
  obtain ⟨entries, htop⟩ := h.at?
  rw [(discover_perm h htop hok).mem_iff, hasScript_iff_mem h.proper htop]

theorem HasScript.exists_names (hproper : fs.root.Proper) {path : Text}
    (h : c.HasScript fs place path) :
    ∃ names, names ≠ [] ∧ (∀ n ∈ names, Path.IsName n) ∧ path = Path.ofSegments names := by
  obtain ⟨dirs, name, hfinds, hpath⟩ := h
  obtain ⟨⟨e, hat, -⟩, -⟩ := finds_iff.mp hfinds
  exact ⟨dirs ++ [name], by simp, hproper.isName_of_at? hat, hpath⟩

/-! ## Workspaces that can be read -/

/-- Every directory of the workspace can be listed and every script can be read. -/
structure Readable (c : Config) (fs : FileSystem) (place : List Text) : Prop where
  lists : ∀ dirs entries, dirs ≠ [] → fs.root.at? (place ++ dirs) = some (.dir entries) →
    (∀ d ∈ dirs, c.skips d = false) →
    ∃ listed, fs.list (Path.join c.root (Path.ofSegments dirs)) = .ok listed
  reads : ∀ path, c.HasScript fs place path →
    ∃ source, fs.read (Path.join c.root path) = .ok source

theorem Readable.discover (hread : c.Readable fs place) (h : c.RootedAt fs place) :
    ∃ paths, c.discover fs = .ok paths := by
  obtain ⟨entries, htop⟩ := h.at?
  have hentries : entries.Proper := (h.proper.at? htop).2
  obtain ⟨paths, hok, -⟩ := discover_of_scriptsAt h htop fun name entry hmem => by
    have hat : fs.root.at? (place ++ [name]) = some entry := by
      rw [FileEntry.at?_append, htop]
      simp [(hentries.mem_toList_iff name entry).mp hmem]
    cases entry with
    | file | link => rfl
    | dir sub =>
        rw [scriptsAt]
        split
        · next hskips => rw [scriptsIn, if_pos hskips]
        · next hskips =>
            obtain ⟨listed, hlisted⟩ := hread.lists [name] sub (by simp) hat (by simpa using hskips)
            have hlisted : fs.list (Path.join c.root name) = .ok listed := hlisted
            have hat : fs.root.at? (place ++ ([] ++ [name])) = some (.dir sub) := hat
            rw [hlisted, list_join h hat hlisted]
            rfl
  exact ⟨paths, hok⟩

/-- Is this found by its path, and no link? -/
def plain (c : Config) (names : List Text) : FileEntry → Bool
  | .link _ => false
  | _ => names.isEmpty || (FileSystem.checkPath (Path.join c.root (Path.ofSegments names))).isOk

theorem plain_concat {parents : List Text} {name : Text} {entry : FileEntry}
    (h : c.plain (parents ++ [name]) entry = true) :
    FileSystem.checkPath (Path.join c.root (Path.ofSegments (parents ++ [name]))) = .ok () ∧
      ∀ target, entry ≠ .link target := by
  have hcheck : ∀ check : Except FileError Unit, check.isOk = true → check = .ok () := by
    rintro (_ | _) h
    · cases h
    · rfl
  cases entry with
  | link => cases h
  | _ => exact ⟨hcheck _ (by simpa [plain] using h), by simp⟩

/-- Without links, a workspace can be read unless its paths are too long. -/
theorem readable_of_every (h : c.RootedAt fs place)
    (htop : fs.root.at? place = some top) (hplain : top.every c.plain = true) :
    c.Readable fs place := by
  have hcheck : ∀ names entry, fs.root.at? (place ++ names) = some entry →
      c.plain names entry = true := by
    intro names entry hat
    rw [FileEntry.at?_append, htop] at hat
    exact FileEntry.check_of_every hplain hat
  refine ⟨fun dirs entries hne hdir _ => ?_, ?_⟩
  · obtain ⟨parents, name, rfl⟩ := (List.eq_nil_or_concat dirs).resolve_left hne
    rw [List.concat_eq_append] at hdir ⊢
    refine ⟨entries, ?_⟩
    rw [FileSystem.list, h.locate_join hdir (.inr (by simp))
      (plain_concat (hcheck _ _ hdir)).1]
  · rintro path ⟨dirs, name, hfinds, rfl⟩
    obtain ⟨⟨entry, hat, hleaf⟩, -⟩ := finds_iff.mp hfinds
    obtain ⟨hpath, hlink⟩ := plain_concat (hcheck _ _ hat)
    cases entry with
    | dir => cases hleaf
    | link target => exact absurd rfl (hlink target)
    | file content =>
        exact ⟨content, FileSystem.read_of_follow hpath
          (h.follow_at? hat .target (.inr hlink)) hat⟩

/-- A file that two trees have reads the same in both. -/
theorem read_join_eq {fs' : FileSystem} (h : c.RootedAt fs place)
    (h' : c.RootedAt fs' place) {dirs : List Text} {name : Text}
    {content : Text} (hat : fs.root.at? (place ++ (dirs ++ [name])) = some (.file content))
    (hat' : fs'.root.at? (place ++ (dirs ++ [name])) = some (.file content)) :
    fs'.read (Path.join c.root (Path.ofSegments (dirs ++ [name]))) =
      fs.read (Path.join c.root (Path.ofSegments (dirs ++ [name]))) := by
  rw [FileSystem.read, FileSystem.read]
  cases hcheck : FileSystem.checkPath (Path.join c.root (Path.ofSegments (dirs ++ [name]))) with
  | error err =>
      rw [FileSystem.locate_of_check_error hcheck, FileSystem.locate_of_check_error hcheck]
  | ok =>
      rw [h.locate_join hat (.inr (by simp)) hcheck,
        h'.locate_join hat' (.inr (by simp)) hcheck]

/-! ## The workspace that a directory is

A directory of a workspace can be taken for the root of another one. Its scripts are
those of the workspace below the directory. -/

section Subtree

variable {parents : List Text} {name : Text} {sub : Directory}

theorem checkPath_of_list {path : Text} {entries : Directory} (h : fs.list path = .ok entries) :
    FileSystem.checkPath path = .ok () := by
  cases hcheck : FileSystem.checkPath path with
  | ok => rfl
  | error err =>
      rw [FileSystem.list, FileSystem.locate_of_check_error hcheck] at h
      cases h

theorem RootedAt.directory (h : c.RootedAt fs place)
    (hat : fs.root.at? (place ++ (parents ++ [name])) = some (.dir sub))
    (hcheck : FileSystem.checkPath (Path.join c.root (Path.ofSegments (parents ++ [name]))) =
      .ok ()) :
    { c with root := Path.join c.root (Path.ofSegments (parents ++ [name])) }.RootedAt fs
      (place ++ (parents ++ [name])) := by
  have hnames : ∀ n ∈ parents ++ [name], Path.IsName n := h.proper.isName_of_at? hat
  refine ⟨h.proper, ⟨sub, h.locate_join hat (.inl rfl) hcheck⟩, ?_⟩
  have hfollow := h.follow_at? hat .target (.inr (by simp))
  rw [FileSystem.steps_join c.root hnames (by simp)] at hfollow
  show FileSystem.follow _ _ _ _ (Path.cleanSegments (Path.join _ _)) = _
  rw [Path.cleanSegments_join c.root hnames (by simp)]
  exact hfollow

/-- The scripts of a directory are those of the workspace below it. -/
theorem hasScript_directory_iff (hproper : fs.root.Proper)
    (hat : fs.root.at? (place ++ (parents ++ [name])) = some (.dir sub))
    (hentered : ∀ d ∈ parents ++ [name], c.skips d = false) {path : Text} :
    (∃ below, { c with root := Path.join c.root (Path.ofSegments (parents ++ [name])) }.HasScript
        fs (place ++ (parents ++ [name])) below ∧
        path = Path.ofSegments (parents ++ [name]) ++ Path.slash :: below) ↔
      c.HasScript fs place path ∧ Path.Below (Path.ofSegments (parents ++ [name])) path := by
  have hnames : ∀ n ∈ parents ++ [name], Path.IsName n := hproper.isName_of_at? hat
  constructor
  · rintro ⟨below, ⟨dirs, n, hfinds, rfl⟩, rfl⟩
    obtain ⟨hentry, hdirs, hscript⟩ := finds_iff.mp hfinds
    rw [← Path.ofSegments_append (by simp) (by simp)]
    have hfound : c.HasScript fs place
        (Path.ofSegments (parents ++ [name] ++ (dirs ++ [n]))) := by
      refine ⟨parents ++ [name] ++ dirs, n, finds_iff.mpr ⟨?_, fun d hd => ?_, hscript⟩, ?_⟩
      · simpa only [List.append_assoc] using hentry
      · rcases List.mem_append.mp hd with hd | hd
        · exact hentered d hd
        · exact hdirs d hd
      · simp only [List.append_assoc]
    obtain ⟨e, hat', -⟩ := hentry
    rw [List.append_assoc] at hat'
    refine ⟨hfound, (Path.below_ofSegments_iff hnames (by simp) fun m hm => ?_).mpr
      ⟨dirs ++ [n], by simp, rfl⟩⟩
    exact (hproper.isName_of_at? hat' m hm).isSegment
  · rintro ⟨⟨dirs, n, hfinds, rfl⟩, hbelow⟩
    obtain ⟨⟨e, hat', hleaf⟩, hdirs, hscript⟩ := finds_iff.mp hfinds
    rw [Path.below_ofSegments_iff hnames (by simp) fun m hm =>
      (hproper.isName_of_at? hat' m hm).isSegment] at hbelow
    obtain ⟨rest, hrest, hsplit⟩ := hbelow
    -- The last name of the rest is that of the script, the others are directories.
    obtain ⟨more, last, rfl⟩ := (List.eq_nil_or_concat rest).resolve_left hrest
    rw [List.concat_eq_append] at hsplit
    rw [hsplit] at hat'
    rw [← List.append_assoc] at hsplit
    obtain ⟨rfl, hlast⟩ := List.append_inj' hsplit rfl
    cases hlast
    refine ⟨Path.ofSegments (more ++ [n]), ⟨more, n, finds_iff.mpr ⟨⟨e, ?_, hleaf⟩, ?_, hscript⟩,
      rfl⟩, ?_⟩
    · rwa [List.append_assoc]
    · exact fun d hd => hdirs d (List.mem_append_right _ hd)
    · rw [List.append_assoc, Path.ofSegments_append (by simp) (by simp)]

theorem join_directory (hproper : fs.root.Proper)
    (hat : fs.root.at? (place ++ (parents ++ [name])) = some (.dir sub)) {path : Text}
    (h : c.HasScript fs (place ++ (parents ++ [name])) path) (root : Text) :
    Path.join (Path.join root (Path.ofSegments (parents ++ [name]))) path =
      Path.join root (Path.ofSegments (parents ++ [name]) ++ Path.slash :: path) := by
  obtain ⟨names, hne, hnames, rfl⟩ := h.exists_names hproper
  have hparents : ∀ n ∈ parents ++ [name], Path.IsName n := hproper.isName_of_at? hat
  rw [Path.join_join root hparents (by simp) hnames hne, Path.ofSegments_append (by simp) hne]

theorem Readable.directory (h : c.Readable fs place) (hproper : fs.root.Proper)
    (hat : fs.root.at? (place ++ (parents ++ [name])) = some (.dir sub))
    (hentered : ∀ d ∈ parents ++ [name], c.skips d = false) :
    { c with root := Path.join c.root (Path.ofSegments (parents ++ [name])) }.Readable fs
      (place ++ (parents ++ [name])) := by
  have hnames : ∀ n ∈ parents ++ [name], Path.IsName n := hproper.isName_of_at? hat
  refine ⟨fun dirs entries hne hdir hdirs => ?_, fun path hpath => ?_⟩
  · rw [List.append_assoc] at hdir
    have hdirNames : ∀ n ∈ dirs, Path.IsName n := fun n hn =>
      hproper.isName_of_at? hdir n (List.mem_append_right _ hn)
    rw [Path.join_join c.root hnames (by simp) hdirNames hne]
    refine h.lists _ entries (by simp) hdir fun d hd => ?_
    rcases List.mem_append.mp hd with hd | hd
    · exact hentered d hd
    · exact hdirs d hd
  · rw [join_directory hproper hat hpath]
    exact h.reads _ ((hasScript_directory_iff hproper hat hentered).mp ⟨path, hpath, rfl⟩).1

end Subtree

end Config

end Zensight
