import Zensight.Command
import Zensight.Proofs.AllOrNothing

/-!
# Which files belong to a workspace

Three places decide whether a file belongs to a workspace: the search for
scripts, the commands, which see the path of an argument from the root, and the
watcher, which does so with the path of a change. The search hands out names
that lead from the root to a file. Seen from the root the file has just these
names, whether the two paths are compared as they are written or as they lead
from the top of the file system.

The commands and the watcher then take everything that begins with `..` for a
path that leads out of the workspace. That holds of a file in the root whose own
name begins this way, too: it is found and loaded, and nobody can ask for it. As
hidden directories are passed over, it holds of no file further down.
-/

namespace Zensight

namespace Path

/-! ## Paths from the top of the file system -/

variable {top root : Text} {names : List Text}

theorem IsClean.ne_dot {absolute : Bool} (h : IsClean absolute names) : ∀ n ∈ names, n ≠ dot := by
  obtain ⟨k, rest, rfl, hrest, -⟩ := h
  intro n hn
  rcases List.mem_append.mp hn with hn | hn
  · rw [List.eq_of_mem_replicate hn]
    decide
  · exact (hrest n hn).1

/-- One more segment of a relative path may be cleaned before the way from the top is, or
after. -/
theorem foldl_descend_descend (h : IsClean false names) (start : List Text) (name : Text) :
    (descend false names name).foldl (descend true) start =
      descend true (names.foldl (descend true) start) name := by
  by_cases hdot : name = dot
  · rw [descend, descend, if_pos hdot, if_pos hdot]
  by_cases hup : name = dotDot
  · rcases List.eq_nil_or_concat names with rfl | ⟨front, last, rfl⟩
    · rw [hup]
      rfl
    · rw [List.concat_eq_append] at h ⊢
      by_cases hlast : last = dotDot
      · have hkept : descend false (front ++ [last]) name = front ++ [last] ++ [name] := by
          rw [descend, if_neg hdot, if_pos hup, List.getLast?_concat]
          simp only [if_pos hlast, hup]
        rw [hkept, List.foldl_concat]
      · -- The name that is undone was there from the top as well.
        have hundone : ∀ (absolute : Bool) (done : List Text),
            descend absolute (done ++ [last]) name = done := by
          intro absolute done
          rw [descend, if_neg hdot, if_pos hup, List.getLast?_concat]
          simp only [if_neg hlast, List.dropLast_concat]
        have hadded : (front ++ [last]).foldl (descend true) start =
            front.foldl (descend true) start ++ [last] := by
          rw [List.foldl_concat, descend, if_neg (h.ne_dot last (by simp)), if_neg hlast]
        rw [hundone, hadded, hundone]
  · have hadded : descend false names name = names ++ [name] := by
      rw [descend, if_neg hdot, if_neg hup]
    rw [hadded, List.foldl_concat]

/-- A relative path leads from the top where it leads after it was cleaned. -/
theorem foldl_descend_cleanSegments {path : Text} (hrelative : isAbsolute path = false)
    (start : List Text) :
    (cleanSegments path).foldl (descend true) start =
      (segments path).foldl (descend true) start := by
  have hfold : ∀ (more done : List Text), IsClean false done →
      (more.foldl (descend false) done).foldl (descend true) start =
        more.foldl (descend true) (done.foldl (descend true) start) := by
    intro more
    induction more with
    | nil => intro done _; rfl
    | cons n more ih =>
        intro done hdone
        rw [List.foldl_cons, ih _ (hdone.descend n), foldl_descend_descend hdone, List.foldl_cons]
  rw [cleanSegments, hrelative]
  exact hfold _ [] (.nil false)

theorem clean_congr {a b : Text} (habsolute : isAbsolute a = isAbsolute b)
    (hsegments : cleanSegments a = cleanSegments b) : clean a = clean b := by
  rw [clean, clean, habsolute, hsegments]

theorem cleanSegments_append (hroot : root ≠ []) (path : Text) :
    cleanSegments (root ++ slash :: path) =
      (segments path).foldl (descend (isAbsolute root)) (cleanSegments root) := by
  rw [cleanSegments, isAbsolute_append hroot, segments_append, List.foldl_append, cleanSegments]

theorem join_eq (hroot : root ≠ []) (path : Text) :
    join root path = clean (root ++ slash :: path) := by
  rw [join, if_neg hroot]
  split
  next hnil =>
    refine clean_congr (isAbsolute_append hroot _).symm ?_
    rw [hnil, cleanSegments_append hroot]
    rfl
  next => rw [List.append_assoc, List.singleton_append]

theorem ne_nil_of_isAbsolute {path : Text} (h : isAbsolute path = true) : path ≠ [] := by
  rintro rfl
  cases h

theorem absolute_eq_clean (htop : isAbsolute top = true) (path : Text) :
    absolute top path = clean (if isAbsolute path then path else top ++ slash :: path) := by
  rw [absolute]
  split
  · rfl
  · exact join_eq (ne_nil_of_isAbsolute htop) path

theorem cleanSegments_absolute (htop : isAbsolute top = true) (path : Text) :
    cleanSegments (absolute top path) =
      if isAbsolute path then cleanSegments path
      else (segments path).foldl (descend true) (cleanSegments top) := by
  rw [absolute_eq_clean htop, cleanSegments_clean]
  split
  · rfl
  · rw [cleanSegments_append (ne_nil_of_isAbsolute htop), htop]

theorem absolute_eq (htop : isAbsolute top = true) (path : Text) :
    absolute top path = slash :: ofSegments (cleanSegments (absolute top path)) := by
  have habsolute : isAbsolute (if isAbsolute path then path else top ++ slash :: path) = true := by
    split
    next hpath => exact hpath
    next => rw [isAbsolute_append (ne_nil_of_isAbsolute htop), htop]
  rw [absolute_eq_clean htop, cleanSegments_clean, clean, if_pos habsolute]

theorem absolute_clean (htop : isAbsolute top = true) (path : Text) :
    absolute top (clean path) = absolute top path := by
  rw [absolute_eq htop, absolute_eq htop path, cleanSegments_absolute htop,
    cleanSegments_absolute htop, isAbsolute_clean]
  cases hpath : isAbsolute path with
  | true => simp only [if_true, cleanSegments_clean]
  | false =>
      rw [if_neg Bool.false_ne_true, if_neg Bool.false_ne_true,
        ← foldl_descend_cleanSegments hpath]
      by_cases hnil : cleanSegments path = []
      · rw [clean, hnil, hpath]
        rfl
      · rw [segments_clean hnil]

theorem absolute_join (htop : isAbsolute top = true) (root : Text)
    (hnames : ∀ n ∈ names, IsName n) (hne : names ≠ []) :
    absolute top (join root (ofSegments names)) = join (absolute top root) (ofSegments names) := by
  have hmore : ∀ n ∈ names, n ≠ dot ∧ n ≠ dotDot := fun n hn =>
    ⟨(hnames n hn).ne_dot, (hnames n hn).ne_dotDot⟩
  have hlead : lead (absolute top root) = [slash] := by
    rw [absolute_eq htop]
    rfl
  have hsegments : cleanSegments (absolute top (join root (ofSegments names))) =
      cleanSegments (absolute top root) ++ names := by
    rw [cleanSegments_absolute htop, cleanSegments_absolute htop, isAbsolute_join root hnames hne]
    cases hroot : isAbsolute root with
    | true => exact cleanSegments_join root hnames hne
    | false =>
        rw [if_neg Bool.false_ne_true, if_neg Bool.false_ne_true, segments_join root hnames hne,
          List.foldl_append, foldl_descend_cleanSegments hroot, foldl_descend_of_name _ hmore]
  rw [absolute_eq htop, hsegments, join_ofSegments _ hnames hne, hlead]
  rfl

/-! ## The root itself -/

theorem clean_clean (path : Text) : clean (clean path) = clean path :=
  clean_congr (isAbsolute_clean path) (cleanSegments_clean path)

theorem join_dot (root : Text) : join root dot = clean root := by
  by_cases hroot : root = []
  · rw [hroot]
    rfl
  · rw [join_eq hroot]
    refine clean_congr (isAbsolute_append hroot _) ?_
    rw [cleanSegments_append hroot]
    rfl

theorem relative?_dot (root : Text) : relative? root (join root dot) = some dot := by
  rw [join_dot, relative?, if_pos (clean_clean root).symm]

theorem segments_ne_nil {path : Text} {c : UInt8} (hc : c ∈ path) (hslash : c ≠ slash) :
    segments path ≠ [] := by
  induction path with
  | nil => cases hc
  | cons d path ih =>
      rw [segments, Text.split]
      by_cases hd : d = slash
      · rw [if_pos hd]
        rcases List.mem_cons.mp hc with rfl | hc
        · exact absurd hd hslash
        · exact ih hc
      · rw [if_neg hd]
        cases Text.split slash path <;> simp

theorem suffix_ofSegments (parents : List Text) (name : Text) :
    name <:+ ofSegments (parents ++ [name]) := by
  by_cases hparents : parents = []
  · rw [hparents]
    exact List.suffix_refl name
  · rw [ofSegments_append hparents (by simp)]
    exact (List.suffix_cons slash name).trans (List.suffix_append _ _)

end Path

namespace FileSystem

/-- Above a directory there are directories. -/
theorem isDir_dropLast {root : FileEntry} {place : List Text} {entries : Directory}
    (h : root.at? place = some (.dir entries)) :
    ∃ above, root.at? place.dropLast = some (.dir above) := by
  rcases List.eq_nil_or_concat place with rfl | ⟨front, name, rfl⟩
  · exact ⟨entries, h⟩
  · rw [List.concat_eq_append, FileEntry.at?_append] at h
    obtain ⟨e, hat, hname⟩ := Option.bind_eq_some_iff.mp h
    obtain ⟨above, -, rfl, -⟩ := FileEntry.exists_of_at?_cons hname
    exact ⟨above, by rwa [List.concat_eq_append, List.dropLast_concat]⟩

/-- A path that leads to something else than a directory ends with a name. -/
theorem ne_dot_of_follow {root e : FileEntry} {ending : Ending} {links : Nat}
    {here todo place : List Text} (h : follow root ending links here todo = .ok place)
    (hat : root.at? place = some e) (hleaf : e.isDir = false) :
    ∀ last ∈ todo.getLast?, last ≠ Path.dot ∧ last ≠ Path.dotDot := by
  have hcons : ∀ {name : Text} {rest : List Text}, rest ≠ [] →
      (name :: rest).getLast? = rest.getLast? := by
    intro name rest hne
    rw [List.getLast?_cons, List.getLast?_eq_some_getLast hne]
    rfl
  have hnamed : ∀ {name : Text} {rest : List Text}, name ≠ Path.dot → name ≠ Path.dotDot →
      (rest ≠ [] → ∀ last ∈ rest.getLast?, last ≠ Path.dot ∧ last ≠ Path.dotDot) →
      ∀ last ∈ (name :: rest).getLast?, last ≠ Path.dot ∧ last ≠ Path.dotDot := by
    intro name rest hdot hdotDot hlast
    by_cases hrest : rest = []
    · rw [hrest]
      simpa using ⟨hdot, hdotDot⟩
    · rw [hcons hrest]
      exact hlast hrest
  have hdirectory : ∀ entries, root.at? place ≠ some (.dir entries) := by
    intro entries hdir
    rw [hat] at hdir
    cases hdir
    cases hleaf
  -- The segments `.` and `..` at the end lead to a directory; the cases left out end with an
  -- error.
  induction links, here, todo using follow.induct root ending with
  | case1 links here => simp
  | case3 links here rest entries hdir ih =>
      simp only [follow, hdir, if_true] at h
      by_cases hrest : rest = []
      · rw [hrest, follow] at h
        cases h
        exact absurd hdir (hdirectory entries)
      · rw [hcons hrest]
        exact ih h
  | case4 links here rest entries hdir hne ih =>
      simp only [follow, hdir, if_neg hne, if_true] at h
      by_cases hrest : rest = []
      · rw [hrest, follow] at h
        cases h
        obtain ⟨above, habove⟩ := isDir_dropLast hdir
        exact absurd habove (hdirectory above)
      · rw [hcons hrest]
        exact ih h
  | case6 links here name rest entries hdir hdot hdotDot hlength hget hlast =>
      exact hnamed hdot hdotDot fun hne => by simp_all
  | case8 links here name rest entries hdir hdot hdotDot hlength target hget hlast =>
      exact hnamed hdot hdotDot fun hne => by simp_all
  | case7 links here name rest entries hdir hdot hdotDot hlength hget hlast =>
      simp only [follow, hdir, if_neg hdot, if_neg hdotDot, if_neg hlength, hget,
        if_neg hlast] at h
      cases h
  | case9 here name rest entries hdir hdot hdotDot hlength target hget hlast =>
      simp only [follow, hdir, if_neg hdot, if_neg hdotDot, if_neg hlength, hget,
        if_neg hlast] at h
      cases h
  | case10 here name rest entries hdir hdot hdotDot hlength target hget hlast links ih =>
      simp only [follow, hdir, if_neg hdot, if_neg hdotDot, if_neg hlength, hget,
        if_neg hlast] at h
      refine hnamed hdot hdotDot fun hne => ?_
      have htarget := ih h
      rwa [List.getLast?_append_of_ne_nil _ hne] at htarget
  | case11 links here name rest entries hdir hdot hdotDot hlength entry hlink hget ih =>
      rw [follow, hdir] at h
      simp only [if_neg hdot, if_neg hdotDot, if_neg hlength, hget] at h
      exact hnamed hdot hdotDot fun _ => ih h
  | _ => simp_all [follow]

theorem follow_of_locate {fs : FileSystem} {ending : Ending} {path : Text} {place : List Text}
    {e : FileEntry} (h : fs.locate ending path = .ok (place, e)) :
    follow fs.root ending linkLimit (fs.start path) (steps path) = .ok place := by
  rw [locate, (ok_of_locate h).1] at h
  cases hfollow : follow fs.root ending linkLimit (fs.start path) (steps path) with
  | error err => rw [hfollow] at h; cases h
  | ok found =>
      simp only [hfollow, bind, Except.bind] at h
      split at h
      · cases h
        rfl
      · cases h

/-- The last segment of a path that leads to something else than a directory. -/
theorem exists_segments_of_entry {fs : FileSystem} {path : Text} {e : FileEntry}
    (h : fs.entry path = .ok e) (hleaf : e.isDir = false) :
    ∃ front name, Path.segments path = front ++ [name] ∧ name ≠ Path.dot ∧ name ≠ Path.dotDot := by
  obtain ⟨place, hlocate⟩ := Config.exists_locate_of_entry h
  obtain ⟨hcheck, hat⟩ := ok_of_locate hlocate
  have hends := ne_dot_of_follow (follow_of_locate hlocate) hat hleaf
  have hne : path ≠ [] := by
    rintro rfl
    cases hcheck
  -- A slash at the end would ask for a directory.
  have hslash : path.getLast? ≠ some Path.slash := by
    intro hslash
    rw [steps, if_pos hslash, List.getLast?_concat] at hends
    exact (hends Path.dot rfl).1 rfl
  rw [steps, if_neg hslash, List.append_nil] at hends
  have hsegments : Path.segments path ≠ [] := by
    rw [List.getLast?_eq_some_getLast hne] at hslash
    exact Path.segments_ne_nil (List.getLast_mem hne) fun heq => hslash (by rw [heq])
  rcases List.eq_nil_or_concat (Path.segments path) with hnil | ⟨front, name, hname⟩
  · exact absurd hnil hsegments
  · rw [List.concat_eq_append] at hname
    rw [hname, List.getLast?_concat] at hends
    exact ⟨front, name, hname, hends name rfl⟩

theorem exists_at?_of_list {fs : FileSystem} {path : Text} {entries : Directory}
    (h : fs.list path = .ok entries) : ∃ place, fs.root.at? place = some (.dir entries) := by
  rw [list] at h
  split at h
  · next place listed hlocate =>
      cases h
      exact ⟨place, (ok_of_locate hlocate).2⟩
  · cases h
  · cases h

theorem pathExists_of_read {fs : FileSystem} {path content : Text}
    (h : fs.read path = .ok content) : fs.pathExists path = true := by
  rw [pathExists, destination_of_read h]
  rfl

end FileSystem

namespace Config

variable {c : Config} {fs : FileSystem} {path : Text}

theorem isScript_of_suffix {name : Text} (hname : name <:+ path) (h : c.isScript name = true) :
    c.isScript path = true := by
  rw [isScript, List.any_eq_true] at h ⊢
  obtain ⟨ending, hmem, hending⟩ := h
  exact ⟨ending, hmem, Text.endsWith_iff.mpr ((Text.endsWith_iff.mp hending).trans hname)⟩

/-! ## What the search hands out -/

/-- What a script is called that was found: by the names that lead to it from the root,
through directories that are not passed over, or as the root itself. -/
inductive Calls (c : Config) : Text → Prop where
  | below (dirs : List Text) (name : Text) (names : ∀ n ∈ dirs ++ [name], Path.IsName n)
      (entered : ∀ d ∈ dirs, c.skips d = false) (script : c.isScript name = true) :
      Calls c (Path.ofSegments (dirs ++ [name]))
  | root (front : List Text) (name : Text) (last : Path.cleanSegments c.root = front ++ [name])
      (script : c.isScript name = true) : Calls c Path.dot

theorem calls_of_mem_scriptsIn {name : Text} {entry : FileEntry} (hname : Path.IsName name)
    (hproper : entry.Proper) (h : path ∈ c.scriptsIn name entry) : c.Calls path := by
  rcases finds_of_mem_scriptsIn entry hproper h with
    ⟨-, hscript, rfl⟩ | ⟨hskips, dirs, n, hfinds, rfl⟩
  · exact .below [] path (by simpa using hname) (by simp) hscript
  · obtain ⟨e, hat, -⟩ := hfinds.entry
    refine .below (name :: dirs) n (fun m hm => ?_) (fun d hd => ?_) hfinds.script
    · rcases List.mem_cons.mp hm with rfl | hm
      · exact hname
      · exact ((hproper.at? hat).1 m hm).1
    · rcases List.mem_cons.mp hd with rfl | hd
      · exact hskips
      · exact hfinds.entered d hd

/-- A directory of the root is looked at by its cleaned path, wherever that leads. -/
theorem calls_of_mem_scriptsAt (hroot : fs.root.Proper) {name : Text} {entry : FileEntry}
    (hname : Path.IsName name) (hproper : entry.Proper) {paths : List Text}
    (hpaths : c.scriptsAt fs name entry = .ok paths) (h : path ∈ paths) : c.Calls path := by
  cases entry with
  | file | link =>
      cases hpaths
      exact calls_of_mem_scriptsIn hname hproper h
  | dir entries =>
      rw [scriptsAt] at hpaths
      split at hpaths
      · cases hpaths
        cases h
      · cases hlist : fs.list (Path.join c.root name) with
        | error fault => rw [hlist] at hpaths; cases hpaths
        | ok listed =>
            rw [hlist] at hpaths
            cases hpaths
            obtain ⟨place, hat⟩ := FileSystem.exists_at?_of_list hlist
            exact calls_of_mem_scriptsIn hname (hroot.at? hat).2 h

/-- What the search hands out for a root that is no directory. -/
theorem calls_dot {top : FileEntry} (hentry : fs.entry c.root = .ok top)
    (hleaf : top.isDir = false) (hscript : c.isScript (Path.base c.root) = true) :
    c.Calls Path.dot := by
  obtain ⟨front, name, hsegments, hdot, hdotDot⟩ :=
    FileSystem.exists_segments_of_entry hentry hleaf
  have hne : c.root ≠ [] := by
    intro hnil
    rw [hnil] at hsegments
    simp [Path.segments, Text.split] at hsegments
  have hlast : Path.cleanSegments c.root =
      front.foldl (Path.descend (Path.isAbsolute c.root)) [] ++ [name] := by
    rw [Path.cleanSegments, hsegments, List.foldl_concat, Path.descend, if_neg hdot,
      if_neg hdotDot]
  rw [Path.base, if_neg hne, hsegments, List.getLast?_concat] at hscript
  exact .root _ name hlast hscript

theorem calls_of_mem_discover (hproper : fs.root.Proper) {paths : List Text}
    (hpaths : c.discover fs = .ok paths) (h : path ∈ paths) : c.Calls path := by
  cases hentry : fs.entry c.root with
  | error fault =>
      rw [discover, hentry] at hpaths
      cases hpaths
  | ok top =>
      cases top with
      | file | link =>
          rw [discover, hentry] at hpaths
          cases hpaths
          split at h
          next hscript =>
            rw [List.mem_singleton.mp h]
            exact calls_dot hentry rfl hscript
          next => cases h
      | dir entries =>
          obtain ⟨place, hlocate⟩ := exists_locate_of_entry hentry
          have hentries : entries.Proper := (hproper.at? (FileSystem.ok_of_locate hlocate).2).2
          rw [discover_of_dir hentry] at hpaths
          cases hfound : (entries.toList.mergeSort fun a b => !b.1.before a.1).mapM
              fun x => c.scriptsAt fs x.1 x.2 with
          | error fault => simp only [hfound] at hpaths; cases hpaths
          | ok found =>
              simp only [hfound] at hpaths
              cases hpaths
              rw [List.mem_mergeSort] at h
              obtain ⟨some, hsome, hpath⟩ := List.mem_flatten.mp h
              obtain ⟨x, hx, hat⟩ := exists_of_mem_of_forall₂ (forall₂_of_mapM_eq_ok hfound) hsome
              have hget := (hentries.mem_toList_iff x.1 x.2).mp (List.mem_mergeSort.mp hx)
              obtain ⟨⟨hname, -⟩, hentry⟩ := hentries.of_get? hget
              exact calls_of_mem_scriptsAt hproper hname hentry hat hpath

/-! ## How it is seen -/

theorem Calls.isScript_join (h : c.Calls path) : c.isScript (Path.join c.root path) = true := by
  cases h with
  | below dirs name names entered script =>
      rw [Path.join_ofSegments c.root names (by simp), ← List.append_assoc]
      exact isScript_of_suffix
        ((Path.suffix_ofSegments _ name).trans (List.suffix_append _ _)) script
  | root front name last script =>
      rw [Path.join_dot, Path.clean_eq (by simp [last]), last]
      exact isScript_of_suffix
        ((Path.suffix_ofSegments front name).trans (List.suffix_append _ _)) script

theorem Calls.relative? (h : c.Calls path) :
    Path.relative? c.root (Path.join c.root path) = some path := by
  cases h with
  | below dirs name names => exact Path.relative?_join c.root names (by simp)
  | root => exact Path.relative?_dot c.root

theorem Calls.relative?_absolute (h : c.Calls path) {top : Text}
    (htop : Path.isAbsolute top = true) :
    Path.relative? (Path.absolute top c.root) (Path.absolute top (Path.join c.root path)) =
      some path := by
  cases h with
  | below dirs name names =>
      rw [Path.absolute_join htop c.root names (by simp)]
      exact Path.relative?_join _ names (by simp)
  | root =>
      rw [Path.join_dot, Path.absolute_clean htop, Path.relative?, if_pos rfl]

/-- The commands and the watcher take the file for the script `path`: arguments name the
script, and a change of the file is a change of the script. -/
structure Admits (c : Config) (s : Command.Setting) (path : Text) : Prop where
  named : s.files.pathExists (Path.join c.root path) = true →
    Command.scriptPath s.files c (Path.join c.root path) = .ok path
  opened : ∀ e, Command.environment s c = .ok e →
    ∃ id, Command.withScript s c (Path.join c.root path) = .ok (e, id) ∧
      Script.load s.files c.root path = .ok (e.script id)
  printed : ∀ source, s.files.read (Path.join c.root path) = .ok source →
    ∃ outcome, Command.tree s c (Path.join c.root path) = .ok outcome ∧
      outcome.out = (Script.parse path (Package.ofPath path) source).tree.print
  followed : ∀ (e : Environment) (change : Change) (source : Text), e.Reachable →
    change.path = Path.join c.root path → change.has .write = true →
    s.files.read (Path.join c.root path) = .ok source →
    (e.follow c s.files change).2 = [.replaced path] ∧
      ∃ id, (e.follow c s.files change).1.unit? path = some id ∧
        (e.follow c s.files change).1.script id =
          Script.parse path (Package.ofPath path) source

/-- The script `path` is loaded, but the file is refused as an argument, and its changes
are passed over. -/
structure Disowns (c : Config) (s : Command.Setting) (path : Text) : Prop where
  refused : s.files.pathExists (Path.join c.root path) = true →
    Command.scriptPath s.files c (Path.join c.root path) =
      .error (.outside (Path.join c.root path) c.root)
  loaded : ∀ e, Command.environment s c = .ok e →
    (∃ id, e.unit? path = some id ∧ Script.load s.files c.root path = .ok (e.script id)) ∧
      Command.withScript s c (Path.join c.root path) =
        .error (.outside (Path.join c.root path) c.root)
  ignored : ∀ (e : Environment) (change : Change), change.path = Path.join c.root path →
    e.follow c s.files change = (e, [])

theorem Calls.scriptPath_join (h : c.Calls path)
    (hexists : fs.pathExists (Path.join c.root path) = true) :
    Command.scriptPath fs c (Path.join c.root path) =
      if path.startsWith Path.dotDot then .error (.outside (Path.join c.root path) c.root)
      else .ok path := by
  have htop : Path.isAbsolute fs.workingDirectory = true := rfl
  rw [Command.scriptPath, if_pos hexists]
  simp only [h.relative?_absolute htop, Option.filter_some]
  cases path.startsWith Path.dotDot <;> rfl

theorem Calls.inside?_join (h : c.Calls path) :
    c.inside? (Path.join c.root path) =
      if path.startsWith Path.dotDot then none else some path :=
  inside?_of_relative? h.relative?

/-- What the commands load are the scripts that were found, read one after the other. -/
theorem exists_batch_of_environment {s : Command.Setting} {e : Environment}
    (he : Command.environment s c = .ok e) :
    ∃ paths batch, c.discover s.files = .ok paths ∧
      paths.mapM (Script.load s.files c.root) = .ok batch ∧
      e = ({ root := c.root } : Environment).withBatch batch := by
  rw [Command.environment] at he
  cases hpaths : c.discover s.files with
  | error err =>
      rw [Environment.load_of_discover_error hpaths] at he
      cases he
  | ok paths =>
      rw [Environment.load_of_discover hpaths] at he
      split at he
      · cases he
      · cases hbatch : paths.mapM (Script.load s.files c.root) with
        | error err => rw [hbatch] at he; cases he
        | ok batch =>
            rw [hbatch] at he
            cases he
            exact ⟨paths, batch, rfl, hbatch, rfl⟩

/-- They include every script that was found, as it is in its file. -/
theorem exists_unit?_of_environment {s : Command.Setting} {e : Environment} {paths : List Text}
    (hpaths : c.discover s.files = .ok paths) (hpath : path ∈ paths)
    (he : Command.environment s c = .ok e) :
    s.files.pathExists (Path.join c.root path) = true ∧
      ∃ id, e.unit? path = some id ∧ Script.load s.files c.root path = .ok (e.script id) := by
  obtain ⟨found, batch, hfound, hbatch, rfl⟩ := exists_batch_of_environment he
  cases hpaths.symm.trans hfound
  have hloads := forall₂_of_mapM_eq_ok hbatch
  obtain ⟨script, hscript, hload⟩ := exists_of_mem_of_forall₂ hloads.flip hpath
  obtain ⟨source, hread, -⟩ := Environment.exists_of_load hload
  obtain ⟨id, hunit, hid, hsame⟩ := Environment.exists_unit?_withBatch _ hscript
  obtain ⟨path', -, hload'⟩ := exists_of_mem_of_forall₂ hloads hid
  rw [Environment.path_load hload', Environment.path_load hload] at hsame
  rw [Environment.path_load hload] at hunit
  exact ⟨FileSystem.pathExists_of_read hread, id, hunit, hsame ▸ hload'⟩

theorem withScript_of_scriptPath {s : Command.Setting} {e : Environment} {argument : Text}
    {id : ScriptId} (harg : Command.scriptPath s.files c argument = .ok path)
    (he : Command.environment s c = .ok e) (hid : e.unit? path = some id) :
    Command.withScript s c argument = .ok (e, id) := by
  rw [Command.withScript, harg, he]
  simp only [bind, Except.bind, hid]
  rfl

theorem withScript_of_scriptPath_error {s : Command.Setting} {err : CommandError}
    {argument : Text} (harg : Command.scriptPath s.files c argument = .error err) :
    Command.withScript s c argument = .error err := by
  rw [Command.withScript, harg]
  rfl

theorem Calls.follow_written (h : c.Calls path) {e : Environment} {change : Change} {source : Text}
    (hinside : path.startsWith Path.dotDot = false) (hchange : change.path = Path.join c.root path)
    (hwrite : change.has .write = true) (hread : fs.read (Path.join c.root path) = .ok source) :
    e.follow c fs change = e.reload c fs path := by
  have happears : change.appears = true := by rw [Change.appears, hwrite, Bool.or_true]
  rw [Environment.follow, hchange, h.inside?_join, hinside]
  simp only [Bool.false_eq_true, if_false, happears, if_true,
    FileSystem.destination_of_read hread, h.isScript_join]

theorem Calls.admits {s : Command.Setting} {paths : List Text} (h : c.Calls path)
    (hpaths : c.discover s.files = .ok paths) (hpath : path ∈ paths)
    (hinside : path.startsWith Path.dotDot = false) : c.Admits s path where
  named hexists := by
    rw [h.scriptPath_join hexists, hinside]
    rfl
  opened e he := by
    obtain ⟨hexists, id, hunit, hload⟩ := exists_unit?_of_environment hpaths hpath he
    refine ⟨id, withScript_of_scriptPath ?_ he hunit, hload⟩
    rw [h.scriptPath_join hexists, hinside]
    rfl
  printed source hread := by
    rw [Command.tree, h.scriptPath_join (FileSystem.pathExists_of_read hread), hinside]
    simp only [Bool.false_eq_true, if_false, bind, Except.bind, Environment.load_of_read hread]
    exact ⟨_, rfl, rfl⟩
  followed e change source hreachable hchange hwrite hread := by
    have hload := Environment.load_of_read hread
    rw [h.follow_written hinside hchange hwrite hread]
    refine ⟨?_, (hreachable.placed.reload hload).1⟩
    rw [Environment.reload, hload]

theorem Calls.disowns {s : Command.Setting} {paths : List Text} (h : c.Calls path)
    (hpaths : c.discover s.files = .ok paths) (hpath : path ∈ paths)
    (houtside : path.startsWith Path.dotDot = true) : c.Disowns s path where
  refused hexists := by
    rw [h.scriptPath_join hexists, houtside]
    rfl
  loaded e he := by
    obtain ⟨hexists, hunit⟩ := exists_unit?_of_environment hpaths hpath he
    refine ⟨hunit, withScript_of_scriptPath_error ?_⟩
    rw [h.scriptPath_join hexists, houtside]
    rfl
  ignored e change hchange := by
    rw [Environment.follow, hchange, h.inside?_join, houtside]
    rfl

/-- A workspace of two scripts, one of them with a name that begins with `..`. -/
def dottedScripts : FileSystem :=
  .ofScripts (.cons (txt "a.zs") (.file (txt "var x = 1;"))
    (.cons (txt "..a.zs") (.file (txt "var x = 1;")) .nil))

theorem proper_dottedScripts : dottedScripts.root.Proper := by decide

/-- Both scripts are found and can be read. -/
theorem discover_dottedScripts :
    ∃ paths, discover {} dottedScripts = .ok paths ∧
      ∀ path ∈ [txt "a.zs", txt "..a.zs"], path ∈ paths ∧
        dottedScripts.pathExists (Path.join (txt "scripts") path) = true := by
  have hrooted : RootedAt {} dottedScripts [txt "scripts"] := rootedAt_ofScripts (by decide)
  have hreadable : Readable {} dottedScripts [txt "scripts"] :=
    readable_ofScripts (by decide) (by decide)
  obtain ⟨paths, hpaths⟩ := hreadable.discover hrooted
  have hperm : paths.Perm [txt "a.zs", txt "..a.zs"] :=
    (discover_perm hrooted rfl hpaths).trans (by decide +kernel)
  refine ⟨paths, hpaths, fun path hpath => ?_⟩
  have hmem := hperm.mem_iff.mpr hpath
  obtain ⟨source, hread⟩ := hreadable.reads path ((mem_discover_iff hrooted hpaths).mp hmem)
  exact ⟨hmem, FileSystem.pathExists_of_read hread⟩

/-- The script `..a.zs` is found in `scripts`; the commands say that it is outside, and the
watcher passes it over. -/
theorem dottedScript_outside :
    (∃ paths, discover {} dottedScripts = .ok paths ∧ txt "..a.zs" ∈ paths) ∧
      Command.scriptPath dottedScripts {} (txt "scripts/..a.zs") =
        .error (.outside (txt "scripts/..a.zs") (txt "scripts")) ∧
      ∀ e : Environment, e.follow {} dottedScripts ⟨txt "scripts/..a.zs", [.write]⟩ = (e, []) := by
  obtain ⟨paths, hpaths, hboth⟩ := discover_dottedScripts
  obtain ⟨hmem, hexists⟩ := hboth (txt "..a.zs") (by decide)
  have hcalls := calls_of_mem_discover proper_dottedScripts hpaths hmem
  have hdisowns : Disowns {} { files := dottedScripts } (txt "..a.zs") :=
    hcalls.disowns hpaths hmem (by decide)
  have hpath : Path.join (txt "scripts") (txt "..a.zs") = txt "scripts/..a.zs" := by decide
  refine ⟨⟨paths, hpaths, hmem⟩, ?_, fun e => hdisowns.ignored e _ hpath.symm⟩
  have hrefused := hdisowns.refused hexists
  rwa [show ({} : Config).root = txt "scripts" from rfl, hpath] at hrefused

end Config

end Zensight
