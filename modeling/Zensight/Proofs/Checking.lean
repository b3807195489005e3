import Zensight.Proofs.Membership
import Zensight.Proofs.Parsing
import Zensight.Proofs.Reports
import Zensight.Proofs.Warnings

/-!
# What checking a workspace prints

The messages about a script come from three sides: reading its text, entering its declarations,
and the checks on its types. Only the first are errors. They are put together twice, and each time
messages that name no file are given one, so in the end all are about the script and none is lost.
Sorted by place and printed script by script they make up all that the command prints, before the
line that counts them.
-/

namespace Zensight

/-! ## Faults of the text -/

/-- The reader has reported errors alone, and named no file. -/
def Reader.Blank (r : Reader) : Prop :=
  r.report.file = [] ∧ ∀ d ∈ r.report.items, d.severity = .error ∧ d.file = []

theorem Read.Run.blank {α : Type} {m : Read α} {r r' : Reader} {moments : List Reader} {a : α}
    (h : Run m r moments a r') : r.Blank → r'.Blank := by
  induction h with
  | pure | get => exact id
  | advance r =>
      intro hr
      rw [Reader.advance]
      split <;> exact hr
  | fail t message hint r =>
      rintro ⟨hfile, hitems⟩
      refine ⟨hfile, ?_⟩
      simp only [Report.addError, Report.add, if_true, List.forall_mem_append]
      exact ⟨hitems, by simp [hfile]⟩
  | bind _ _ ih ih' => exact fun hr => ih' (ih hr)

/-- What reading a text reports are errors that name no file. -/
theorem Text.parse_blank (source : Text) :
    ∀ d ∈ source.parse.2.items, d.severity = .error ∧ d.file = [] := by
  obtain ⟨moments, tree, last, hrun, -⟩ := Text.parse_ends source
  rw [Text.parse_eq hrun.eq_some]
  exact (hrun.blank ⟨rfl, fun d hd => by cases hd⟩).2

/-! ## Putting reports together -/

/-- The message, about a file if it names none. -/
def Diagnostic.about (file : Text) (d : Diagnostic) : Diagnostic :=
  if d.file = [] then { d with file } else d

theorem Diagnostic.about_eq_self {file : Text} {d : Diagnostic} (h : d.file = file) :
    d.about file = d := by
  subst h
  rw [about]
  split <;> rfl

theorem Report.merge_eq (r other : Report) :
    r.merge other = ⟨r.file, r.items ++ other.items.map (·.about r.file)⟩ := by
  rw [merge]
  generalize other.items = ds
  induction ds generalizing r with
  | nil => simp
  | cons d ds ih =>
      rw [List.foldl_cons, ih, add, List.map_cons, Diagnostic.about]
      simp

/-- The report on a script has the faults of its text, then a warning for each declaration that is
repeated. -/
theorem Script.report_parse (path package source : Text) :
    ∃ warnings, (parse path package source).report.items =
        source.parse.2.items.map (fun d => { d with file := path }) ++ warnings ∧
      (∀ w ∈ warnings, w.severity = .warning ∧ w.file = path) ∧
      (warnings.map (·.message)).Perm
        ((parse path package source).bindings.repeated.map Declaration.notice) := by
  have hfaults : (({ file := path } : Report).merge source.parse.2).items =
      source.parse.2.items.map fun d => { d with file := path } := by
    rw [Report.merge_eq, List.nil_append]
    refine List.map_congr_left fun d hd => ?_
    rw [Diagnostic.about, if_pos (source.parse_blank d hd).2]
  obtain ⟨-, -, warnings, hitems, hwarnings, hmessages⟩ := Bindings.ofTree_warned source.parse.1
    package (({ file := path } : Report).merge source.parse.2)
  rw [hfaults] at hitems
  rw [Report.merge_eq] at hwarnings
  exact ⟨warnings, hitems, hwarnings, hmessages⟩

/-! ## Printing -/

namespace Command

theorem lines_append (ts us : List Text) : lines (ts ++ us) = lines ts ++ lines us :=
  List.flatMap_append

theorem renderWithHint_ne_nil (d : Diagnostic) : d.renderWithHint ≠ [] := by
  rw [Diagnostic.renderWithHint, Diagnostic.render]
  split <;> simp [txt]

/-- A text that is not empty takes the lines of its pieces. -/
theorem lines_join {ts : List Text} (h : ∀ t ∈ ts, t ≠ []) :
    lines ([Text.join (txt "\n") ts].filter (· ≠ [])) = lines ts := by
  have hjoin : ∀ t ts, Text.join (txt "\n") (t :: ts) ++ txt "\n" = lines (t :: ts) := by
    intro t ts
    induction ts generalizing t with
    | nil => simp [Text.join, lines]
    | cons u ts ih =>
        have hstep : Text.join (txt "\n") (t :: u :: ts) =
            t ++ (txt "\n" ++ Text.join (txt "\n") (u :: ts)) := rfl
        rw [hstep, List.append_assoc, List.append_assoc, ih]
        simp [lines]
  cases ts with
  | nil => rfl
  | cons t ts =>
      have hne : Text.join (txt "\n") (t :: ts) ≠ [] := by
        have ht := h t List.mem_cons_self
        cases ts <;> simp [Text.join, ht]
      rw [List.filter_cons, if_pos (by simpa using hne), ← hjoin t ts]
      exact List.append_nil _

/-- Printed report by report, the messages stand on lines of their own. -/
theorem lines_reports (rs : List Report) :
    lines ((rs.map (·.render)).filter (· ≠ [])) =
      lines ((rs.flatMap (·.items)).map Diagnostic.renderWithHint) := by
  induction rs with
  | nil => rfl
  | cons r rs ih =>
      have hnonempty : ∀ t ∈ r.items.map Diagnostic.renderWithHint, t ≠ [] := by
        simp [renderWithHint_ne_nil]
      rw [List.map_cons, ← List.singleton_append, List.filter_append, lines_append, ih,
        Report.render, lines_join hnonempty, List.flatMap_cons, List.map_append, lines_append]

theorem foldl_length {α β : Type} (f : α → List β) (l : List α) (n : Nat) :
    l.foldl (fun n a => n + (f a).length) n = n + (l.flatMap f).length := by
  induction l generalizing n with
  | nil => rfl
  | cons a l ih => rw [List.foldl_cons, ih, List.flatMap_cons, List.length_append, Nat.add_assoc]

/-! ## The command -/

variable {s : Setting} {c : Config} {e : Environment}

/-- What is loaded comes from the files of the workspace. -/
theorem exists_source (he : environment s c = .ok e) :
    e.Reachable ∧ ∀ id ∈ e.order, ∃ source,
      s.files.read (Path.join c.root (e.script id).path) = .ok source ∧
      e.script id =
        Script.parse (e.script id).path (Package.ofPath (e.script id).path) source := by
  obtain ⟨paths, batch, -, hbatch, rfl⟩ := Config.exists_batch_of_environment he
  have hloads := forall₂_of_mapM_eq_ok hbatch
  have hsource : ∀ script ∈ batch, ∃ source,
      s.files.read (Path.join c.root script.path) = .ok source ∧
      script = Script.parse script.path (Package.ofPath script.path) source := by
    intro script hscript
    obtain ⟨path, -, hload⟩ := exists_of_mem_of_forall₂ hloads hscript
    obtain rfl := Environment.path_load hload
    exact Environment.exists_of_load hload
  have hreachable : (({ root := c.root } : Environment).withBatch batch).Reachable :=
    (Environment.Reachable.new c.root).withBatch fun script hscript =>
      have ⟨source, _, heq⟩ := hsource script hscript
      ⟨_, _, source, heq⟩
  refine ⟨hreachable, fun id hid => hsource _ ?_⟩
  obtain ⟨path, hunit⟩ := (hreachable.indexed.listed id).mp hid
  have hnone : ({ root := c.root } : Environment).unit? path = none := rfl
  rw [Environment.unit?_withBatch, hnone, Option.or_none] at hunit
  rw [Environment.mem_batch_iff { root := c.root }]
  exact ⟨id, List.mem_reverse.mp (List.mem_of_find?_eq_some hunit), rfl⟩

/-- The messages about a script are those of its report and of the checks, by place. -/
theorem byPlace_messages (id : ScriptId) {path package source : Text}
    (hs : e.script id = Script.parse path package source) :
    ByPlace ((e.script id).report.items ++ (e.lint id).items) (messages e id).items := by
  have hreport : ∀ d ∈ (e.script id).report.items, d.file = (e.script id).path := by
    rw [hs]
    obtain ⟨warnings, hitems, hwarnings, -⟩ := Script.report_parse path package source
    rw [hitems, List.forall_mem_append]
    refine ⟨fun d hd => ?_, fun d hd => (hwarnings d hd).2⟩
    obtain ⟨fault, -, rfl⟩ := List.mem_map.mp hd
    rfl
  have hself {ds : List Diagnostic} (h : ∀ d ∈ ds, d.file = (e.script id).path) :
      ds.map (·.about (e.script id).path) = ds :=
    (List.map_congr_left fun d hd => Diagnostic.about_eq_self (h d hd)).trans (List.map_id _)
  have hlint : ∀ d ∈ (e.lint id).items, d.file = (e.script id).path :=
    fun d hd => (e.of_mem_lint id hd).2
  rw [messages, Report.merge_eq, Report.merge_eq, List.nil_append, hself hreport, hself hlint]
  exact Report.byPlace_sort (r := ⟨_, _⟩) (e.script id).path
    (List.forall_mem_append.mpr ⟨hreport, hlint⟩)

/-- Only the faults of its text are errors. -/
theorem exists_error_iff (id : ScriptId) {path package source : Text}
    (hs : e.script id = Script.parse path package source) :
    (∃ d ∈ (messages e id).items, d.severity = .error) ↔ source.parse.2.hasErrors = true := by
  obtain ⟨warnings, hitems, hwarnings, -⟩ := Script.report_parse path package source
  have hmem (d : Diagnostic) := (byPlace_messages id hs).perm.mem_iff (a := d)
  rw [hs, hitems] at hmem
  have herrors : source.parse.2.hasErrors = true ↔
      ∃ d ∈ source.parse.2.items, d.severity = .error := by
    simp [Report.hasErrors, Report.errors, Report.ofSeverity, List.filter_eq_nil_iff]
  rw [herrors]
  constructor
  · rintro ⟨d, hd, herror⟩
    rcases List.mem_append.mp ((hmem d).mp hd) with hd | hd
    · rcases List.mem_append.mp hd with hd | hd
      · obtain ⟨fault, hfault, rfl⟩ := List.mem_map.mp hd
        exact ⟨fault, hfault, herror⟩
      · cases herror.symm.trans (hwarnings d hd).1
    · cases herror.symm.trans (e.of_mem_lint id hd).1
  · rintro ⟨fault, hfault, herror⟩
    refine ⟨{ fault with file := path }, (hmem _).mpr ?_, herror⟩
    exact List.mem_append_left _ (List.mem_append_left _ (List.mem_map_of_mem hfault))

/-- All messages, script by script. -/
def allMessages (e : Environment) : List Diagnostic :=
  e.order.flatMap fun id => (messages e id).items

/-- The line that counts the scripts and the messages about them. -/
def summary (e : Environment) : Text :=
  Text.ofNat e.order.length ++ txt " scripts, "
    ++ Text.ofNat ((allMessages e).filter (·.severity = .error)).length ++ txt " errors, "
    ++ Text.ofNat ((allMessages e).filter (·.severity = .warning)).length ++ txt " warnings"

theorem check_eq (he : environment s c = .ok e) : check s c = .ok {
    out := lines ((allMessages e).map Diagnostic.renderWithHint ++ [summary e])
    error? := if ∃ d ∈ allMessages e, d.severity = .error then some .checkFailed else none } := by
  have hcount (severity : Severity) : ((e.order.map (messages e)).foldl
      (fun n r => n + (r.ofSeverity severity).length) 0) =
        ((allMessages e).filter (·.severity = severity)).length := by
    rw [foldl_length, Nat.zero_add, List.flatMap_map, allMessages, List.filter_flatMap]
    rfl
  have herrors := hcount .error
  have hwarnings := hcount .warning
  rw [check, he]
  simp only [bind, Except.bind, Report.errors, Report.warnings, herrors, hwarnings, List.length_map]
  rw [lines_append, lines_reports, List.flatMap_map, ← lines_append]
  have hpositive : 0 < ((allMessages e).filter (·.severity = .error)).length ↔
      ∃ d ∈ allMessages e, d.severity = .error := by
    simp [List.length_pos_iff, List.filter_eq_nil_iff]
  simp only [hpositive]
  rfl

/-- Checking a workspace that can be loaded prints each message once. The scripts come in the order
of their paths. What is said about one of them are the faults of its text, then the warnings about
its declarations, then the findings, put in the order of their places. The last line has the numbers
of scripts, errors and warnings. The command fails if and only if some text has a fault that is an
error; warnings and findings are none. -/
theorem check_prints_once (he : environment s c = .ok e) :
    (∀ id, id ∈ e.order ↔ ∃ path, e.unit? path = some id) ∧
    (e.order.Pairwise fun a b => (e.script a).path < (e.script b).path) ∧
    (∀ id ∈ e.order, ∃ source warnings,
      s.files.read (Path.join c.root (e.script id).path) = .ok source ∧
      (e.script id).report.items =
        source.parse.2.items.map (fun d => { d with file := (e.script id).path }) ++ warnings ∧
      (∀ d ∈ warnings ++ (e.lint id).items, d.severity = .warning) ∧
      ByPlace ((e.script id).report.items ++ (e.lint id).items) (messages e id).items) ∧
    ∃ o, check s c = .ok o ∧
      o.out = lines ((allMessages e).map Diagnostic.renderWithHint ++ [summary e]) ∧
      (o.error? = none ∨ o.error? = some .checkFailed) ∧
      (o.error? = some .checkFailed ↔ ∃ id ∈ e.order, ∃ source,
        s.files.read (Path.join c.root (e.script id).path) = .ok source ∧
        source.parse.2.hasErrors = true) := by
  obtain ⟨hreachable, hsources⟩ := exists_source he
  refine ⟨hreachable.indexed.listed, hreachable.indexed.ordered, fun id hid => ?_,
    _, check_eq he, rfl, ?_, ?_⟩
  · obtain ⟨source, hread, hs⟩ := hsources id hid
    obtain ⟨warnings, hitems, hwarnings, -⟩ := Script.report_parse (e.script id).path
      (Package.ofPath (e.script id).path) source
    rw [← hs] at hitems
    refine ⟨source, warnings, hread, hitems, ?_, byPlace_messages id hs⟩
    rw [List.forall_mem_append]
    exact ⟨fun d hd => (hwarnings d hd).1, fun d hd => (e.of_mem_lint id hd).1⟩
  · dsimp only
    split
    · exact .inr rfl
    · exact .inl rfl
  · have hfailed : (∃ d ∈ allMessages e, d.severity = .error) ↔ ∃ id ∈ e.order, ∃ source,
        s.files.read (Path.join c.root (e.script id).path) = .ok source ∧
        source.parse.2.hasErrors = true := by
      simp only [allMessages, List.mem_flatMap]
      constructor
      · rintro ⟨d, ⟨id, hid, hd⟩, herror⟩
        obtain ⟨source, hread, hs⟩ := hsources id hid
        exact ⟨id, hid, source, hread, (exists_error_iff id hs).mp ⟨d, hd, herror⟩⟩
      · rintro ⟨id, hid, source, hread, herror⟩
        obtain ⟨source', hread', hs⟩ := hsources id hid
        cases hread.symm.trans hread'
        obtain ⟨d, hd, hseverity⟩ := (exists_error_iff id hs).mpr herror
        exact ⟨d, ⟨id, hid, hd⟩, hseverity⟩
    simp only [hfailed, ite_eq_left_iff, reduceCtorEq, imp_false, not_not]

/-- A script with an error before one with a parameter that is not used. -/
def faultyScripts : Setting where
  files := .ofScripts (.cons (txt "a.zs") (.file (txt "var ;"))
    (.cons (txt "b.zs") (.file (txt "function f(x)\x7breturn 1;\x7d")) .nil))

theorem faultyScripts_print_once :
    ∃ e, environment faultyScripts {} = .ok e ∧
      (e.order.Pairwise fun a b => (e.script a).path < (e.script b).path) ∧
      ∃ o, check faultyScripts {} = .ok o ∧ o.error? = some .checkFailed ∧
        o.out = lines ((allMessages e).map Diagnostic.renderWithHint ++ [summary e]) := by
  have hrooted : Config.RootedAt {} faultyScripts.files [txt "scripts"] :=
    rootedAt_ofScripts (by decide)
  have hreadable : Config.Readable {} faultyScripts.files [txt "scripts"] :=
    readable_ofScripts (by decide) (by decide)
  obtain ⟨paths, hpaths⟩ := hreadable.discover hrooted
  obtain ⟨ids, e, hload⟩ := (Environment.load_isOk_iff (e := { root := txt "scripts" }) hpaths
    false).mpr ⟨(by simp), fun path hpath =>
      hreadable.reads path ((Config.mem_discover_iff hrooted hpaths).mp hpath)⟩
  have he : environment faultyScripts {} = .ok e := by
    change (Environment.load { root := txt "scripts" } faultyScripts.files {}).mapError
      CommandError.load >>= (fun loaded => pure loaded.2) = _
    rw [hload]
    rfl
  have hfound : txt "a.zs" ∈ paths :=
    ((Config.discover_perm hrooted rfl hpaths).trans (by decide +kernel :
      List.Perm _ [txt "a.zs", txt "b.zs"])).mem_iff.mpr (by decide)
  obtain ⟨-, id, hunit, hscript⟩ := Config.exists_unit?_of_environment hpaths hfound he
  obtain ⟨hlisted, hordered, -, o, ho, hout, -, hfailed⟩ := check_prints_once he
  refine ⟨e, he, hordered, o, ho,
    hfailed.mpr ⟨id, (hlisted id).mpr ⟨_, hunit⟩, txt "var ;", ?_, by decide +kernel⟩, hout⟩
  rw [Environment.path_load hscript]
  have hat : faultyScripts.files.root.at? ([txt "scripts"] ++ ([] ++ [txt "a.zs"])) =
      some (.file (txt "var ;")) := rfl
  exact FileSystem.read_of_follow rfl (hrooted.follow_at? hat .target (.inr (by simp))) hat

end Command

end Zensight
