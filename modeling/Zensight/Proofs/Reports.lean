import Mathlib.Data.List.Perm.Basic
import Zensight.Lint
import Zensight.Proofs.Indexes

/-!
# What the report on a script lists

The findings about a script are appended to its report one after the other and sorted by
place. So the report lists the findings, each as often as it was made, and those under one
code are what the check with that code found at the nodes of the script
(`Environment.lint_topic_perm`).

Sorting compares files first. All messages of a report on a script are about its file, so they
come out by place, and those about one place in the order they had (`Report.byPlace_sort`).
-/

namespace Zensight

/-! ## Sorting by place -/

namespace Diagnostic

/-- Stands at the same place as the other message or before it. -/
def NoLater (d e : Diagnostic) : Prop :=
  d.line < e.line ∨ d.line = e.line ∧ d.column ≤ e.column

/-- The order in which messages are sorted. -/
theorem not_before_iff (d e : Diagnostic) :
    (!e.before d) = true ↔ d.file ≤ e.file ∧ (d.file = e.file → d.NoLater e) := by
  rw [before, NoLater, Bool.not_eq_true', ← Bool.not_eq_true]
  by_cases hfile : d.file = e.file
  · have hrefl : e.file ≤ e.file := List.le_refl _
    simp only [hfile, ne_eq, not_true_eq_false, if_false, hrefl, true_and, forall_const]
    split <;> simp <;> omega
  · rw [if_pos (Ne.symm hfile), Text.before_iff_lt, List.not_lt]
    simp [hfile]

end Diagnostic

/-- The messages `ds` are those of `all` in the order of their places; about one place they say
things in the order of `all`. -/
structure ByPlace (all ds : List Diagnostic) : Prop where
  perm : ds.Perm all
  sorted : ds.Pairwise Diagnostic.NoLater
  stable : ∀ line column : Int, ds.filter (fun d => d.line = line ∧ d.column = column) =
    all.filter fun d => d.line = line ∧ d.column = column

/-- A report on one file is sorted by place. -/
theorem Report.byPlace_sort {r : Report} (file : Text) (h : ∀ d ∈ r.items, d.file = file) :
    ByPlace r.items r.sort.items := by
  have htrans : ∀ a b c : Diagnostic, (!b.before a) = true → (!c.before b) = true →
      (!c.before a) = true := by
    intro a b c
    simp only [Diagnostic.not_before_iff]
    rintro ⟨hab, hab'⟩ ⟨hbc, hbc'⟩
    refine ⟨List.le_trans hab hbc, fun hac => ?_⟩
    have hfile : a.file = b.file := List.le_antisymm hab (hac ▸ hbc)
    have hplace := hab' hfile
    have hplace' := hbc' (hfile.symm.trans hac)
    rw [Diagnostic.NoLater] at *
    omega
  have htotal : ∀ a b : Diagnostic, (!b.before a || !a.before b) = true := by
    intro a b
    rw [Bool.or_eq_true, Diagnostic.not_before_iff, Diagnostic.not_before_iff,
      Diagnostic.NoLater, Diagnostic.NoLater]
    rcases List.le_total a.file b.file with hle | hle <;> by_cases heq : a.file = b.file <;>
      simp [hle, heq, eq_comm] <;> omega
  have hperm : r.sort.items.Perm r.items := List.mergeSort_perm _ _
  refine ⟨hperm, ?_, fun line column => ?_⟩
  · refine (List.pairwise_mergeSort htrans htotal r.items).imp_of_mem fun ha hb hab => ?_
    have hfile : _ = _ := (h _ (hperm.mem_iff.mp ha)).trans (h _ (hperm.mem_iff.mp hb)).symm
    exact ((Diagnostic.not_before_iff _ _).mp hab).2 hfile
  · -- Messages about one place are in order as they are, so sorting keeps them as a sublist.
    refine (List.Sublist.eq_of_length ?_ ((hperm.filter _).length_eq).symm).symm
    suffices hkept : (r.items.filter fun d => d.line = line ∧ d.column = column).Sublist
        r.sort.items by
      simpa only [List.filter_filter, Bool.and_self] using
        hkept.filter fun d => d.line = line ∧ d.column = column
    refine List.sublist_mergeSort htrans htotal ?_ List.filter_sublist
    refine List.pairwise_of_forall_mem_list fun a ha b hb => ?_
    obtain ⟨ha, hplace⟩ := List.mem_filter.mp ha
    obtain ⟨hb, hplace'⟩ := List.mem_filter.mp hb
    rw [decide_eq_true_iff] at hplace hplace'
    rw [Diagnostic.not_before_iff, h a ha, h b hb, Diagnostic.NoLater]
    refine ⟨List.le_refl _, fun _ => ?_⟩
    omega

namespace Lint

/-- The message that a finding becomes in the report on a file. -/
def Finding.diagnostic (file : Text) (f : Finding) : Diagnostic where
  severity := .warning
  code := f.topic.code
  message := f.message
  line := f.place.line
  column := f.place.column
  file

theorem Topic.code_injective {t u : Topic} (h : t.code = u.code) : t = u := by
  revert h
  cases t <;> cases u <;> decide

variable (v : View) (n : NodeRef)

/-- What the check about a topic finds at a node, `used` being the nodes referred to. -/
def check (used : List NodeRef) : Topic → List Finding
  | .unresolvedName => unresolvedName v n
  | .unknownMember => unknownMember v n
  | .ambiguousOverload => ambiguousOverload v n
  | .classNaming => classNaming v n
  | .emptyBody => emptyBody v n
  | .unusedParameter => unusedParameters v n used

/-- A check finds what it is about. -/
theorem topic_of_mem_check {used : List NodeRef} {t : Topic} {f : Finding}
    (h : f ∈ check v n used t) : f.topic = t := by
  cases t with
  | unresolvedName =>
      unfold check unresolvedName at h
      grind
  | unknownMember =>
      unfold check unknownMember at h
      grind
  | ambiguousOverload =>
      unfold check ambiguousOverload at h
      grind
  | classNaming =>
      unfold check classNaming at h
      grind
  | emptyBody =>
      unfold check emptyBody at h
      grind
  | unusedParameter =>
      unfold check unusedParameters at h
      grind

theorem filter_check (used : List NodeRef) (t u : Topic) :
    (check v n used t).filter (·.topic = u) = if t = u then check v n used t else [] := by
  split
  · next htopic =>
      refine List.filter_eq_self.mpr fun f hf => ?_
      rw [topic_of_mem_check v n hf]
      exact decide_eq_true htopic
  · next htopic =>
      refine List.filter_eq_nil_iff.mpr fun f hf => ?_
      rw [topic_of_mem_check v n hf]
      simpa using htopic

/-- Of what is found at a node, the findings about a topic are those of its check. -/
theorem filter_atNode (used : List NodeRef) (t : Topic) :
    (atNode v n ++ unusedParameters v n used).filter (·.topic = t) = check v n used t := by
  have hall : atNode v n ++ unusedParameters v n used =
      check v n used .unresolvedName ++ check v n used .unknownMember ++
        check v n used .ambiguousOverload ++ check v n used .classNaming ++
        check v n used .emptyBody ++ check v n used .unusedParameter := rfl
  rw [hall]
  simp only [List.filter_append, filter_check]
  cases t <;> simp

end Lint

namespace Report

theorem items_addFindings (fs : List Lint.Finding) (r : Report) :
    (fs.foldl (fun r f => r.addFinding f.topic.code f.place.line f.place.column f.message)
      r).items = r.items ++ fs.map (·.diagnostic r.file) := by
  induction fs generalizing r with
  | nil => exact (List.append_nil _).symm
  | cons f fs ih =>
      rw [List.foldl_cons, ih, List.map_cons]
      simp [addFinding, add, Lint.Finding.diagnostic]

end Report

namespace Environment

variable (e : Environment) (id : ScriptId)

/-- The nodes of a script that others refer to. -/
def referents (e : Environment) (id : ScriptId) : List NodeRef :=
  ((e.script id).nodes.map fun n => (⟨id, n⟩ : NodeRef)).filterMap (Lint.referent? e.view)

theorem lint_perm : (e.lint id).items.Perm
    (((e.script id).nodes.flatMap fun n =>
      Lint.atNode e.view ⟨id, n⟩ ++ Lint.unusedParameters e.view ⟨id, n⟩ (e.referents id)).map
        (·.diagnostic (e.script id).path)) := by
  rw [lint]
  refine (List.mergeSort_perm _ _).trans ?_
  rw [Report.items_addFindings, List.nil_append]
  refine List.Perm.map _ ?_
  rw [List.flatMap_map, List.flatMap_map]
  exact List.flatMap_append_perm _ _ _

/-- Under the code of a topic the report lists what its check found, at each node as often as
it was found there. -/
theorem lint_topic_perm (t : Lint.Topic) :
    ((e.lint id).items.filter (·.code = t.code)).Perm
      (((e.script id).nodes.flatMap fun n => Lint.check e.view ⟨id, n⟩ (e.referents id) t).map
        (·.diagnostic (e.script id).path)) := by
  have hcode : (fun f : Lint.Finding => decide ((f.diagnostic (e.script id).path).code = t.code))
      = fun f => decide (f.topic = t) := by
    funext f
    exact decide_eq_decide.mpr ⟨Lint.Topic.code_injective, congrArg Lint.Topic.code⟩
  have hfilter := (e.lint_perm id).filter (·.code = t.code)
  rw [List.filter_map, Function.comp_def, hcode, List.filter_flatMap] at hfilter
  simpa only [Lint.filter_atNode] using hfilter

theorem sorted_lint : (e.lint id).items.Pairwise Diagnostic.NoLater := by
  rw [lint]
  refine (Report.byPlace_sort (e.script id).path fun d hd => ?_).sorted
  rw [Report.items_addFindings, List.nil_append] at hd
  obtain ⟨f, -, rfl⟩ := List.mem_map.mp hd
  rfl

/-- All findings are warnings about the script. -/
theorem of_mem_lint {d : Diagnostic} (hd : d ∈ (e.lint id).items) :
    d.severity = .warning ∧ d.file = (e.script id).path := by
  obtain ⟨f, -, rfl⟩ := List.mem_map.mp ((e.lint_perm id).mem_iff.mp hd)
  exact ⟨rfl, rfl⟩

/-- The message is reported because of what the check about a topic found at a node. -/
def Reports (e : Environment) (id : ScriptId) (t : Lint.Topic) (n : NodeId) (d : Diagnostic) :
    Prop :=
  n ∈ (e.script id).nodes ∧ ∃ f ∈ Lint.check e.view ⟨id, n⟩ (e.referents id) t,
    d = f.diagnostic (e.script id).path

/-- The messages with the code of a topic are those reported for the nodes. -/
theorem mem_lint_iff {t : Lint.Topic} {d : Diagnostic} :
    (d ∈ (e.lint id).items ∧ d.code = t.code) ↔ ∃ n, e.Reports id t n d := by
  have hmem := (e.lint_topic_perm id t).mem_iff (a := d)
  rw [List.mem_filter, decide_eq_true_iff] at hmem
  rw [hmem, List.mem_map]
  constructor
  · rintro ⟨f, hf, rfl⟩
    obtain ⟨n, hn, hf⟩ := List.mem_flatMap.mp hf
    exact ⟨n, hn, f, hf, rfl⟩
  · rintro ⟨n, hn, f, hf, rfl⟩
    exact ⟨f, List.mem_flatMap.mpr ⟨n, hn, hf⟩, rfl⟩

end Environment

end Zensight
