import Mathlib.Data.List.Basic
import Zensight.Files
import Zensight.Proofs.Paths

/-!
# File trees

What a file tree holds is told by `FileEntry.at?`: the entry that names lead to,
links not followed. A change at a place of the tree shows at that place and below
it. Anywhere else there is what was there before, except that a directory on the
way to the place holds something different; `FileEntry.outer` forgets what a
directory holds.

`FileSystem.follow` goes from directory to directory as a path says. Below a
directory, names of directories that hold each other lead where `at?` says, and
whatever links were followed before only take from the number of links left.
-/

namespace Zensight

mutual

/-- Every name in the tree is one that a directory can hold, and stands once. -/
def FileEntry.Proper : FileEntry → Prop
  | .dir entries => entries.Proper
  | .file _ | .link _ => True

def Directory.Proper : Directory → Prop
  | .nil => True
  | .cons name entry rest =>
    (Path.IsName name ∧ name.length ≤ FileSystem.nameLimit) ∧ rest.get? name = none ∧
      entry.Proper ∧ rest.Proper

end

mutual

def FileEntry.decProper : (e : FileEntry) → Decidable e.Proper
  | .dir entries => entries.decProper
  | .file _ => .isTrue trivial
  | .link _ => .isTrue trivial

def Directory.decProper : (d : Directory) → Decidable d.Proper
  | .nil => .isTrue trivial
  | .cons name entry rest =>
    have := entry.decProper
    have := rest.decProper
    have : Decidable (rest.get? name = none) :=
      decidable_of_iff ((rest.get? name).isNone = true) Option.isNone_iff_eq_none
    inferInstanceAs (Decidable ((Path.IsName name ∧ name.length ≤ FileSystem.nameLimit) ∧
      rest.get? name = none ∧ entry.Proper ∧ rest.Proper))

end

instance (e : FileEntry) : Decidable e.Proper := e.decProper

instance (d : Directory) : Decidable d.Proper := d.decProper

namespace Directory

theorem get?_set (d : Directory) (name m : Text) (entry : FileEntry) :
    (d.set name entry).get? m = if m = name then some entry else d.get? m := by
  fun_induction Directory.set d name entry with
  | case1 name entry => simp [get?, eq_comm]
  | case2 e rest n entry => by_cases hm : m = n <;> simp [get?, hm, eq_comm]
  | case3 n e rest name entry hn ih =>
      rw [get?, get?, ih]
      by_cases hm : n = m
      · rw [if_pos hm, if_pos hm, if_neg (hm ▸ hn)]
      · rw [if_neg hm, if_neg hm]

namespace Proper

theorem of_get? {d : Directory} (h : d.Proper) {name : Text} {entry : FileEntry}
    (hget : d.get? name = some entry) :
    (Path.IsName name ∧ name.length ≤ FileSystem.nameLimit) ∧ entry.Proper := by
  fun_induction Directory.get? d name with
  | case1 => cases hget
  | case2 e rest n =>
      cases hget
      exact ⟨h.1, h.2.2.1⟩
  | case3 n e rest name _ ih => exact ih h.2.2.2 hget

theorem get?_erase {d : Directory} (h : d.Proper) (name m : Text) :
    (d.erase name).get? m = if m = name then none else d.get? m := by
  fun_induction Directory.erase d name with
  | case1 => simp [get?]
  | case2 e rest n =>
      by_cases hm : m = n
      · simpa [hm] using h.2.1
      · simp [get?, hm, Ne.symm hm]
  | case3 n e rest name hn ih =>
      rw [get?, get?, ih h.2.2.2]
      by_cases hm : n = m
      · rw [if_pos hm, if_pos hm, if_neg (hm ▸ hn)]
      · rw [if_neg hm, if_neg hm]

theorem mem_toList_iff : {d : Directory} → d.Proper → (name : Text) → (entry : FileEntry) →
    ((name, entry) ∈ d.toList ↔ d.get? name = some entry)
  | .nil, _, _, _ => by simp [toList, get?]
  | .cons n e rest, h, name, entry => by
    have ih := mem_toList_iff h.2.2.2 name entry
    rw [toList, List.mem_cons, ih, get?]
    by_cases hn : n = name
    · have hrest : rest.get? name = none := hn ▸ h.2.1
      simp [hn, hrest, eq_comm]
    · simp [hn, Ne.symm hn]

end Proper

end Directory

namespace FileEntry

/-- An entry without what it holds if it is a directory. -/
def outer : FileEntry → FileEntry
  | dir _ => dir .nil
  | e => e

@[simp] theorem outer_dir (entries : Directory) : (dir entries).outer = dir .nil := rfl

theorem outer_of_not_isDir {e : FileEntry} (h : e.isDir = false) : e.outer = e := by
  cases e with
  | dir => cases h
  | _ => rfl

theorem isDir_outer (e : FileEntry) : e.outer.isDir = e.isDir := by cases e <;> rfl

@[simp] theorem at?_nil (e : FileEntry) : e.at? [] = some e := by cases e <;> rfl

@[simp] theorem at?_dir_cons (entries : Directory) (name : Text) (names : List Text) :
    (dir entries).at? (name :: names) = (entries.get? name).bind (·.at? names) := rfl

theorem at?_append (e : FileEntry) (a b : List Text) :
    e.at? (a ++ b) = (e.at? a).bind (·.at? b) := by
  induction a generalizing e with
  | nil => simp
  | cons n a ih =>
      cases e with
      | dir entries =>
          rw [List.cons_append, at?_dir_cons, at?_dir_cons]
          cases entries.get? n with
          | none => rfl
          | some child => exact ih child
      | _ => rfl

/-- Only a directory leads on. -/
theorem exists_of_at?_cons {e e' : FileEntry} {name : Text} {names : List Text}
    (h : e.at? (name :: names) = some e') :
    ∃ entries child, e = dir entries ∧ entries.get? name = some child ∧
      child.at? names = some e' := by
  cases e with
  | dir entries =>
      obtain ⟨child, hget, hat⟩ := Option.bind_eq_some_iff.mp h
      exact ⟨entries, child, rfl, hget, hat⟩
  | _ => cases h

theorem Proper.at? {e e' : FileEntry} (h : e.Proper) {names : List Text}
    (hat : e.at? names = some e') :
    (∀ n ∈ names, Path.IsName n ∧ n.length ≤ FileSystem.nameLimit) ∧ e'.Proper := by
  induction names generalizing e with
  | nil =>
      rw [at?_nil] at hat
      cases hat
      exact ⟨by simp, h⟩
  | cons n names ih =>
      obtain ⟨entries, child, rfl, hget, hat⟩ := exists_of_at?_cons hat
      obtain ⟨hname, hchild⟩ := Directory.Proper.of_get? h hget
      obtain ⟨hnames, hproper⟩ := ih hchild hat
      refine ⟨fun m hm => ?_, hproper⟩
      rcases List.mem_cons.mp hm with rfl | hm
      · exact hname
      · exact hnames m hm

theorem Proper.isName_of_at? {e e' : FileEntry} (h : e.Proper) {place names : List Text}
    (hat : e.at? (place ++ names) = some e') : ∀ n ∈ names, Path.IsName n :=
  fun n hn => ((h.at? hat).1 n (List.mem_append_right _ hn)).1

/-! ## Checking a whole tree -/

mutual

/-- Does everything in a tree pass the check? It is told the names that lead there. -/
def every (check : List Text → FileEntry → Bool) : FileEntry → Bool
  | .dir entries => check [] (.dir entries) && everyIn check entries
  | .file content => check [] (.file content)
  | .link target => check [] (.link target)

def everyIn (check : List Text → FileEntry → Bool) : Directory → Bool
  | .nil => true
  | .cons name entry rest =>
    entry.every (fun names => check (name :: names)) && everyIn check rest

end

theorem every_of_get? {check : List Text → FileEntry → Bool} {d : Directory}
    (h : everyIn check d = true) {name : Text} {entry : FileEntry}
    (hget : d.get? name = some entry) : entry.every (fun names => check (name :: names)) = true := by
  fun_induction Directory.get? d name with
  | case1 => cases hget
  | case2 e rest n =>
      rw [everyIn, Bool.and_eq_true] at h
      cases hget
      exact h.1
  | case3 n e rest name _ ih =>
      rw [everyIn, Bool.and_eq_true] at h
      exact ih h.2 hget

theorem check_of_every {check : List Text → FileEntry → Bool} {e e' : FileEntry}
    (h : e.every check = true) {names : List Text} (hat : e.at? names = some e') :
    check names e' = true := by
  induction names generalizing e check with
  | nil =>
      rw [at?_nil] at hat
      cases hat
      cases e' with
      | dir =>
          rw [every, Bool.and_eq_true] at h
          exact h.1
      | _ => exact h
  | cons n names ih =>
      obtain ⟨entries, child, rfl, hget, hat⟩ := exists_of_at?_cons hat
      rw [every, Bool.and_eq_true] at h
      exact ih (every_of_get? h.2 hget) hat

/-! ## Putting an entry into a directory -/

section Put

variable {e new : FileEntry} {parents : List Text} {name : Text} {entries : Directory}

theorem put_cons (siblings : Directory) {n : Text} {names : List Text} {child : FileEntry}
    (hget : siblings.get? n = some child) :
    (dir siblings).put (n :: names) new = dir (siblings.set n (child.put names new)) := by
  rw [put, hget, Option.getD_some]

theorem at?_put (h : e.at? parents = some (.dir entries)) (below : List Text) :
    (e.put (parents ++ [name]) new).at? (parents ++ name :: below) = new.at? below := by
  induction parents generalizing e with
  | nil =>
      rw [at?_nil] at h
      cases h
      simp [put, Directory.get?_set]
  | cons n parents ih =>
      obtain ⟨siblings, child, rfl, hget, hat⟩ := exists_of_at?_cons h
      rw [List.cons_append, List.cons_append, put_cons siblings hget, at?_dir_cons,
        Directory.get?_set, if_pos rfl]
      exact ih hat

/-- Away from a place, an entry put there shows only in what directories hold. -/
theorem outer_at?_put (h : e.at? parents = some (.dir entries)) {names : List Text}
    (haway : ¬ parents ++ [name] <+: names) :
    ((e.put (parents ++ [name]) new).at? names).map outer = (e.at? names).map outer := by
  -- Along the way to the place: `names` end on it, leave it, or go on with it.
  induction parents generalizing e names with
  | nil =>
      rw [at?_nil] at h
      cases h
      cases names with
      | nil => simp [put]
      | cons m names =>
          have hm : m ≠ name := by simpa [eq_comm] using haway
          simp [put, Directory.get?_set, hm]
  | cons n parents ih =>
      obtain ⟨siblings, child, rfl, hget, hat⟩ := exists_of_at?_cons h
      rw [List.cons_append, put_cons siblings hget]
      cases names with
      | nil => simp
      | cons m names =>
          rw [at?_dir_cons, at?_dir_cons, Directory.get?_set]
          by_cases hm : m = n
          · subst hm
            rw [if_pos rfl, hget]
            exact ih hat (by simpa using haway)
          · rw [if_neg hm]

end Put

/-! ## Taking an entry out of a directory -/

section Erase

variable {e : FileEntry} {parents : List Text} {name : Text} {entries : Directory}

theorem erase_cons (siblings : Directory) {n : Text} {names : List Text} {child : FileEntry}
    (hget : siblings.get? n = some child) (hne : names ≠ []) :
    (dir siblings).erase (n :: names) = dir (siblings.set n (child.erase names)) := by
  cases names with
  | nil => exact absurd rfl hne
  | cons m names => simp [erase, hget]

theorem at?_erase (he : e.Proper) (h : e.at? parents = some (.dir entries)) (below : List Text) :
    (e.erase (parents ++ [name])).at? (parents ++ name :: below) = none := by
  induction parents generalizing e with
  | nil =>
      rw [at?_nil] at h
      cases h
      simp [erase, Directory.Proper.get?_erase he]
  | cons n parents ih =>
      obtain ⟨siblings, child, rfl, hget, hat⟩ := exists_of_at?_cons h
      rw [List.cons_append, List.cons_append, erase_cons siblings hget (by simp), at?_dir_cons,
        Directory.get?_set, if_pos rfl]
      exact ih (Directory.Proper.of_get? he hget).2 hat

theorem outer_at?_erase (he : e.Proper) (h : e.at? parents = some (.dir entries))
    {names : List Text} (haway : ¬ parents ++ [name] <+: names) :
    ((e.erase (parents ++ [name])).at? names).map outer = (e.at? names).map outer := by
  induction parents generalizing e names with
  | nil =>
      rw [at?_nil] at h
      cases h
      cases names with
      | nil => simp [erase]
      | cons m names =>
          have hm : m ≠ name := by simpa [eq_comm] using haway
          simp [erase, Directory.Proper.get?_erase he, hm]
  | cons n parents ih =>
      obtain ⟨siblings, child, rfl, hget, hat⟩ := exists_of_at?_cons h
      rw [List.cons_append, erase_cons siblings hget (by simp)]
      cases names with
      | nil => simp
      | cons m names =>
          rw [at?_dir_cons, at?_dir_cons, Directory.get?_set]
          by_cases hm : m = n
          · subst hm
            rw [if_pos rfl, hget]
            exact ih (Directory.Proper.of_get? he hget).2 hat (by simpa using haway)
          · rw [if_neg hm]

end Erase

end FileEntry

namespace FileSystem

/-! ## Following names -/

section Follow

variable {root : FileEntry} {ending : Ending} {links : Nat} {here rest : List Text}

/-- A step from a directory to what it holds, unless that is a link. -/
theorem follow_cons {entries : Directory} {name : Text} {entry : FileEntry}
    (hroot : root.Proper) (hdir : root.at? here = some (.dir entries))
    (hget : entries.get? name = some entry) (hlink : ∀ target, entry ≠ .link target) :
    follow root ending links here (name :: rest) =
      follow root ending links (here ++ [name]) rest := by
  have hproper : entries.Proper := (hroot.at? hdir).2
  obtain ⟨⟨hname, hlength⟩, -⟩ := hproper.of_get? hget
  rw [follow, hdir]
  simp only [if_neg hname.ne_dot, if_neg hname.ne_dotDot, if_neg (Nat.not_lt.mpr hlength), hget]

/-- A step to a link, which is followed from the directory it is in. -/
theorem follow_link {entries : Directory} {name target : Text} (hroot : root.Proper)
    (hdir : root.at? here = some (.dir entries)) (hget : entries.get? name = some (.link target))
    (htarget : Path.isAbsolute target = false) :
    follow root .target (links + 1) here (name :: rest) =
      follow root .target links here (steps target ++ rest) := by
  have hproper : entries.Proper := (hroot.at? hdir).2
  obtain ⟨⟨hname, hlength⟩, -⟩ := hproper.of_get? hget
  rw [follow, hdir]
  simp [hname.ne_dot, hname.ne_dotDot, Nat.not_lt.mpr hlength, hget, htarget]

theorem follow_dirs (hroot : root.Proper) {dirs : List Text} {entries : Directory}
    (hdir : root.at? (here ++ dirs) = some (.dir entries)) :
    follow root ending links here (dirs ++ rest) = follow root ending links (here ++ dirs) rest := by
  induction dirs generalizing here with
  | nil => simp
  | cons n dirs ih =>
      have hstep : root.at? (here ++ [n] ++ dirs) = some (.dir entries) := by simpa using hdir
      rw [FileEntry.at?_append] at hdir
      obtain ⟨top, htop, hat⟩ := Option.bind_eq_some_iff.mp hdir
      obtain ⟨siblings, child, rfl, hget, hat⟩ := FileEntry.exists_of_at?_cons hat
      have hlink : ∀ target, child ≠ .link target := by
        rintro target rfl
        cases dirs <;> cases hat
      rw [List.cons_append, follow_cons hroot htop hget hlink, ih hstep]
      simp

/-- Names lead to what is there, though not through a link unless a link is asked
for. -/
theorem follow_of_at? (hroot : root.Proper) {parents : List Text} {name : Text}
    {entry : FileEntry} {entries : Directory}
    (hdir : root.at? (here ++ parents) = some (.dir entries))
    (hentry : entries.get? name = some entry)
    (hlink : ending = .entry ∨ ∀ target, entry ≠ .link target) :
    follow root ending links here (parents ++ [name]) = .ok (here ++ parents ++ [name]) := by
  rw [follow_dirs hroot hdir]
  by_cases hisLink : ∀ target, entry ≠ .link target
  · rw [follow_cons hroot hdir hentry hisLink, follow]
  · have hproper : entries.Proper := (hroot.at? hdir).2
    obtain ⟨⟨hname, hlength⟩, -⟩ := hproper.of_get? hentry
    rw [not_forall] at hisLink
    obtain ⟨target, htarget⟩ := hisLink
    rw [not_not] at htarget
    have hending : ending = .entry := hlink.resolve_right fun h => h target htarget
    rw [follow, hdir]
    simp [hname.ne_dot, hname.ne_dotDot, Nat.not_lt.mpr hlength, hentry, htarget, hending]

/-- Segments that lead to a place lead there also with more behind them, and leave
some of the links. -/
theorem follow_append {todo place : List Text} (h : follow root .target links here todo = .ok place) :
    ∃ left, ∀ (ending : Ending) (more : List Text), more ≠ [] →
      follow root ending links here (todo ++ more) = follow root ending left place more := by
  -- With something behind them no segment is the last, so that the ending asked for
  -- plays no part until they are through; the other cases end with an error.
  induction links, here, todo using follow.induct root .target with
  | case1 links here =>
      rw [follow] at h
      cases h
      exact ⟨links, fun _ _ _ => rfl⟩
  | case3 links here rest entries hdir ih =>
      simp only [follow, hdir, if_true] at h
      simpa only [List.cons_append, follow, hdir, if_true] using ih h
  | case4 links here rest entries hdir hne ih =>
      simp only [follow, hdir, if_neg hne, if_true] at h
      simpa only [List.cons_append, follow, hdir, if_neg hne, if_true] using ih h
  | case7 links here name rest entries hdir hdot hdotDot hlength hget hlast =>
      simp only [follow, hdir, if_neg hdot, if_neg hdotDot, if_neg hlength, hget,
        if_neg hlast] at h
      cases h
  | case9 here name rest entries hdir hdot hdotDot hlength target hget hlast =>
      simp only [follow, hdir, if_neg hdot, if_neg hdotDot, if_neg hlength, hget,
        if_neg hlast] at h
      cases h
  | case10 here name rest entries hdir hdot hdotDot hlength target hget hlast links ih =>
      have hmore : ∀ (ending : Ending) (more : List Text), more ≠ [] →
          ((rest ++ more).isEmpty && decide (ending = .entry)) = false := by
        intro ending more hne
        simp [hne]
      simp only [follow, hdir, if_neg hdot, if_neg hdotDot, if_neg hlength, hget,
        if_neg hlast] at h
      obtain ⟨left, hleft⟩ := ih h
      refine ⟨left, fun ending more hne => ?_⟩
      simp only [List.cons_append, follow, hdir, if_neg hdot, if_neg hdotDot, if_neg hlength, hget,
        hmore ending more hne, if_neg Bool.false_ne_true]
      rw [← List.append_assoc]
      exact hleft ending more hne
  | case11 links here name rest entries hdir hdot hdotDot hlength entry hlink hget ih =>
      have hstep : ∀ (ending : Ending) (todo : List Text),
          follow root ending links here (name :: todo) =
            follow root ending links (here ++ [name]) todo := by
        intro ending todo
        rw [follow, hdir]
        simp only [if_neg hdot, if_neg hdotDot, if_neg hlength, hget]
      rw [hstep] at h
      simpa only [List.cons_append, hstep] using ih h
  | _ => simp_all [follow]

end Follow

end FileSystem

end Zensight
