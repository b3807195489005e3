import Mathlib.Data.List.Basic
import Zensight.Path

/-!
# Paths below a directory

A workspace speaks of its files in two ways: by the names that lead from its
root to a file, and by texts. `Path.ofSegments` makes a text of names and
`Path.segments` gets them back, as long as they are names that a directory can
hold. What `Path.join`, `Path.relative?` and `Path.base` do to a path below a
root is said here in terms of its names.

Cleaning a path goes through its segments once. What comes out is a number of
`..`, none for an absolute path, and behind them segments that are neither `.`
nor `..`. Going through such segments again changes nothing, so the segments of
a cleaned path can be appended to as they are.
-/

namespace Zensight

namespace Text

theorem split_append (sep : UInt8) (a b : Text) :
    split sep (a ++ sep :: b) = split sep a ++ split sep b := by
  have hne : ∀ s, split sep s ≠ [] := by
    intro s
    fun_cases split sep s <;> simp_all
  induction a with
  | nil => simp [split]
  | cons c a ih =>
      rw [List.cons_append, split, split, ih]
      split
      · rfl
      · cases ha : split sep a with
        | nil => exact absurd ha (hne a)
        | cons piece pieces => rfl

theorem split_of_not_mem {sep : UInt8} {s : Text} (h : sep ∉ s) : split sep s = [s] := by
  induction s with
  | nil => rfl
  | cons c s ih =>
      rw [List.mem_cons, not_or] at h
      rw [split, if_neg (Ne.symm h.1), ih h.2]

theorem not_mem_of_mem_split {sep : UInt8} {s piece : Text} (h : piece ∈ split sep s) :
    sep ∉ piece := by
  induction s generalizing piece with
  | nil => simp_all [split]
  | cons c s ih =>
      rw [split] at h
      split at h
      · rcases List.mem_cons.mp h with rfl | h
        · exact List.not_mem_nil
        · exact ih h
      · next hc =>
          split at h
          · rw [List.mem_singleton.mp h]
            simpa using Ne.symm hc
          · next first pieces hsplit =>
              rcases List.mem_cons.mp h with rfl | h
              · have hnot : sep ∉ first := ih (by simp [hsplit])
                simpa [Ne.symm hc] using hnot
              · exact ih (by simp [hsplit, h])

theorem startsWith_iff {s start : Text} : s.startsWith start = true ↔ start <+: s := by
  rw [startsWith, List.isPrefixOf_iff_prefix]

theorem endsWith_iff {s tail : Text} : s.endsWith tail = true ↔ tail <:+ s := by
  rw [endsWith, List.isSuffixOf_iff_suffix]

end Text

namespace Path

/-- A name that a directory can hold. -/
structure IsName (name : Text) : Prop where
  ne_nil : name ≠ []
  no_slash : slash ∉ name
  ne_dot : name ≠ dot
  ne_dotDot : name ≠ dotDot

instance (name : Text) : Decidable (IsName name) :=
  decidable_of_iff (name ≠ [] ∧ slash ∉ name ∧ name ≠ dot ∧ name ≠ dotDot)
    ⟨fun ⟨hnil, hslash, hdot, hdotDot⟩ => ⟨hnil, hslash, hdot, hdotDot⟩,
      fun h => ⟨h.ne_nil, h.no_slash, h.ne_dot, h.ne_dotDot⟩⟩

/-! ## Texts and names -/

/-- A segment of a path, `.` and `..` among them. -/
structure IsSegment (name : Text) : Prop where
  ne_nil : name ≠ []
  no_slash : slash ∉ name

theorem IsName.isSegment {name : Text} (h : IsName name) : IsSegment name := ⟨h.ne_nil, h.no_slash⟩

theorem segments_append (a b : Text) : segments (a ++ slash :: b) = segments a ++ segments b := by
  rw [segments, Text.split_append, List.filter_append, segments, segments]

theorem isSegment_of_mem {path name : Text} (h : name ∈ segments path) : IsSegment name := by
  rw [segments, List.mem_filter] at h
  exact ⟨by simpa using h.2, Text.not_mem_of_mem_split h.1⟩

theorem ofSegments_cons {name : Text} {names : List Text} (h : names ≠ []) :
    ofSegments (name :: names) = name ++ slash :: ofSegments names := by
  cases names with
  | nil => exact absurd rfl h
  | cons n ns => rfl

theorem segments_of_isSegment {name : Text} (h : IsSegment name) : segments name = [name] := by
  rw [segments, Text.split_of_not_mem h.no_slash]
  simp [h.ne_nil]

theorem segments_ofSegments {names : List Text} (h : ∀ n ∈ names, IsSegment n) :
    segments (ofSegments names) = names := by
  induction names with
  | nil => rfl
  | cons n ns ih =>
      have hn := segments_of_isSegment (h n List.mem_cons_self)
      by_cases hns : ns = []
      · rw [hns]
        exact hn
      · rw [ofSegments_cons hns, segments_append, hn, ih fun m hm => h m (by simp [hm])]
        rfl

theorem ofSegments_append {a b : List Text} (ha : a ≠ []) (hb : b ≠ []) :
    ofSegments (a ++ b) = ofSegments a ++ slash :: ofSegments b := by
  induction a with
  | nil => exact absurd rfl ha
  | cons n ns ih =>
      by_cases hns : ns = []
      · rw [hns]
        exact ofSegments_cons hb
      · rw [List.cons_append, ofSegments_cons (by simp [hns]), ofSegments_cons hns, ih hns,
          List.append_assoc]
        rfl

theorem ofSegments_inj {a b : List Text} (ha : ∀ n ∈ a, IsSegment n) (hb : ∀ n ∈ b, IsSegment n)
    (h : ofSegments a = ofSegments b) : a = b := by
  rw [← segments_ofSegments ha, h, segments_ofSegments hb]

theorem ofSegments_ne_nil {names : List Text} (h : ∀ n ∈ names, IsSegment n) (hne : names ≠ []) :
    ofSegments names ≠ [] := by
  intro hnil
  have hsegments := segments_ofSegments h
  rw [hnil] at hsegments
  exact hne hsegments.symm

theorem isAbsolute_ofSegments {names : List Text} (h : ∀ n ∈ names, IsSegment n) :
    isAbsolute (ofSegments names) = false := by
  cases names with
  | nil => rfl
  | cons n ns =>
      obtain ⟨hne, hslash⟩ := h n List.mem_cons_self
      cases n with
      | nil => exact absurd rfl hne
      | cons c n =>
          have hc : c ≠ slash := fun heq => hslash (by simp [heq])
          cases ns <;> simpa [isAbsolute, ofSegments, Text.join] using hc

theorem getLast?_ofSegments {names : List Text} (h : ∀ n ∈ names, IsSegment n) :
    (ofSegments names).getLast? ≠ some slash := by
  induction names with
  | nil => simp [ofSegments, Text.join]
  | cons n ns ih =>
      by_cases hns : ns = []
      · rw [hns]
        exact fun hlast => (h n List.mem_cons_self).no_slash (List.mem_of_getLast? hlast)
      · have hrest : ∀ m ∈ ns, IsSegment m := fun m hm => h m (by simp [hm])
        rw [ofSegments_cons hns, List.getLast?_append, List.getLast?_cons,
          List.getLast?_eq_some_getLast (ofSegments_ne_nil hrest hns)]
        have hlast := ih hrest
        rw [List.getLast?_eq_some_getLast (ofSegments_ne_nil hrest hns)] at hlast
        simpa using hlast

/-! ## Cleaning -/

/-- What cleaning leaves: `..` in front, if the path is relative, and behind them
neither `.` nor `..`. -/
def IsClean (absolute : Bool) (names : List Text) : Prop :=
  ∃ k rest, names = List.replicate k dotDot ++ rest ∧
    (∀ n ∈ rest, n ≠ dot ∧ n ≠ dotDot) ∧ (absolute = true → k = 0)

theorem IsClean.nil (absolute : Bool) : IsClean absolute [] := ⟨0, [], by simp⟩

theorem IsClean.append {absolute : Bool} {names more : List Text} (h : IsClean absolute names)
    (hmore : ∀ n ∈ more, n ≠ dot ∧ n ≠ dotDot) : IsClean absolute (names ++ more) := by
  obtain ⟨k, rest, rfl, hrest, hk⟩ := h
  refine ⟨k, rest ++ more, by simp, fun n hn => ?_, hk⟩
  rcases List.mem_append.mp hn with hn | hn
  · exact hrest n hn
  · exact hmore n hn

theorem IsClean.descend {absolute : Bool} {names : List Text} (h : IsClean absolute names)
    (name : Text) : IsClean absolute (descend absolute names name) := by
  rw [Path.descend]
  split
  · exact h
  next hdot =>
    split
    next =>
      obtain ⟨k, rest, rfl, hrest, hk⟩ := h
      -- A name at the end is undone; otherwise only `..` are there.
      rcases List.eq_nil_or_concat rest with rfl | ⟨rest, last, rfl⟩
      · cases k with
        | zero =>
            cases absolute with
            | true => exact .nil true
            | false => exact ⟨1, [], rfl, by simp, by simp⟩
        | succ k =>
            have habs : absolute ≠ true := fun habs => by simpa using hk habs
            have hlast : (List.replicate (k + 1) dotDot ++ []).getLast? = some dotDot := by
              simp [List.getLast?_replicate]
            simp only [hlast, if_true]
            exact ⟨k + 2, [], by simp [List.replicate_succ'], by simp, fun h => absurd h habs⟩
      · have hne := (hrest last (by simp)).2
        have hlast : (List.replicate k dotDot ++ (rest ++ [last])).getLast? = some last := by
          simp [List.getLast?_append]
        simp only [List.concat_eq_append, hlast, if_neg hne]
        refine ⟨k, rest, ?_, fun n hn => hrest n (by simp [hn]), hk⟩
        rw [← List.append_assoc, List.dropLast_concat]
    next hdotDot => exact h.append (by simpa using ⟨hdot, hdotDot⟩)

theorem foldl_descend_of_name {absolute : Bool} (names : List Text) {more : List Text}
    (hmore : ∀ n ∈ more, n ≠ dot ∧ n ≠ dotDot) :
    more.foldl (descend absolute) names = names ++ more := by
  induction more generalizing names with
  | nil => simp
  | cons n more ih =>
      obtain ⟨hdot, hdotDot⟩ := hmore n List.mem_cons_self
      rw [List.foldl_cons, ih _ fun m hm => hmore m (by simp [hm]), descend, if_neg hdot,
        if_neg hdotDot, List.append_assoc]
      rfl

/-- Going through cleaned segments again changes nothing. -/
theorem IsClean.foldl_descend {absolute : Bool} {names : List Text} (h : IsClean absolute names) :
    names.foldl (Path.descend absolute) [] = names := by
  obtain ⟨k, rest, rfl, hrest, hk⟩ := h
  have hups : (List.replicate k dotDot).foldl (Path.descend absolute) [] =
      List.replicate k dotDot := by
    cases absolute with
    | true => rw [hk rfl]; rfl
    | false =>
        clear hk
        induction k with
        | zero => rfl
        | succ k ih =>
            rw [List.replicate_succ', List.foldl_append, ih, List.foldl_cons, List.foldl_nil,
              Path.descend, if_neg (by decide), if_pos rfl]
            cases k with
            | zero => rfl
            | succ k => simp [List.getLast?_replicate]
  rw [List.foldl_append, hups, foldl_descend_of_name _ hrest]

theorem isClean_cleanSegments (path : Text) : IsClean (isAbsolute path) (cleanSegments path) := by
  have hfold : ∀ (names done : List Text), IsClean (isAbsolute path) done →
      IsClean (isAbsolute path) (names.foldl (descend (isAbsolute path)) done) := by
    intro names
    induction names with
    | nil => intro done h; exact h
    | cons n names ih => intro done h; exact ih _ (h.descend n)
  exact hfold _ _ (.nil _)

theorem isSegment_of_mem_cleanSegments {path name : Text} (h : name ∈ cleanSegments path) :
    IsSegment name := by
  have hdescend : ∀ (done : List Text) (n : Text), (∀ m ∈ done, IsSegment m) → IsSegment n →
      ∀ m ∈ descend (isAbsolute path) done n, IsSegment m := by
    intro done n hdone hn m hm
    have hup : IsSegment dotDot := ⟨by decide, by decide⟩
    have hmem : m ∈ done ∨ m = n ∨ m = dotDot := by
      rw [descend] at hm
      split at hm
      · exact .inl hm
      · split at hm
        · split at hm
          · split at hm
            · cases hm
            · exact .inr (.inr (List.mem_singleton.mp hm))
          · split at hm
            · rcases List.mem_append.mp hm with hm | hm
              · exact .inl hm
              · exact .inr (.inr (List.mem_singleton.mp hm))
            · exact .inl (List.dropLast_subset _ hm)
        · rcases List.mem_append.mp hm with hm | hm
          · exact .inl hm
          · exact .inr (.inl (List.mem_singleton.mp hm))
    rcases hmem with hm | rfl | rfl
    · exact hdone m hm
    · exact hn
    · exact hup
  have hfold : ∀ (names done : List Text), (∀ m ∈ names, IsSegment m) →
      (∀ m ∈ done, IsSegment m) →
      ∀ m ∈ names.foldl (descend (isAbsolute path)) done, IsSegment m := by
    intro names
    induction names with
    | nil => intro done _ hdone; exact hdone
    | cons n names ih =>
        intro done hnames hdone
        refine ih _ (fun m hm => hnames m (by simp [hm])) ?_
        exact hdescend done n hdone (hnames n List.mem_cons_self)
  exact hfold _ _ (fun m hm => isSegment_of_mem hm) (by simp) name h

theorem isAbsolute_append {root : Text} (h : root ≠ []) (rest : Text) :
    isAbsolute (root ++ rest) = isAbsolute root := by
  cases root with
  | nil => exact absurd rfl h
  | cons c root => rfl

/-- What a path from the top of the file system starts with. -/
def lead (path : Text) : Text := if isAbsolute path then [slash] else []

/-- A cleaned path with something left of it, spelt out. -/
theorem clean_eq {path : Text} (h : cleanSegments path ≠ []) :
    clean path = lead path ++ ofSegments (cleanSegments path) := by
  rw [clean, lead]
  split
  · rfl
  · rw [if_neg (by simpa using h)]
    rfl

theorem isAbsolute_clean (path : Text) : isAbsolute (clean path) = isAbsolute path := by
  by_cases hnil : cleanSegments path = []
  · rw [clean, hnil]
    cases isAbsolute path <;> rfl
  · rw [clean_eq hnil, lead]
    cases isAbsolute path with
    | true => rfl
    | false => exact isAbsolute_ofSegments fun n hn => isSegment_of_mem_cleanSegments hn

theorem segments_clean {path : Text} (h : cleanSegments path ≠ []) :
    segments (clean path) = cleanSegments path := by
  have hsegments : segments (ofSegments (cleanSegments path)) = cleanSegments path :=
    segments_ofSegments fun n hn => isSegment_of_mem_cleanSegments hn
  rw [clean_eq h, lead]
  split
  · have hslash := segments_append [] (ofSegments (cleanSegments path))
    rw [List.nil_append] at hslash
    rw [List.singleton_append, hslash, hsegments]
    rfl
  · exact hsegments

theorem cleanSegments_clean (path : Text) : cleanSegments (clean path) = cleanSegments path := by
  by_cases hnil : cleanSegments path = []
  · rw [clean, hnil]
    cases isAbsolute path <;> rfl
  · rw [cleanSegments, segments_clean hnil, isAbsolute_clean]
    exact (isClean_cleanSegments path).foldl_descend

/-! ## Names below a root -/

variable {root : Text} {names : List Text}

theorem cleanSegments_ofSegments (hnames : ∀ n ∈ names, IsName n) :
    cleanSegments (ofSegments names) = names := by
  rw [cleanSegments, segments_ofSegments fun n hn => (hnames n hn).isSegment]
  exact foldl_descend_of_name [] fun n hn => ⟨(hnames n hn).ne_dot, (hnames n hn).ne_dotDot⟩

theorem join_ofSegments (root : Text) (hnames : ∀ n ∈ names, IsName n) (hne : names ≠ []) :
    join root (ofSegments names) = lead root ++ ofSegments (cleanSegments root ++ names) := by
  have hsegment : ∀ n ∈ names, IsSegment n := fun n hn => (hnames n hn).isSegment
  have htext := ofSegments_ne_nil hsegment hne
  have hmore : ∀ n ∈ names, n ≠ dot ∧ n ≠ dotDot := fun n hn =>
    ⟨(hnames n hn).ne_dot, (hnames n hn).ne_dotDot⟩
  rw [join]
  split
  next hroot =>
    have hclean := cleanSegments_ofSegments hnames
    rw [clean_eq (by rwa [hclean]), hclean, hroot, lead,
      isAbsolute_ofSegments hsegment]
    rfl
  next hroot =>
    rw [List.append_assoc, List.singleton_append]
    have habs := isAbsolute_append hroot (slash :: ofSegments names)
    have hclean : cleanSegments (root ++ slash :: ofSegments names) =
        cleanSegments root ++ names := by
      rw [cleanSegments, segments_append, segments_ofSegments hsegment, List.foldl_append, habs]
      exact foldl_descend_of_name _ hmore
    rw [clean_eq (by simp [hclean, hne]), hclean, lead, habs, lead]

theorem isSegment_below (root : Text) (hnames : ∀ n ∈ names, IsName n) :
    ∀ n ∈ cleanSegments root ++ names, IsSegment n := by
  intro n hn
  rcases List.mem_append.mp hn with hn | hn
  · exact isSegment_of_mem_cleanSegments hn
  · exact (hnames n hn).isSegment

theorem isAbsolute_join (root : Text) (hnames : ∀ n ∈ names, IsName n) (hne : names ≠ []) :
    isAbsolute (join root (ofSegments names)) = isAbsolute root := by
  rw [join_ofSegments root hnames hne, lead]
  cases isAbsolute root with
  | true => rfl
  | false => exact isAbsolute_ofSegments (isSegment_below root hnames)

theorem segments_join (root : Text) (hnames : ∀ n ∈ names, IsName n) (hne : names ≠ []) :
    segments (join root (ofSegments names)) = cleanSegments root ++ names := by
  have hsegments := segments_ofSegments (isSegment_below root hnames)
  rw [join_ofSegments root hnames hne, lead]
  split
  · have hslash := segments_append [] (ofSegments (cleanSegments root ++ names))
    rw [List.nil_append] at hslash
    rw [List.singleton_append, hslash, hsegments]
    rfl
  · exact hsegments

theorem cleanSegments_join (root : Text) (hnames : ∀ n ∈ names, IsName n) (hne : names ≠ []) :
    cleanSegments (join root (ofSegments names)) = cleanSegments root ++ names := by
  rw [cleanSegments, segments_join root hnames hne, isAbsolute_join root hnames hne]
  refine IsClean.foldl_descend ((isClean_cleanSegments root).append fun n hn => ?_)
  exact ⟨(hnames n hn).ne_dot, (hnames n hn).ne_dotDot⟩

theorem join_join (root : Text) {more : List Text} (hnames : ∀ n ∈ names, IsName n)
    (hne : names ≠ []) (hmore : ∀ n ∈ more, IsName n) (hmne : more ≠ []) :
    join (join root (ofSegments names)) (ofSegments more) =
      join root (ofSegments (names ++ more)) := by
  have hboth : ∀ n ∈ names ++ more, IsName n := by
    intro n hn
    rcases List.mem_append.mp hn with hn | hn
    · exact hnames n hn
    · exact hmore n hn
  rw [join_ofSegments _ hmore hmne, join_ofSegments root hboth (by simp [hne]),
    cleanSegments_join root hnames hne, lead, isAbsolute_join root hnames hne, List.append_assoc,
    lead]

theorem dropCommon_append (a b : List Text) : dropCommon a (a ++ b) = ([], b) := by
  induction a with
  | nil => cases b <;> rfl
  | cons n a ih => rw [List.cons_append, dropCommon, if_pos rfl, ih]

theorem relative?_join (root : Text) (hnames : ∀ n ∈ names, IsName n) (hne : names ≠ []) :
    relative? root (join root (ofSegments names)) = some (ofSegments names) := by
  have hclean := cleanSegments_join root hnames hne
  have hdifferent : clean root ≠ clean (join root (ofSegments names)) := by
    intro heq
    have hsame := congrArg cleanSegments heq
    rw [cleanSegments_clean, cleanSegments_clean, hclean] at hsame
    exact hne (by simpa using hsame)
  rw [relative?, if_neg hdifferent, isAbsolute_join root hnames hne, hclean, dropCommon_append]
  simp

theorem base_join (root : Text) {parents : List Text} {name : Text}
    (hnames : ∀ n ∈ parents ++ [name], IsName n) :
    base (join root (ofSegments (parents ++ [name]))) = name := by
  have hsegments := segments_join root hnames (by simp)
  have hne : join root (ofSegments (parents ++ [name])) ≠ [] := by
    intro hnil
    rw [hnil] at hsegments
    simp [segments, Text.split] at hsegments
  rw [base, if_neg hne, hsegments, ← List.append_assoc, List.getLast?_concat]

theorem getLast?_join (root : Text) (hnames : ∀ n ∈ names, IsName n) (hne : names ≠ []) :
    (join root (ofSegments names)).getLast? ≠ some slash := by
  have hbelow := isSegment_below root hnames
  have hlast := getLast?_ofSegments hbelow
  have htext := ofSegments_ne_nil hbelow (by simp [hne])
  rw [join_ofSegments root hnames hne, List.getLast?_append]
  rw [List.getLast?_eq_some_getLast htext] at hlast ⊢
  simpa using hlast

/-- An ending without slash is one of the last name. -/
theorem endsWith_join (root : Text) {parents : List Text} {name ending : Text}
    (hnames : ∀ n ∈ parents ++ [name], IsName n) (hending : slash ∉ ending) :
    (join root (ofSegments (parents ++ [name]))).endsWith ending = name.endsWith ending := by
  -- Before the last name there is nothing, or something that ends with a slash.
  have hsplit : ∃ front, join root (ofSegments (parents ++ [name])) = front ++ name ∧
      (front = [] ∨ ∃ start, front = start ++ [slash]) := by
    rw [join_ofSegments root hnames (by simp), ← List.append_assoc (cleanSegments root)]
    by_cases hnone : cleanSegments root ++ parents = []
    · rw [hnone, List.nil_append, lead]
      refine ⟨_, rfl, ?_⟩
      split
      · exact .inr ⟨[], rfl⟩
      · exact .inl rfl
    · refine ⟨lead root ++ ofSegments (cleanSegments root ++ parents) ++ [slash], ?_,
        .inr ⟨_, rfl⟩⟩
      rw [ofSegments_append hnone (by simp)]
      simp [ofSegments, Text.join]
  obtain ⟨front, htext, hfront⟩ := hsplit
  rw [Bool.eq_iff_iff, Text.endsWith_iff, Text.endsWith_iff, htext]
  refine ⟨fun hsuffix => ?_, fun hsuffix => hsuffix.trans (List.suffix_append _ _)⟩
  rcases List.suffix_or_suffix_of_suffix hsuffix (List.suffix_append front name) with h | h
  · exact h
  · obtain ⟨more, rfl⟩ := h
    obtain ⟨start, hstart⟩ := hsuffix
    have hmore : start ++ more = front := by
      rw [← List.append_assoc] at hstart
      exact List.append_cancel_right hstart
    rcases List.eq_nil_or_concat more with rfl | ⟨more, last, rfl⟩
    · exact List.suffix_refl _
    · rcases hfront with rfl | ⟨start', rfl⟩
      · simp at hmore
      · have hlast : last = slash := by
          rw [List.concat_eq_append, ← List.append_assoc] at hmore
          exact (List.append_inj' hmore rfl).2 |> List.head_eq_of_cons_eq
        exact absurd (by simp [hlast]) hending

/-! ## What lies below a directory -/

/-- The path `q` lies below the directory `p`, both seen from the root of a
workspace; all paths lie below the root itself. -/
def Below (p q : Text) : Prop := p = dot ∨ p ++ [slash] <+: q

/-- The path `q` is `p` or lies below it. -/
def Within (p q : Text) : Prop := q = p ∨ Below p q

theorem ofSegments_ne_dot (hnames : ∀ n ∈ names, IsName n) : ofSegments names ≠ dot := by
  intro hdot
  have hsegments := segments_ofSegments fun n hn => (hnames n hn).isSegment
  rw [hdot] at hsegments
  exact (hnames dot (hsegments ▸ List.mem_singleton_self dot)).ne_dot rfl

theorem below_ofSegments_iff {more : List Text} (hnames : ∀ n ∈ names, IsName n)
    (hne : names ≠ []) (hmore : ∀ n ∈ more, IsSegment n) :
    Below (ofSegments names) (ofSegments more) ↔ ∃ rest, rest ≠ [] ∧ more = names ++ rest := by
  have hsegment : ∀ n ∈ names, IsSegment n := fun n hn => (hnames n hn).isSegment
  rw [Below, or_iff_right (ofSegments_ne_dot hnames)]
  constructor
  · rintro ⟨rest, hrest⟩
    rw [List.append_assoc, List.singleton_append] at hrest
    have hsegments : names ++ segments rest = more := by
      rw [← segments_ofSegments hmore, ← hrest, segments_append, segments_ofSegments hsegment]
    refine ⟨segments rest, fun hnil => ?_, hsegments.symm⟩
    rw [hnil, List.append_nil] at hsegments
    simp [hsegments] at hrest
  · rintro ⟨rest, hrest, rfl⟩
    refine ⟨ofSegments rest, ?_⟩
    rw [ofSegments_append hne hrest]
    simp

theorem within_ofSegments_iff {more : List Text} (hnames : ∀ n ∈ names, IsName n)
    (hne : names ≠ []) (hmore : ∀ n ∈ more, IsSegment n) :
    Within (ofSegments names) (ofSegments more) ↔ names <+: more := by
  rw [Within, below_ofSegments_iff hnames hne hmore]
  constructor
  · rintro (hsame | ⟨rest, -, rfl⟩)
    · obtain rfl := ofSegments_inj hmore (fun n hn => (hnames n hn).isSegment) hsame
      exact List.prefix_refl _
    · exact List.prefix_append _ _
  · rintro ⟨rest, rfl⟩
    by_cases hrest : rest = []
    · exact .inl (by rw [hrest, List.append_nil])
    · exact .inr ⟨rest, hrest, rfl⟩

end Path

end Zensight
