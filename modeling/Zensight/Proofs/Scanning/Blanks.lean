import Zensight.Token.Scan

/-!
# What stands between tokens

`Token.blankLength` runs over the bytes in front of a token and keeps a mode.
What it runs over is a `Layout`: blanks and whole comments, in any order. A
comment is described as such and not by the modes. One that starts with a hash
or two slashes takes up the rest of its line; one that starts with a slash and
an asterisk goes on to the first asterisk with a slash behind it, over any
number of lines. A comment that nothing closes is ended by the end of the
script, which is the end of the text or a NUL byte.

`blankLength_layout` says so for scripts; it is an instance of
`blankLength_reaches`, which says what each mode has still to find.
-/

namespace Zensight.Token

/-- Does the script end where this is the text ahead? -/
def AtEnd (s : Text) : Prop := ∀ c ∈ s.head?, c = 0

/-- Does the line end where this is the text ahead? -/
def AtLineEnd (s : Text) : Prop := ∀ c ∈ s.head?, endsLine c = true

/-- The two bytes that close a comment. -/
def commentEnd : Text := [byte '*', byte '/']

/-- Bytes that can stand in a comment of several lines. -/
structure Within (body : Text) : Prop where
  unclosed : ¬ commentEnd <:+: body
  goesOn : ∀ c ∈ body, c ≠ 0

/-- A comment, and the text behind it. -/
inductive Comment : Text → Text → Prop where
  | hash {body rest : Text} :
      (∀ c ∈ body, endsLine c = false) → AtLineEnd rest → Comment (byte '#' :: body) rest
  | slashes {body rest : Text} :
      (∀ c ∈ body, endsLine c = false) → AtLineEnd rest →
      Comment (byte '/' :: byte '/' :: body) rest
  | closed {body rest : Text} :
      Within body → Comment (byte '/' :: byte '*' :: body ++ commentEnd) rest
  | unclosed {body rest : Text} :
      Within body → AtEnd rest → Comment (byte '/' :: byte '*' :: body) rest

/-- Blanks and comments, and the text behind them. -/
inductive Layout : Text → Text → Prop where
  | nil {rest : Text} : Layout [] rest
  | blank {c : UInt8} {gap rest : Text} :
      isBlank c = true → Layout gap rest → Layout (c :: gap) rest
  | comment {w gap rest : Text} :
      Comment w (gap ++ rest) → Layout gap rest → Layout (w ++ gap) rest

/-- What stands before a token, from within a comment that its line ends. -/
def LineTail (gap rest : Text) : Prop :=
  ∃ body gap', gap = body ++ gap' ∧ (∀ c ∈ body, endsLine c = false) ∧
    AtLineEnd (gap' ++ rest) ∧ Layout gap' rest

/-- What stands before a token, from within a comment of several lines. -/
def BlockTail (gap rest : Text) : Prop :=
  (∃ body gap', gap = body ++ commentEnd ++ gap' ∧ Within body ∧ Layout gap' rest) ∨
    (Within gap ∧ AtEnd rest)

/-- What is still to come in each mode. In the modes for the two signs of a
delimiter, its second sign is. -/
def BlankMode.Reaches : BlankMode → Text → Text → Prop
  | between => Layout
  | line => LineTail
  | block => BlockTail
  | opening => fun gap rest => ∀ c gap', gap = c :: gap' → BlockTail gap' rest
  | closing => fun gap rest => ∀ c gap', gap = c :: gap' → Layout gap' rest

theorem within_nil : Within [] := ⟨by simp [commentEnd], by simp⟩

theorem commentEnd_isPrefix {c : UInt8} {s : Text} :
    commentEnd <+: c :: s ↔ c = byte '*' ∧ s.head? = some (byte '/') := by
  cases s with
  | nil => simp [commentEnd]
  | cons d s => simp [commentEnd, List.cons_prefix_cons, eq_comm]

/-- A comment goes on over a byte that does not begin its end. -/
theorem Within.cons {c : UInt8} {body s : Text} (h : Within body) (hbody : body <+: s)
    (hc : c ≠ 0) (hopen : ¬ (c = byte '*' ∧ s.head? = some (byte '/'))) :
    Within (c :: body) where
  unclosed hinfix := by
    rw [List.infix_cons_iff] at hinfix
    rcases hinfix with hprefix | hinfix
    · have hs : commentEnd <+: c :: s := hprefix.trans ((List.prefix_cons_inj c).mpr hbody)
      exact hopen (commentEnd_isPrefix.mp hs)
    · exact h.unclosed hinfix
  goesOn b hb := by
    rcases List.mem_cons.mp hb with rfl | hb
    · exact hc
    · exact h.goesOn b hb

/-- The rest of a line behind two slashes begins with the second of them. -/
theorem comment_of_slash {s body gap rest : Text} (hs : s = body ++ (gap ++ rest))
    (hhead : s.head? = some (byte '/')) (hbody : ∀ c ∈ body, endsLine c = false)
    (hend : AtLineEnd (gap ++ rest)) : Comment (byte '/' :: body) (gap ++ rest) := by
  cases body with
  | nil =>
      rw [hs, List.nil_append] at hhead
      exact absurd (hend (byte '/') hhead) (by decide)
  | cons d body =>
      rw [hs] at hhead
      obtain rfl : d = byte '/' := by simpa using hhead
      exact .slashes (fun c hc => hbody c (List.mem_cons_of_mem _ hc)) hend

/-- What follows the slash that opens a comment of several lines. -/
theorem layout_of_opening {s gap rest : Text} (hs : s = gap ++ rest)
    (hhead : s.head? = some (byte '*')) (hne : gap ≠ [])
    (h : BlankMode.opening.Reaches gap rest) : Layout (byte '/' :: gap) rest := by
  cases gap with
  | nil => exact absurd rfl hne
  | cons d gap =>
      rw [hs] at hhead
      obtain rfl : d = byte '*' := by simpa using hhead
      rcases h _ _ rfl with ⟨body, gap', rfl, hbody, hgap⟩ | ⟨hbody, hend⟩
      · have hcomment : Comment (byte '/' :: byte '*' :: body ++ commentEnd) (gap' ++ rest) :=
          .closed hbody
        simpa using Layout.comment hcomment hgap
      · have hcomment : Comment (byte '/' :: byte '*' :: gap) ([] ++ rest) := .unclosed hbody hend
        simpa using Layout.comment hcomment .nil

/-- Each mode finds what is still to come in it. -/
theorem blankLength_reaches (mode : BlankMode) (s : Text) :
    mode.Reaches (s.take (blankLength mode s)) (s.drop (blankLength mode s)) := by
  fun_induction blankLength mode s with
  | case1 mode =>
      cases mode with
      | between => exact Layout.nil
      | line => exact ⟨[], [], rfl, by simp, by simp [AtLineEnd], .nil⟩
      | block => exact Or.inr ⟨within_nil, by simp [AtEnd]⟩
      | opening | closing => simp [BlankMode.Reaches]
  | case2 c s hblank ih => exact Layout.blank hblank ih
  | case3 s _ ih =>
      obtain ⟨body, gap, hgap, hbody, hend, hlayout⟩ := ih
      show Layout (byte '#' :: s.take _) _
      rw [hgap]
      exact Layout.comment (.hash hbody hend) hlayout
  | case4 c s _ _ hslash ih =>
      obtain ⟨rfl, hhead⟩ := hslash
      obtain ⟨body, gap, hgap, hbody, hend, hlayout⟩ := ih
      have hs : s = body ++ (gap ++ s.drop (blankLength .line s)) := by
        rw [← List.append_assoc, ← hgap, List.take_append_drop]
      show Layout (byte '/' :: s.take _) _
      rw [hgap]
      exact Layout.comment (comment_of_slash hs hhead hbody hend) hlayout
  | case5 c s _ _ _ hstar ih =>
      obtain ⟨rfl, hhead⟩ := hstar
      refine layout_of_opening (List.take_append_drop _ s).symm hhead ?_ ih
      cases s with
      | nil => cases hhead
      | cons d s => simp [blankLength]
  | case6 => exact Layout.nil
  | case7 => exact ⟨[], [], rfl, by simp, by simp [AtLineEnd, endsLine], .nil⟩
  | case8 s _ ih =>
      exact ⟨[], _, rfl, by simp, by simp [AtLineEnd, endsLine], .blank rfl ih⟩
  | case9 c s h0 hn ih =>
      obtain ⟨body, gap, hgap, hbody, hend, hlayout⟩ := ih
      refine ⟨c :: body, gap, by simp [hgap], ?_, hend, hlayout⟩
      simpa [endsLine, h0, hn] using hbody
  | case10 d s ih =>
      intro c gap hgap
      cases hgap
      exact ih
  | case11 => exact Or.inr ⟨within_nil, by simp [AtEnd]⟩
  | case12 c s _ hstar ih =>
      obtain ⟨rfl, hhead⟩ := hstar
      cases s with
      | nil => cases hhead
      | cons d s =>
          obtain rfl : d = byte '/' := by simpa using hhead
          exact Or.inl ⟨[], _, rfl, within_nil, ih _ _ rfl⟩
  | case13 c s h0 hopen ih =>
      rcases ih with ⟨body, gap, hgap, hbody, hlayout⟩ | ⟨hbody, hend⟩
      · have hprefix : body <+: s := by
          refine List.IsPrefix.trans ?_ (List.take_prefix (blankLength .block s) s)
          rw [hgap, List.append_assoc]
          exact List.prefix_append ..
        exact Or.inl ⟨c :: body, gap, by simp [hgap], hbody.cons hprefix h0 hopen, hlayout⟩
      · exact Or.inr ⟨hbody.cons (List.take_prefix ..) h0 hopen, hend⟩
  | case14 d s ih =>
      intro c gap hgap
      cases hgap
      exact ih

/-- What stands before the first token of a text are blanks and comments. -/
theorem blankLength_layout (s : Text) :
    Layout (s.take (blankLength .between s)) (s.drop (blankLength .between s)) :=
  blankLength_reaches .between s

end Zensight.Token
