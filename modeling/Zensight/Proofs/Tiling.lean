import Mathlib.Data.List.Induction
import Zensight.Proofs.Scanning.Lexemes

/-!
# Tokens tile the script

Every byte of a script up to its end belongs to a token or to the layout
between two tokens, and the place of a token is that of its first byte, counted
from the start of the script. A `Tile` is a token with the offsets between which
it stands, and every token of a script has its tile.

The scanner never counts from the start: it moves a place over the bytes it
passes. `Place.start_after` relates the two once, for any text, so that what is
left to show is which bytes are passed.
-/

namespace Zensight

namespace Place

/-- The place of the byte at an offset of a text. -/
def ofOffset (s : Text) (offset : Nat) : Place where
  line := (s.take offset).count (byte '\n') + 1
  column := ((s.take offset).reverse.takeWhile (· != byte '\n')).length + 1

theorem after_append (p : Place) (s t : Text) : p.after (s ++ t) = (p.after s).after t :=
  List.foldl_append

theorem start_after (s : Text) :
    start.after s =
      ⟨s.count (byte '\n') + 1, (s.reverse.takeWhile (· != byte '\n')).length + 1⟩ := by
  induction s using List.reverseRecOn with
  | nil => rfl
  | append_singleton s c ih =>
      rw [after_append, ih]
      by_cases hc : c = byte '\n' <;> simp [after, next, hc]

theorem ofOffset_eq (s : Text) (i : Nat) : ofOffset s i = start.after (s.take i) :=
  (start_after _).symm

theorem ofOffset_zero (s : Text) : ofOffset s 0 = start := by
  rw [ofOffset_eq, List.take_zero]
  rfl

theorem ofOffset_add (s : Text) (i n : Nat) :
    ofOffset s (i + n) = (ofOffset s i).after ((s.drop i).take n) := by
  rw [ofOffset_eq, ofOffset_eq, List.take_add, after_append]

/-- A text that stays on its line moves a place by its length. -/
theorem after_of_onLine (p : Place) {s : Text} (h : ∀ c ∈ s, Token.endsLine c = false) :
    p.after s = ⟨p.line, p.column + s.length⟩ := by
  induction s generalizing p with
  | nil => rfl
  | cons c s ih =>
      have hc : c ≠ byte '\n' := by
        rintro rfl
        exact absurd (h _ List.mem_cons_self) (by decide)
      have hnext : p.next c = ⟨p.line, p.column + 1⟩ := by rw [next, if_neg hc]
      rw [show p.after (c :: s) = (p.next c).after s from rfl,
        ih _ fun b hb => h b (List.mem_cons_of_mem _ hb), hnext]
      simp only [List.length_cons]
      congr 1
      omega

theorem ofOffset_le {s : Text} {i j : Nat} (h : i ≤ j) : ofOffset s i ≤ ofOffset s j := by
  rw [show j = i + (j - i) by omega, ofOffset_add]
  exact not_isBefore_after _ _

end Place

namespace Token

/-- The offset at which a script ends: that of its first NUL byte, or its
length. -/
def endOffset (s : Text) : Nat := s.findIdx (· == 0)

/-- A token and the offsets between which it stands. -/
structure Tile where
  token : Token
  start : Nat
  stop : Nat

namespace Tile

/-- What the bytes of a tile have to do with its token. -/
structure Fits (x : Tile) (s : Text) : Prop where
  kind_ne : x.token.kind ≠ .eof
  start_lt : x.start < x.stop
  stop_le : x.stop ≤ endOffset s
  place_eq : x.token.place = .ofOffset s x.start
  quiet : ∀ c ∈ s.extract x.start x.stop, endsLine c = false
  literal_eq : x.token.kind ≠ .illegal → s.extract x.start x.stop = x.token.literal
  illegal : x.token.kind = .illegal →
    (x.stop = x.start + 1 ∧ ∀ c ∈ s[x.start]?, ¬ IsQuote c) ∨ Unterminated s x.start x.stop
  read : ∃ c rest, s.drop x.start = c :: rest ∧
    Lexeme.read c (c :: rest) = ⟨x.token.kind, x.token.literal, x.stop - x.start⟩

end Tile

/-- The tiles of a script from an offset on, layout between them. -/
inductive Tiled (s : Text) : Nat → List Tile → Prop where
  | nil {i : Nat} : i ≤ endOffset s →
      Layout (s.extract i (endOffset s)) (s.drop (endOffset s)) → Tiled s i []
  | cons {i : Nat} {x : Tile} {tiles : List Tile} : i ≤ x.start →
      Layout (s.extract i x.start) (s.drop x.start) → x.Fits s → Tiled s x.stop tiles →
      Tiled s i (x :: tiles)

theorem Comment.goesOn {w rest : Text} (h : Comment w rest) : ∀ c ∈ w, c ≠ 0 := by
  have hline {body : Text} (hbody : ∀ c ∈ body, endsLine c = false) : ∀ c ∈ body, c ≠ 0 := by
    intro c hc h0
    rw [h0] at hc
    exact absurd (hbody 0 hc) (by decide)
  cases h with
  | hash hbody | slashes hbody => simpa using ⟨by decide, hline hbody⟩
  | closed hbody | unclosed hbody =>
      have := hbody.goesOn
      simp_all [commentEnd, or_imp, forall_and]
      decide

theorem Layout.goesOn {gap rest : Text} (h : Layout gap rest) : ∀ c ∈ gap, c ≠ 0 := by
  induction h with
  | nil => simp
  | @blank c _ _ hblank _ ih =>
      have hc : c ≠ 0 := by rintro rfl; cases hblank
      simpa [hc] using ih
  | comment hw _ ih =>
      intro c hc
      exact (List.mem_append.mp hc).elim (hw.goesOn c) (ih c)

theorem blankLength_le (mode : BlankMode) (s : Text) : blankLength mode s ≤ s.length := by
  fun_induction blankLength mode s <;> grind

/-- No blank is left in front of a token. -/
theorem blankLength_stops (mode : BlankMode) (s : Text) :
    ∀ c ∈ (s.drop (blankLength mode s)).head?, isBlank c = false := by
  fun_induction blankLength mode s with
  | case1 => simp
  | case6 c s hblank => simpa using hblank
  | case7 | case11 => simpa using (by decide : isBlank 0 = false)
  | _ => assumption

/-- The script has not ended before an offset. -/
structure Inside (s : Text) (i : Nat) : Prop where
  le_length : i ≤ s.length
  goesOn : ∀ c ∈ s.take i, c ≠ 0

namespace Inside

variable {s : Text} {i n : Nat}

theorem add (h : Inside s i) (hn : n ≤ (s.drop i).length)
    (hgoes : ∀ c ∈ (s.drop i).take n, c ≠ 0) : Inside s (i + n) where
  le_length := by
    have hle := h.le_length
    rw [List.length_drop] at hn
    omega
  goesOn c hc := by
    rw [List.take_add, List.mem_append] at hc
    exact hc.elim (h.goesOn c) (hgoes c)

theorem addOnLine (h : Inside s i) (hn : OnLine (s.drop i) n) : Inside s (i + n) := by
  refine h.add hn.le_length fun c hc => ?_
  rintro rfl
  exact absurd (hn.quiet 0 hc) (by decide)

theorem endOffset_eq (h : Inside s i) : endOffset s = endOffset (s.drop i) + i := by
  have hnone : ¬ (s.take i).findIdx (· == 0) < (s.take i).length := by
    rw [List.findIdx_lt_length]
    intro ⟨c, hc, h0⟩
    exact h.goesOn c hc (beq_iff_eq.mp h0)
  conv_lhs => rw [endOffset, ← List.take_append_drop i s]
  rw [List.findIdx_append, if_neg hnone, List.length_take, Nat.min_eq_left h.le_length]
  rfl

theorem endOffset_of_atEnd (h : Inside s i) (hend : AtEnd (s.drop i)) : endOffset s = i := by
  rw [h.endOffset_eq]
  cases hs : s.drop i with
  | nil => exact Nat.zero_add i
  | cons c rest =>
      obtain rfl : c = 0 := hend c (by rw [hs]; rfl)
      exact Nat.zero_add i

end Inside

theorem extract_add (s : Text) (i n : Nat) : s.extract i (i + n) = (s.drop i).take n := by simp

/-- A lexeme that stands at an offset makes a tile. -/
theorem Lexeme.Covers.fits {s : Text} {i : Nat} {x : Lexeme} (h : x.Covers (s.drop i))
    (hlen : 0 < x.length) (hkind : x.kind ≠ .eof) (hi : Inside s i)
    (hread : ∃ c rest, s.drop i = c :: rest ∧ Lexeme.read c (c :: rest) = x) :
    Tile.Fits ⟨⟨x.kind, x.literal, .ofOffset s i⟩, i, i + x.length⟩ s where
  kind_ne := hkind
  start_lt := Nat.lt_add_of_pos_right hlen
  stop_le := by
    rw [(hi.addOnLine h.onLine).endOffset_eq]
    exact Nat.le_add_left _ _
  place_eq := rfl
  quiet := by rw [extract_add]; exact h.onLine.quiet
  literal_eq hillegal := by rw [extract_add]; exact h.literal_eq hillegal
  illegal hillegal := by
    rcases h.illegal hillegal with ⟨hone, hquote⟩ | hopen
    · refine .inl ⟨by rw [hone], ?_⟩
      rwa [List.head?_drop] at hquote
    · refine .inr ⟨by simpa using hopen.opens, ?_, ?_⟩
      · rw [extract_add]
        simpa using hopen.quiet
      · have hends := hopen.ends
        rwa [List.drop_drop] at hends
  read := by
    rw [Nat.add_sub_cancel_left]
    exact hread

/-- The tokens from an offset on have tiles. One round of the loop takes the
layout before a token and the token, and goes on behind it. -/
theorem scanFrom_tiled (s : Text) : ∀ (fuel i : Nat), Inside s i → s.length < fuel + i →
    ∃ tiles, Tiled s i tiles ∧ scanFrom fuel (.ofOffset s i) (s.drop i) =
      tiles.map (·.token) ++ [⟨.eof, [], .ofOffset s (endOffset s)⟩] := by
  intro fuel
  induction fuel with
  | zero =>
      intro i hi hfuel
      have hle := hi.le_length
      omega
  | succ fuel ih =>
      intro i hi hfuel
      have hlayout := blankLength_layout (s.drop i)
      have hstops := blankLength_stops .between (s.drop i)
      have hin := hi.add (blankLength_le .between (s.drop i)) hlayout.goesOn
      rw [scanFrom]
      generalize blankLength .between (s.drop i) = n at hlayout hstops hin
      rw [List.drop_drop] at hlayout hstops
      rw [← extract_add] at hlayout
      dsimp only
      rw [← Place.ofOffset_add, List.drop_drop]
      have hdone (hend : AtEnd (s.drop (i + n))) : ∃ tiles, Tiled s i tiles ∧
          [(⟨.eof, [], .ofOffset s (i + n)⟩ : Token)] =
            tiles.map (·.token) ++ [⟨.eof, [], .ofOffset s (endOffset s)⟩] := by
        have hstop := hin.endOffset_of_atEnd hend
        rw [hstop]
        exact ⟨[], .nil (by omega) (by rwa [hstop]), rfl⟩
      split
      · next hnil => exact hdone (by simp [hnil, AtEnd])
      · next c rest hcons =>
          split
          · next h0 => exact hdone (by simp [hcons, AtEnd, h0])
          · next h0 =>
              have hc : endsLine c = false := by
                rw [endsLine, Bool.or_eq_false_iff, beq_eq_false_iff_ne, beq_eq_false_iff_ne]
                refine ⟨h0, ?_⟩
                rintro rfl
                exact absurd (hstops _ (by rw [hcons]; rfl)) (by decide)
              have hcovers := Lexeme.read_covers hc rest
              have hpos := Lexeme.read_length_pos c rest
              have hkind := (Lexeme.read_spells c rest).ne_eof
              generalize hread : Lexeme.read c (c :: rest) = x at hcovers hpos hkind
              rw [← hcons] at hcovers
              have hnext := hin.addOnLine hcovers.onLine
              obtain ⟨tiles, htiles, hscan⟩ := ih (i + n + x.length) hnext (by omega)
              refine ⟨_ :: tiles, .cons (Nat.le_add_right i n) hlayout
                (hcovers.fits hpos hkind hin ⟨c, rest, hcons, hread⟩) htiles, ?_⟩
              rw [← hcons, ← Place.ofOffset_add, List.drop_drop, hscan]
              rfl

/-- The tokens of a script have tiles that begin at its start. -/
theorem scan_tiled (s : Text) : ∃ tiles, Tiled s 0 tiles ∧
    scan s = tiles.map (·.token) ++ [⟨.eof, [], .ofOffset s (endOffset s)⟩] := by
  have h := scanFrom_tiled s (s.length + 1) 0 ⟨Nat.zero_le _, by simp⟩ (by omega)
  rwa [Place.ofOffset_zero, List.drop_zero] at h

namespace Tiled

variable {s : Text} {i : Nat} {tiles : List Tile}

theorem fits (h : Tiled s i tiles) : ∀ x ∈ tiles, x.Fits s := by
  induction h with
  | nil => simp
  | cons _ _ hx _ ih => simpa [hx] using ih

theorem le_start (h : Tiled s i tiles) : ∀ x ∈ tiles, i ≤ x.start := by
  induction h with
  | nil => simp
  | @cons i x tiles hle _ hx _ ih =>
      intro y hy
      rcases List.mem_cons.mp hy with rfl | hy
      · exact hle
      · have hlt := hx.start_lt
        have hle' := ih y hy
        omega

theorem pairwise (h : Tiled s i tiles) : tiles.Pairwise fun x y => x.stop ≤ y.start := by
  induction h with
  | nil => exact .nil
  | cons _ _ _ htiles ih => exact .cons htiles.le_start ih

/-- Between the end of each tile and the start of the next stands layout. -/
theorem gaps (h : Tiled s i tiles) :
    ∀ gap ∈ (i :: tiles.map (·.stop)).zip (tiles.map (·.start) ++ [endOffset s]),
      gap.1 ≤ gap.2 ∧ Layout (s.extract gap.1 gap.2) (s.drop gap.2) := by
  induction h with
  | nil hle hlayout =>
      intro gap hgap
      obtain rfl := List.mem_singleton.mp hgap
      exact ⟨hle, hlayout⟩
  | cons hle hlayout _ _ ih =>
      intro gap hgap
      rcases List.mem_cons.mp hgap with rfl | hgap
      · exact ⟨hle, hlayout⟩
      · exact ih gap hgap

end Tiled

/-- Tokens tile the script. Every byte string has tokens, of which the last and
only the last ends the script, where its first NUL byte or its end is; the others
stand at growing offsets before that. The place of each token counts the lines
and the bytes before it; the bytes of a token are its literal, unless it is
illegal, when it is one byte or a string up to the end of its line; and nothing
but layout stands between two tokens. -/
theorem scan_tiles (s : Text) : ∃ tiles : List Tile,
    scan s = tiles.map (·.token) ++ [⟨.eof, [], .ofOffset s (endOffset s)⟩] ∧
    (∀ x ∈ tiles, x.token.kind ≠ .eof ∧ x.start < x.stop ∧ x.stop ≤ endOffset s) ∧
    (tiles.Pairwise fun x y => x.stop ≤ y.start) ∧
    (∀ x ∈ tiles, x.token.place = .ofOffset s x.start) ∧
    (∀ x ∈ tiles, x.token.kind ≠ .illegal → s.extract x.start x.stop = x.token.literal) ∧
    (∀ x ∈ tiles, x.token.kind = .illegal →
      (x.stop = x.start + 1 ∧ ∀ c ∈ s[x.start]?, ¬ IsQuote c) ∨
        Unterminated s x.start x.stop) ∧
    ∀ gap ∈ (0 :: tiles.map (·.stop)).zip (tiles.map (·.start) ++ [endOffset s]),
      gap.1 ≤ gap.2 ∧ Layout (s.extract gap.1 gap.2) (s.drop gap.2) := by
  obtain ⟨tiles, htiles, hscan⟩ := scan_tiled s
  have hfits := htiles.fits
  exact ⟨tiles, hscan, fun x hx => ⟨(hfits x hx).kind_ne, (hfits x hx).start_lt,
    (hfits x hx).stop_le⟩, htiles.pairwise, fun x hx => (hfits x hx).place_eq,
    fun x hx => (hfits x hx).literal_eq, fun x hx => (hfits x hx).illegal, htiles.gaps⟩

end Token

end Zensight
