import Zensight.Proofs.Scanning
import Zensight.Proofs.Scanning.Blanks

/-!
# What a lexeme covers

A lexeme is cut off by its length. Whatever its kind, the bytes it takes are all
there and lie on one line: none of them is a NUL byte or ends the line. For all
kinds but `illegal` they are the literal. An illegal lexeme is one byte that
starts nothing, or a string that its line does not close.

Which strings are closed is said by `StringBody`, the text that can stand between
two quotes, and not by the search for the closing quote; `stringEnd_finds` says
that the search finds a closing quote if there is one.
-/

namespace Zensight.Token

/-- The first `n` bytes of a text are there and stay on their line. -/
structure OnLine (s : Text) (n : Nat) : Prop where
  le_length : n ≤ s.length
  quiet : ∀ c ∈ s.take n, endsLine c = false

/-- A class of bytes without the two that end a line. -/
theorem endsLine_of_class {p : UInt8 → Bool} (h0 : p 0 = false) (hn : p (byte '\n') = false)
    {c : UInt8} (hc : p c = true) : endsLine c = false := by
  rw [endsLine, Bool.or_eq_false_iff, beq_eq_false_iff_ne, beq_eq_false_iff_ne]
  refine ⟨?_, ?_⟩ <;> rintro rfl
  · rw [h0] at hc; cases hc
  · rw [hn] at hc; cases hc

namespace OnLine

theorem zero (s : Text) : OnLine s 0 := ⟨Nat.zero_le _, by simp⟩

theorem one {s : Text} {c : UInt8} (hs : s.head? = some c) (hc : endsLine c = false) :
    OnLine s 1 := by
  cases s with
  | nil => cases hs
  | cons d s =>
      cases hs
      exact ⟨by simp, by simpa using hc⟩

theorem add {s : Text} {m n : Nat} (h : OnLine s m) (h' : OnLine (s.drop m) n) :
    OnLine s (m + n) := by
  refine ⟨?_, fun c hc => ?_⟩
  · have hle := h.le_length
    have hle' := h'.le_length
    rw [List.length_drop] at hle'
    omega
  · rw [List.take_add, List.mem_append] at hc
    exact hc.elim (h.quiet c) (h'.quiet c)

theorem cons {c : UInt8} {s : Text} {n : Nat} (hc : endsLine c = false) (h : OnLine s n) :
    OnLine (c :: s) (n + 1) := by
  rw [Nat.add_comm]
  exact (one rfl hc).add h

theorem run {p : UInt8 → Bool} (h0 : p 0 = false) (hn : p (byte '\n') = false) (s : Text) :
    OnLine s (Token.run p s) := by
  have htake : s.take (Token.run p s) = s.takeWhile p :=
    (List.prefix_iff_eq_take.mp (List.takeWhile_prefix p)).symm
  refine ⟨(List.takeWhile_prefix p).length_le, fun c hc => endsLine_of_class h0 hn ?_⟩
  rw [htake] at hc
  exact List.all_eq_true.mp List.all_takeWhile c hc

/-- One of two signs that may stand next. -/
theorem either {a b : Char} {s : Text} (h : startsWithEither a b s = true)
    (ha : endsLine (byte a) = false) (hb : endsLine (byte b) = false) : OnLine s 1 := by
  rw [startsWithEither, Bool.or_eq_true, beq_iff_eq, beq_iff_eq] at h
  exact h.elim (one · ha) (one · hb)

end OnLine

theorem onLine_fractionLength (s : Text) : OnLine s (fractionLength s) := by
  rw [fractionLength]
  split
  · next h =>
      have hdigits : OnLine (s.drop 1) (run Text.isDigit s.tail) := by
        rw [List.drop_one]
        exact .run rfl rfl _
      exact (OnLine.one h.1 rfl).add hdigits
  · exact .zero s

theorem onLine_exponentLength (s : Text) : OnLine s (exponentLength s) := by
  have hdigits (s : Text) : OnLine s (run Text.isDigit s) := .run rfl rfl s
  rw [exponentLength]
  split
  · next he =>
      have he := OnLine.either he rfl rfl
      split
      · next hsign =>
          rw [← List.drop_one] at hsign
          have hsigned := he.add (OnLine.either hsign rfl rfl)
          exact hsigned.add (hdigits _)
      · split
        · rw [← List.drop_one]
          exact he.add (hdigits _)
        · exact .zero s
  · exact .zero s

theorem onLine_numeral (s : Text) : OnLine s (numeral s).2 := by
  rw [numeral]
  split
  · next h =>
      rw [← List.drop_one] at h
      have hprefix : OnLine s 2 := (OnLine.one h.1 rfl).add (OnLine.either h.2 rfl rfl)
      have hdigits := hprefix.add (OnLine.run (p := Text.isHexDigit) rfl rfl _)
      dsimp only
      split
      · next hl => exact hdigits.add (.either hl rfl rfl)
      · exact hdigits
  · extract_lets whole fraction exponent n kind rest
    have hwhole : OnLine s whole := .run rfl rfl s
    have hn : OnLine s n := (hwhole.add (onLine_fractionLength _)).add (onLine_exponentLength _)
    split
    · next h => exact hn.add (.either h.1 rfl rfl)
    · split
      · next h => exact hn.add (.either h rfl rfl)
      · split
        · next h => exact hn.add (.either h rfl rfl)
        · exact hn

/-! ## Strings -/

/-- May a string begin with this byte? -/
def IsQuote (c : UInt8) : Prop := c = byte '"' ∨ c = byte '\''

/-- What can stand between two quotes: bytes that end neither the string nor the
line, and backslashes, each with the byte that it takes along. -/
inductive StringBody (quote : UInt8) : Text → Prop where
  | nil : StringBody quote []
  | plain {c : UInt8} {body : Text} :
      endsLine c = false → c ≠ quote → c ≠ byte '\\' → StringBody quote body →
      StringBody quote (c :: body)
  | escape {c : UInt8} {body : Text} :
      endsLine c = false → StringBody quote body → StringBody quote (byte '\\' :: c :: body)

theorem StringBody.quiet {quote : UInt8} {body : Text} (h : StringBody quote body) :
    ∀ c ∈ body, endsLine c = false := by
  induction h with
  | nil => simp
  | plain hc _ _ _ ih => simpa [hc] using ih
  | escape hc _ ih => simpa [hc] using ⟨by decide, ih⟩

/-- What the search for a closing quote finds. -/
def StringEnd.Finds (quote : UInt8) (s : Text) : StringEnd → Prop
  | closed n => ∃ body, StringBody quote body ∧ s.take n = body ++ [quote] ∧ n = body.length + 1
  | unterminated n => OnLine s n ∧ AtLineEnd (s.drop n) ∧
      ∀ body, StringBody quote body → ¬ body ++ [quote] <+: s

namespace StringEnd.Finds

variable {quote c : UInt8} {s : Text} {e : StringEnd}

theorem plain (hc : endsLine c = false) (hq : c ≠ quote) (hb : c ≠ byte '\\')
    (h : e.Finds quote s) : (e.add 1).Finds quote (c :: s) := by
  cases e with
  | closed n =>
      obtain ⟨body, hbody, htake, hn⟩ := h
      exact ⟨c :: body, .plain hc hq hb hbody, by simp [htake], by simp [hn]⟩
  | unterminated n =>
      obtain ⟨hline, hend, hopen⟩ := h
      refine ⟨hline.cons hc, by simpa using hend, fun body hbody hprefix => ?_⟩
      cases hbody with
      | nil => exact hq (List.cons_prefix_cons.mp hprefix).1.symm
      | plain _ _ _ hbody => exact hopen _ hbody (List.cons_prefix_cons.mp hprefix).2
      | escape => exact hb (List.cons_prefix_cons.mp hprefix).1.symm

theorem escape (hc : endsLine c = false) (hq : byte '\\' ≠ quote) (h : e.Finds quote s) :
    (e.add 2).Finds quote (byte '\\' :: c :: s) := by
  cases e with
  | closed n =>
      obtain ⟨body, hbody, htake, hn⟩ := h
      exact ⟨byte '\\' :: c :: body, .escape hc hbody, by simp [htake], by simp [hn]⟩
  | unterminated n =>
      obtain ⟨hline, hend, hopen⟩ := h
      refine ⟨(hline.cons hc).cons (by decide), by simpa using hend, fun body hbody hprefix => ?_⟩
      cases hbody with
      | nil => exact hq (List.cons_prefix_cons.mp hprefix).1.symm
      | plain _ _ hb _ => exact hb (List.cons_prefix_cons.mp hprefix).1
      | escape _ hbody =>
          exact hopen _ hbody (List.cons_prefix_cons.mp (List.cons_prefix_cons.mp hprefix).2).2

/-- At the end of the line nothing closes a string. -/
theorem atLineEnd (hq : endsLine quote = false) (hend : AtLineEnd s) :
    (unterminated 0).Finds quote s := by
  refine ⟨.zero s, by simpa using hend, fun body hbody hprefix => ?_⟩
  obtain ⟨rest, rfl⟩ := hprefix
  cases body with
  | nil => exact absurd (hend quote rfl) (by simp [hq])
  | cons c body =>
      have hc := hend c rfl
      rw [hbody.quiet c List.mem_cons_self] at hc
      cases hc

end StringEnd.Finds

theorem stringEnd_finds {quote : UInt8} (hquote : IsQuote quote) (s : Text) :
    (stringEnd quote s).Finds quote s := by
  have hq : endsLine quote = false := by rcases hquote with rfl | rfl <;> rfl
  have hbackslash : byte '\\' ≠ quote := by rcases hquote with rfl | rfl <;> decide
  have hnil : (StringEnd.unterminated 0).Finds quote [] := .atLineEnd hq (by simp [AtLineEnd])
  fun_induction stringEnd quote s with
  | case1 => exact hnil
  | case2 => exact ⟨[], .nil, rfl, rfl⟩
  | case3 c hc =>
      by_cases hend : endsLine c = true
      · rw [if_pos hend]
        exact .atLineEnd hq (by simpa [AtLineEnd] using hend)
      · rw [if_neg hend]
        refine ⟨.one rfl (by simpa using hend), by simp [AtLineEnd], fun body hbody hprefix => ?_⟩
        -- A closing quote would be the only byte there is.
        cases body with
        | nil => exact hc (List.cons_prefix_cons.mp hprefix).1.symm
        | cons d body => simpa using hprefix.length_le
  | case4 c d s hend => exact .atLineEnd hq (by simpa [AtLineEnd] using hend)
  | case5 => exact ⟨[], .nil, rfl, rfl⟩
  | case6 d s hend =>
      have hd : AtLineEnd (d :: s) := by simpa [AtLineEnd] using hend
      refine ⟨.one rfl rfl, hd, fun body hbody hprefix => ?_⟩
      cases hbody with
      | nil => exact hbackslash (List.cons_prefix_cons.mp hprefix).1.symm
      | plain _ _ hb _ => exact hb (List.cons_prefix_cons.mp hprefix).1
      | escape hc _ =>
          obtain rfl := (List.cons_prefix_cons.mp (List.cons_prefix_cons.mp hprefix).2).1
          rw [hend] at hc
          cases hc
  | case7 d s hend _ _ ih => exact ih.escape (by simpa using hend) hbackslash
  | case8 c d s hend hc hb ih => exact ih.plain (by simpa using hend) hc hb

/-! ## Lexemes -/

/-- The string that begins at `start` is not closed in its line, which goes on up
to `stop`. -/
structure Unterminated (s : Text) (start stop : Nat) : Prop where
  opens : ∃ quote rest, s.drop start = quote :: rest ∧ IsQuote quote ∧
    ∀ body, StringBody quote body → ¬ body ++ [quote] <+: rest
  quiet : ∀ c ∈ s.extract start stop, endsLine c = false
  ends : AtLineEnd (s.drop stop)

theorem Kind.name_quiet (k : Kind) : ∀ c ∈ k.name, endsLine c = false := by
  have hall : k.name.all (fun c => !endsLine c) = true := by revert k; decide
  simpa using hall

theorem Kind.ofWord_ne_illegal (w : Text) : ofWord w ≠ .illegal := by
  intro hillegal
  rcases ofWord_cases w with h | ⟨h, -⟩ <;> rw [hillegal] at h <;> cases h

theorem numeral_ne_illegal (s : Text) : (numeral s).1 ≠ .illegal := by
  rcases numeral_kind s with h | h | h | h <;> rw [h] <;> decide

namespace Lexeme

theorem ofString_kind (quote : UInt8) (s : Text) :
    (ofString quote s).kind = .stringLit ∨ (ofString quote s).kind = .illegal := by
  rw [ofString]
  split
  · exact .inl rfl
  · exact .inr rfl

theorem ofSigns_kind (c : UInt8) (s : Text) :
    (ofSigns c s).kind.isSign = true ∨ (ofSigns c s).kind = .illegal := by
  rw [ofSigns]
  split
  · next k hk =>
      obtain ⟨d, -, hk⟩ := Option.bind_eq_some_iff.mp hk
      exact .inl (Kind.lookup_name hk).1
  · split
    · next k hk => exact .inl (Kind.lookup_name hk).1
    · exact .inr rfl

/-- What a lexeme at the start of a text covers. -/
structure Covers (x : Lexeme) (s : Text) : Prop where
  onLine : OnLine s x.length
  literal_eq : x.kind ≠ .illegal → s.take x.length = x.literal
  illegal : x.kind = .illegal →
    (x.length = 1 ∧ ∀ c ∈ s.head?, ¬ IsQuote c) ∨ Unterminated s 0 x.length

theorem cut_covers {kind : Kind} {n : Nat} {s : Text} (hkind : kind ≠ .illegal)
    (h : OnLine s n) : (cut kind n s).Covers s :=
  ⟨h, fun _ => rfl, fun hillegal => absurd hillegal hkind⟩

theorem ofString_covers {quote : UInt8} (hquote : IsQuote quote) (s : Text) :
    (ofString quote (quote :: s)).Covers (quote :: s) := by
  have hq : endsLine quote = false := by rcases hquote with rfl | rfl <;> rfl
  have hfinds := stringEnd_finds hquote s
  rw [ofString, List.tail_cons]
  split
  · next n hend =>
      rw [hend] at hfinds
      obtain ⟨body, hbody, htake, rfl⟩ := hfinds
      refine cut_covers (by decide) (OnLine.cons hq ⟨?_, fun c hc => ?_⟩)
      · have hlen := congrArg List.length htake
        simp only [List.length_take, List.length_append, List.length_singleton] at hlen
        omega
      · rw [htake, List.mem_append, List.mem_singleton] at hc
        rcases hc with hc | rfl
        · exact hbody.quiet c hc
        · exact hq
  · next n hend =>
      rw [hend] at hfinds
      obtain ⟨hline, hends, hopen⟩ := hfinds
      have hline := hline.cons hq
      refine ⟨hline, fun h => absurd rfl h, fun _ => .inr ⟨⟨quote, s, rfl, hquote, hopen⟩, ?_, ?_⟩⟩
      · simpa using hline.quiet
      · simpa using hends

theorem ofSigns_covers {c : UInt8} (hc : endsLine c = false) (hquote : ¬ IsQuote c) (s : Text) :
    (ofSigns c (c :: s)).Covers (c :: s) := by
  have hsign {w : Text} {k : Kind} (h : Kind.ofSign? w = some k) :
      k ≠ .illegal ∧ ∀ b ∈ w, endsLine b = false := by
    obtain ⟨hsign, rfl⟩ := Kind.lookup_name h
    refine ⟨?_, k.name_quiet⟩
    rintro rfl
    cases hsign
  rw [ofSigns]
  split
  · next k hk =>
      obtain ⟨d, hd, hk⟩ := Option.bind_eq_some_iff.mp hk
      obtain ⟨hkind, hquiet⟩ := hsign hk
      have hnext : OnLine ((c :: s).drop 1) 1 := .one hd (hquiet d (by simp))
      exact cut_covers hkind ((OnLine.one rfl hc).add hnext)
  · split
    · next k hk => exact cut_covers (hsign hk).1 (.one rfl hc)
    · exact ⟨.one rfl hc, fun h => absurd rfl h, fun _ => .inl ⟨rfl, by simpa using hquote⟩⟩

theorem read_covers {c : UInt8} (hc : endsLine c = false) (s : Text) :
    (read c (c :: s)).Covers (c :: s) := by
  rw [read]
  split
  · next hquote => exact ofString_covers hquote s
  · next hquote =>
      split
      · exact cut_covers (Kind.ofWord_ne_illegal _) (.run rfl rfl _)
      · split
        · exact cut_covers (numeral_ne_illegal _) (onLine_numeral _)
        · exact ofSigns_covers hc hquote s

end Lexeme

end Zensight.Token
