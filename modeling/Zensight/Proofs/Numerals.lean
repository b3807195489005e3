import Zensight.Proofs.Scanning.Cuts

/-!
# Numerals

The grammar of numerals is given by its parts: digits, a fraction, an exponent and a suffix, of
which the last says with the other two what kind of number it is (`IsNumeral`). The scanner
measures one part after the other and looks no further ahead than each of them asks for. Two marks
call for digits behind them without being looked behind: the `x` of a hexadecimal numeral, and the
sign of an exponent. Where the digits are missing the token ends there, perhaps with a suffix, and
is no numeral (`BreaksOff`). `numeral_shape` says that there is no third case.
-/

namespace Zensight.Token

/-- Is it the kind of a number? -/
def Kind.isNumber : Kind → Bool
  | intLit | longLit | floatLit | doubleLit => true
  | _ => false

theorem Kind.not_isNumber_of_isFixed {k : Kind} (h : k.isFixed = true) : ¬ k.isNumber = true := by
  revert k
  decide

/-! ## The grammar -/

/-- At least one byte, and all of a class. -/
structure Digits (p : UInt8 → Bool) (w : Text) : Prop where
  ne_nil : w ≠ []
  all : ∀ c ∈ w, p c = true

/-- A letter in its small or its capital form, or one of two signs. -/
def IsEither (a b : Char) (c : UInt8) : Prop := c = byte a ∨ c = byte b

/-- A dot and digits, or nothing. -/
inductive Fraction : Text → Prop where
  | none : Fraction []
  | digits {w : Text} : Digits Text.isDigit w → Fraction (byte '.' :: w)

/-- An `e` and digits, perhaps with a sign before them, or nothing. -/
inductive Exponent : Text → Prop where
  | none : Exponent []
  | bare {e : UInt8} {w : Text} :
      IsEither 'e' 'E' e → Digits Text.isDigit w → Exponent (e :: w)
  | signed {e sign : UInt8} {w : Text} :
      IsEither 'e' 'E' e → IsEither '+' '-' sign → Digits Text.isDigit w →
      Exponent (e :: sign :: w)

/-- The suffix of a decimal numeral of a kind, which may be `whole`, without a fraction and an
exponent, or not. -/
inductive Suffix (whole : Prop) : Kind → Text → Prop where
  | int : whole → Suffix whole .intLit []
  | long {c : UInt8} : whole → IsEither 'l' 'L' c → Suffix whole .longLit [c]
  | float {c : UInt8} : IsEither 'f' 'F' c → Suffix whole .floatLit [c]
  | double : ¬ whole → Suffix whole .doubleLit []
  | marked {c : UInt8} : IsEither 'd' 'D' c → Suffix whole .doubleLit [c]

/-- The numerals of each kind of number. -/
inductive IsNumeral : Kind → Text → Prop where
  | hexInt {x : UInt8} {w : Text} :
      IsEither 'x' 'X' x → Digits Text.isHexDigit w → IsNumeral .intLit (byte '0' :: x :: w)
  | hexLong {x l : UInt8} {w : Text} :
      IsEither 'x' 'X' x → Digits Text.isHexDigit w → IsEither 'l' 'L' l →
      IsNumeral .longLit (byte '0' :: x :: (w ++ [l]))
  | decimal {k : Kind} {whole fraction exponent suffix : Text} :
      Digits Text.isDigit whole → Fraction fraction → Exponent exponent →
      Suffix (fraction = [] ∧ exponent = []) k suffix →
      IsNumeral k (whole ++ fraction ++ exponent ++ suffix)

/-- What breaks off where digits have to follow: at the mark of a hexadecimal numeral, or at the
sign of an exponent. Its suffix is there all the same. -/
inductive BreaksOff : Kind → Text → Prop where
  | hexInt {x : UInt8} : IsEither 'x' 'X' x → BreaksOff .intLit [byte '0', x]
  | hexLong {x l : UInt8} :
      IsEither 'x' 'X' x → IsEither 'l' 'L' l → BreaksOff .longLit [byte '0', x, l]
  | exponent {k : Kind} {whole fraction suffix : Text} {e sign : UInt8} :
      Digits Text.isDigit whole → Fraction fraction → IsEither 'e' 'E' e →
      IsEither '+' '-' sign → Suffix False k suffix →
      BreaksOff k (whole ++ fraction ++ [e, sign] ++ suffix)

/-! ## What breaks off is no numeral

Before its suffix a numeral ends with a digit, and what breaks off ends with the mark. -/

/-- Does the byte call for digits behind it? -/
def isMark (c : UInt8) : Bool :=
  c == byte 'x' || c == byte 'X' || c == byte '+' || c == byte '-'

theorem isHexDigit_eq_false_of_isMark {c : UInt8} (h : isMark c = true) :
    Text.isHexDigit c = false := by
  simp only [isMark, Bool.or_eq_true, beq_iff_eq] at h
  rcases h with ((rfl | rfl) | rfl) | rfl <;> rfl

theorem isHexDigit_of_isDigit {c : UInt8} (h : Text.isDigit c = true) :
    Text.isHexDigit c = true := by
  rw [Text.isHexDigit, h]
  rfl

theorem BreaksOff.exists_mark {k : Kind} {w : Text} (h : BreaksOff k w) :
    ∃ front mark suffix, w = front ++ mark :: suffix ∧ isMark mark = true ∧
      ∃ whole, Suffix whole k suffix := by
  cases h with
  | @hexInt x hx =>
      exact ⟨[byte '0'], x, [], rfl, by rcases hx with rfl | rfl <;> rfl, True, .int trivial⟩
  | @hexLong x l hx hl =>
      exact ⟨[byte '0'], x, [l], rfl, by rcases hx with rfl | rfl <;> rfl, True, .long trivial hl⟩
  | @exponent _ whole fraction suffix e sign _ _ _ hsign hsuffix =>
      refine ⟨whole ++ fraction ++ [e], sign, suffix, by simp, ?_, False, hsuffix⟩
      rcases hsign with rfl | rfl <;> rfl

theorem Digits.exists_last {p : UInt8 → Bool} {w : Text} (h : Digits p w) :
    ∃ front d, w = front ++ [d] ∧ p d = true := by
  obtain ⟨front, d, rfl⟩ := (List.eq_nil_or_concat w).resolve_left h.ne_nil
  rw [List.concat_eq_append] at h ⊢
  exact ⟨front, d, rfl, h.all d (by simp)⟩

theorem exists_last_digit {whole fraction exponent : Text} (hwhole : Digits Text.isDigit whole)
    (hfraction : Fraction fraction) (hexponent : Exponent exponent) :
    ∃ front d, whole ++ fraction ++ exponent = front ++ [d] ∧ Text.isDigit d = true := by
  cases hexponent with
  | none =>
      cases hfraction with
      | none => simpa using hwhole.exists_last
      | digits hdigits =>
          obtain ⟨front, d, rfl, hd⟩ := hdigits.exists_last
          exact ⟨whole ++ byte '.' :: front, d, by simp, hd⟩
  | @bare e _ _ hdigits =>
      obtain ⟨front, d, rfl, hd⟩ := hdigits.exists_last
      exact ⟨whole ++ fraction ++ e :: front, d, by simp, hd⟩
  | @signed e sign _ _ _ hdigits =>
      obtain ⟨front, d, rfl, hd⟩ := hdigits.exists_last
      exact ⟨whole ++ fraction ++ e :: sign :: front, d, by simp, hd⟩

/-- A digit and a mark do not both stand before the suffix. -/
theorem Suffix.digit_ne_mark {whole whole' : Prop} {k : Kind} {suffix suffix' : Text}
    {d mark : UInt8} (h : Suffix whole k suffix) (h' : Suffix whole' k suffix')
    (hd : Text.isHexDigit d = true) (hk : k = .doubleLit → Text.isDigit d = true)
    (hmark : isMark mark = true) (front front' : Text) :
    front ++ d :: suffix ≠ front' ++ mark :: suffix' := by
  intro heq
  by_cases hlength : suffix.length = suffix'.length
  · have hlast := (List.append_inj' heq (by simp [hlength])).2
    cases hlast
    rw [isHexDigit_eq_false_of_isMark hmark] at hd
    cases hd
  · -- Only the suffix of a double can be there or not.
    have hends := congrArg List.reverse heq
    cases h with
    | double =>
        cases h' with
        | double => exact hlength rfl
        | marked hc =>
            obtain ⟨rfl, -⟩ : d = _ ∧ _ := by simpa using hends
            have hd := hk rfl
            rcases hc with rfl | rfl <;> cases hd
    | marked hc =>
        cases h' with
        | double =>
            obtain ⟨rfl, -⟩ : _ = mark ∧ _ := by simpa using hends
            rcases hc with rfl | rfl <;> cases hmark
        | marked => exact hlength rfl
    | int | long | float =>
        cases h'
        exact hlength rfl

theorem IsNumeral.not_breaksOff {k : Kind} {w : Text} (h : IsNumeral k w) : ¬ BreaksOff k w := by
  intro hbreaks
  obtain ⟨front', mark, suffix', hw, hmark, _, hsuffix'⟩ := hbreaks.exists_mark
  cases h with
  | @hexInt x _ _ hdigits =>
      obtain ⟨front, d, rfl, hd⟩ := hdigits.exists_last
      exact (Suffix.int trivial).digit_ne_mark hsuffix' hd nofun hmark (byte '0' :: x :: front) _ hw
  | @hexLong x l _ _ hdigits hl =>
      obtain ⟨front, d, rfl, hd⟩ := hdigits.exists_last
      rw [List.append_assoc, List.singleton_append] at hw
      exact (Suffix.long trivial hl).digit_ne_mark hsuffix' hd nofun hmark
        (byte '0' :: x :: front) _ hw
  | decimal hwhole hfraction hexponent hsuffix =>
      obtain ⟨front, d, hbody, hd⟩ := exists_last_digit hwhole hfraction hexponent
      rw [hbody, List.append_assoc, List.singleton_append] at hw
      exact hsuffix.digit_ne_mark hsuffix' (isHexDigit_of_isDigit hd) (fun _ => hd) hmark _ _ hw

/-! ## What the scanner measures -/

theorem take_run (p : UInt8 → Bool) (s : Text) : s.take (run p s) = s.takeWhile p :=
  (List.prefix_iff_eq_take.mp (List.takeWhile_prefix p)).symm

theorem digits_take_run {p : UInt8 → Bool} {s : Text} (h : 0 < run p s) :
    Digits p (s.take (run p s)) := by
  rw [take_run]
  refine ⟨List.ne_nil_of_length_pos h, fun c hc => ?_⟩
  exact List.all_eq_true.mp List.all_takeWhile c hc

theorem isEither_of_startsWithEither {a b : Char} {s : Text} (h : startsWithEither a b s = true) :
    ∃ c rest, s = c :: rest ∧ IsEither a b c := by
  rw [startsWithEither, Bool.or_eq_true, beq_iff_eq, beq_iff_eq] at h
  cases s with
  | nil => simp at h
  | cons c rest => exact ⟨c, rest, rfl, by simpa [IsEither] using h⟩

theorem fraction_take (s : Text) : Fraction (s.take (fractionLength s)) := by
  rw [fractionLength]
  split
  · next h =>
      obtain ⟨hdot, hpos⟩ := h
      cases s with
      | nil => cases hdot
      | cons c s =>
          cases hdot
          rw [Nat.add_comm]
          exact .digits (digits_take_run hpos)
  · exact .none

/-- A sign is taken for the start of an exponent whatever stands behind it. -/
theorem exponent_take (s : Text) : Exponent (s.take (exponentLength s)) ∨
    ∃ e sign, s.take (exponentLength s) = [e, sign] ∧ IsEither 'e' 'E' e ∧
      IsEither '+' '-' sign := by
  rw [exponentLength]
  split
  · next hstart =>
      obtain ⟨e, s, rfl, he⟩ := isEither_of_startsWithEither hstart
      split
      · next hstart =>
          obtain ⟨sign, s, rfl, hsign⟩ := isEither_of_startsWithEither hstart
          rw [Nat.add_comm]
          by_cases hpos : 0 < run Text.isDigit s
          · exact .inl (.signed he hsign (digits_take_run hpos))
          · exact .inr ⟨e, sign, by simp_all, he, hsign⟩
      · split
        · next hpos =>
            rw [Nat.add_comm]
            exact .inl (.bare he (digits_take_run hpos))
        · exact .inl .none
  · exact .inl .none

theorem take_succ_of_startsWithEither {a b : Char} {s : Text} {n : Nat}
    (h : startsWithEither a b (s.drop n) = true) :
    ∃ c, s.take (n + 1) = s.take n ++ [c] ∧ IsEither a b c := by
  obtain ⟨c, rest, hdrop, hc⟩ := isEither_of_startsWithEither h
  exact ⟨c, by rw [List.take_add, hdrop]; rfl, hc⟩

theorem hexadecimal_shape {s : Text} (h0 : s.head? = some (byte '0'))
    (hx : startsWithEither 'x' 'X' s.tail = true) :
    IsNumeral (numeral s).1 (s.take (numeral s).2) ∨
      BreaksOff (numeral s).1 (s.take (numeral s).2) := by
  rw [numeral, if_pos ⟨h0, hx⟩]
  cases s with
  | nil => cases h0
  | cons c s =>
      cases h0
      obtain ⟨x, s, rfl, hmark⟩ := isEither_of_startsWithEither hx
      rw [show List.drop 2 (byte '0' :: x :: s) = s from rfl]
      have hbody : List.take (2 + run Text.isHexDigit s) (byte '0' :: x :: s) =
          byte '0' :: x :: s.take (run Text.isHexDigit s) := by
        rw [Nat.add_comm]
        rfl
      dsimp only
      split
      · next hl =>
          obtain ⟨l, htake, hl⟩ := take_succ_of_startsWithEither hl
          dsimp only
          rw [htake, hbody, List.cons_append, List.cons_append]
          by_cases hpos : 0 < run Text.isHexDigit s
          · exact .inl (.hexLong hmark (digits_take_run hpos) hl)
          · rw [Nat.eq_zero_of_not_pos hpos]
            exact .inr (.hexLong hmark hl)
      · dsimp only
        rw [hbody]
        by_cases hpos : 0 < run Text.isHexDigit s
        · exact .inl (.hexInt hmark (digits_take_run hpos))
        · rw [Nat.eq_zero_of_not_pos hpos]
          exact .inr (.hexInt hmark)

/-- The exponent of a decimal numeral may be a sign alone, and all else is in order. -/
theorem decimal_shape {s : Text} (hpos : 0 < run Text.isDigit s)
    (hhex : ¬ (s.head? = some (byte '0') ∧ startsWithEither 'x' 'X' s.tail = true)) :
    ∃ whole fraction exponent suffix,
      s.take (numeral s).2 = whole ++ fraction ++ exponent ++ suffix ∧
      Digits Text.isDigit whole ∧ Fraction fraction ∧
      (Exponent exponent ∨
        ∃ e sign, exponent = [e, sign] ∧ IsEither 'e' 'E' e ∧ IsEither '+' '-' sign) ∧
      Suffix (fraction = [] ∧ exponent = []) (numeral s).1 suffix := by
  rw [numeral, if_neg hhex]
  extract_lets whole fraction exponent n kind rest
  have hbody : s.take n = s.take whole ++ (s.drop whole).take fraction ++
      (s.drop (whole + fraction)).take exponent := by rw [List.take_add, List.take_add]
  have hwhole : kind = .intLit ↔ (s.drop whole).take fraction = [] ∧
      (s.drop (whole + fraction)).take exponent = [] := by
    have hfraction := (onLine_fractionLength (s.drop whole)).le_length
    have hexponent := (onLine_exponentLength (s.drop (whole + fraction))).le_length
    rw [← List.length_eq_zero_iff, ← List.length_eq_zero_iff, List.length_take_of_le hfraction,
      List.length_take_of_le hexponent, ← Nat.add_eq_zero_iff]
    constructor
    · intro hkind
      refine Decidable.byContradiction fun hnot => ?_
      cases (if_neg hnot).symm.trans hkind
    · exact fun hzero => if_pos hzero
  refine ⟨s.take whole, (s.drop whole).take fraction, (s.drop (whole + fraction)).take exponent, ?_⟩
  rw [← hbody]
  suffices hsuffix : ∃ suffix, s.take _ = s.take n ++ suffix ∧ Suffix _ _ suffix by
    obtain ⟨suffix, htake, hsuffix⟩ := hsuffix
    exact ⟨suffix, htake, digits_take_run hpos, fraction_take _, exponent_take _, hsuffix⟩
  split
  · next h =>
      obtain ⟨c, htake, hc⟩ := take_succ_of_startsWithEither h.1
      exact ⟨[c], htake, .long (hwhole.mp h.2) hc⟩
  split
  · next h =>
      obtain ⟨c, htake, hc⟩ := take_succ_of_startsWithEither h
      exact ⟨[c], htake, .float hc⟩
  split
  · next h =>
      obtain ⟨c, htake, hc⟩ := take_succ_of_startsWithEither h
      exact ⟨[c], htake, .marked hc⟩
  · refine ⟨[], (List.append_nil _).symm, ?_⟩
    by_cases hzero : fraction + exponent = 0
    · have hkind : kind = .intLit := if_pos hzero
      rw [hkind]
      exact .int (hwhole.mp hkind)
    · have hkind : kind = .doubleLit := if_neg hzero
      rw [hkind] at hwhole ⊢
      refine .double fun h => ?_
      cases hwhole.mpr h

/-- What the scanner measures is a numeral, or breaks off where digits have to follow. -/
theorem numeral_shape {s : Text} (hpos : 0 < run Text.isDigit s) :
    IsNumeral (numeral s).1 (s.take (numeral s).2) ∨
      BreaksOff (numeral s).1 (s.take (numeral s).2) := by
  by_cases hhex : s.head? = some (byte '0') ∧ startsWithEither 'x' 'X' s.tail = true
  · exact hexadecimal_shape hhex.1 hhex.2
  · obtain ⟨whole, fraction, exponent, suffix, htake, hwhole, hfraction, hexponent, hsuffix⟩ :=
      decimal_shape hpos hhex
    rw [htake]
    rcases hexponent with hexponent | ⟨e, sign, rfl, he, hsign⟩
    · exact .inl (.decimal hwhole hfraction hexponent hsuffix)
    · rw [show (fraction = [] ∧ [e, sign] = []) = False by simp] at hsuffix
      exact .inr (.exponent hwhole hfraction he hsign hsuffix)

/-- Only a digit begins a number. -/
theorem Lexeme.read_number {c : UInt8} {s : Text} (h : (read c s).kind.isNumber = true) :
    Text.isDigit c = true ∧ read c s = cut (numeral s).1 (numeral s).2 s := by
  rw [read] at h ⊢
  split at h
  · rcases ofString_kind c s with hkind | hkind <;> rw [hkind] at h <;> cases h
  next hquote =>
  rw [if_neg hquote]
  split at h
  · replace h : (Kind.ofWord (s.take (run _ s))).isNumber = true := h
    rcases Kind.ofWord_cases (s.take (run _ s)) with hkind | ⟨hkind, -⟩
    · rw [hkind] at h
      cases h
    · exact absurd h (Kind.not_isNumber_of_isFixed (Kind.isFixed_of_isKeyword hkind))
  next hletter =>
  rw [if_neg hletter]
  split at h
  · next hdigit => exact ⟨hdigit, if_pos hdigit⟩
  · rcases ofSigns_kind c s with hkind | hkind
    · refine absurd h (Kind.not_isNumber_of_isFixed ?_)
      rw [Kind.isFixed, hkind, Bool.or_true]
    · rw [hkind] at h
      cases h

/-! ## The numbers of a script -/

/-- A number of any script is a numeral of its kind just if it does not break off. -/
theorem numbers_are_numerals (source : Text) {t : Token} (ht : t ∈ scan source)
    (hnumber : t.kind.isNumber = true) :
    IsNumeral t.kind t.literal ↔ ¬ BreaksOff t.kind t.literal := by
  refine ⟨IsNumeral.not_breaksOff, fun hnot => ?_⟩
  have hkind : t.kind ≠ .eof ∧ t.kind ≠ .illegal := by
    constructor <;> intro h <;> rw [h] at hnumber <;> cases hnumber
  obtain ⟨rest, hopens⟩ := scanFrom_opens _ _ source t ht hkind.1 hkind.2
  generalize t.kind = k, t.literal = w at hopens hnumber hnot ⊢
  obtain @⟨c, w, _, -, -, hread⟩ := hopens
  obtain ⟨hdigit, hcut⟩ := Lexeme.read_number (by rw [hread]; exact hnumber)
  rw [hread, Lexeme.cut, Lexeme.mk.injEq] at hcut
  rw [hcut.1, hcut.2.1] at hnot ⊢
  exact (numeral_shape (run_pos hdigit _)).resolve_right hnot

/-- A number that breaks off at the sign of its exponent, right before one with all its parts. -/
def brokenExponent : Text := txt "1.5e+d0x1FL"

theorem brokenExponent_numbers :
    (⟨.doubleLit, txt "1.5e+d", ⟨1, 1⟩⟩ ∈ scan brokenExponent ∧
      BreaksOff .doubleLit (txt "1.5e+d") ∧ ¬ IsNumeral .doubleLit (txt "1.5e+d")) ∧
    (⟨.longLit, txt "0x1FL", ⟨1, 7⟩⟩ ∈ scan brokenExponent ∧
      IsNumeral .longLit (txt "0x1FL") ∧ ¬ BreaksOff .longLit (txt "0x1FL")) := by
  have hbroken : (⟨.doubleLit, txt "1.5e+d", ⟨1, 1⟩⟩ : Token) ∈ scan brokenExponent := by
    decide +kernel
  have hsound : (⟨.longLit, txt "0x1FL", ⟨1, 7⟩⟩ : Token) ∈ scan brokenExponent := by
    decide +kernel
  have hone : Digits Text.isDigit (txt "1") := ⟨by decide, List.all_eq_true.mp (by decide)⟩
  have hfive : Digits Text.isDigit (txt "5") := ⟨by decide, List.all_eq_true.mp (by decide)⟩
  have hhex : Digits Text.isHexDigit (txt "1F") := ⟨by decide, List.all_eq_true.mp (by decide)⟩
  have hbreaks : BreaksOff .doubleLit (txt "1.5e+d") :=
    .exponent hone (.digits hfive) (.inl rfl) (.inl rfl) (.marked (.inl rfl))
  have hnumeral : IsNumeral .longLit (txt "0x1FL") := .hexLong (.inl rfl) hhex (.inr rfl)
  exact ⟨⟨hbroken, hbreaks, fun h => (numbers_are_numerals _ hbroken rfl).mp h hbreaks⟩,
    hsound, hnumeral, (numbers_are_numerals _ hsound rfl).mp hnumeral⟩

/-- The mark of a hexadecimal numeral is enough for a number, without any digit behind it. -/
theorem scan_hexadecimal_mark : scan (txt "0x") =
      [⟨.intLit, txt "0x", ⟨1, 1⟩⟩, ⟨.eof, [], ⟨1, 3⟩⟩] ∧ ¬ IsNumeral .intLit (txt "0x") :=
  ⟨by decide +kernel, fun h => h.not_breaksOff (.hexInt (.inl rfl))⟩

end Zensight.Token
