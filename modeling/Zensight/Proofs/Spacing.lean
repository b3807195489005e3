import Zensight.Proofs.Scanning.Cuts

/-!
# Tokens set apart

A token is told by the bytes it takes and at most a few behind it: those that could make it
longer. A blank never does, so a token of a script is the same token in front of any blank
(`Opens.set_apart`). For numerals that is shown part by part. Each part measures how far it
goes (`run`, `fractionLength`, `exponentLength`), and a measure that ends within the first
bytes of a text is the same if a blank stands behind those.
-/

namespace Zensight.Token

/-- A text that what stands before it cannot run into. -/
def SetApart (rest : Text) : Prop := ∀ c ∈ rest.head?, isBlank c = true

theorem setApart_nil : SetApart [] := by simp [SetApart]

theorem setApart_cons {c : UInt8} (hc : isBlank c = true) (s : Text) : SetApart (c :: s) := by
  simpa [SetApart] using hc

theorem fractionLength_cons (c : UInt8) (s : Text) : fractionLength (c :: s) =
    if c = byte '.' ∧ 0 < run Text.isDigit s then 1 + run Text.isDigit s else 0 := by
  simp [fractionLength]

theorem exponentLength_cons (c : UInt8) (s : Text) : exponentLength (c :: s) =
    if c = byte 'e' ∨ c = byte 'E' then
      if startsWithEither '+' '-' s = true then 2 + run Text.isDigit s.tail
      else if 0 < run Text.isDigit s then 1 + run Text.isDigit s else 0
    else 0 := by
  have hc : startsWithEither 'e' 'E' (c :: s) = true ↔ c = byte 'e' ∨ c = byte 'E' := by
    simp [startsWithEither]
  rw [exponentLength]
  by_cases he : c = byte 'e' ∨ c = byte 'E'
  · rw [if_pos (hc.mpr he), if_pos he, List.tail_cons, List.drop_succ_cons, List.drop_one]
  · rw [if_neg (he ∘ hc.mp), if_neg he]

/-! ## Numerals -/

section Numerals

variable {w tail rest : Text}

theorem SetApart.run_eq_zero (hrest : SetApart rest) {p : UInt8 → Bool}
    (hp : ∀ c, isBlank c = true → p c = false) : run p rest = 0 :=
  Token.run_eq_zero fun c hc => hp c (hrest c hc)

theorem SetApart.head?_ne (hrest : SetApart rest) {c : UInt8} (hc : isBlank c = false) :
    rest.head? ≠ some c := by
  intro hhead
  rw [hrest c hhead] at hc
  cases hc

theorem SetApart.startsWithEither_eq_false (hrest : SetApart rest) {a b : Char}
    (ha : isBlank (byte a) = false) (hb : isBlank (byte b) = false) :
    startsWithEither a b rest = false := by
  rw [startsWithEither, beq_eq_false_iff_ne.mpr (hrest.head?_ne ha),
    beq_eq_false_iff_ne.mpr (hrest.head?_ne hb)]
  rfl

variable (hrest : SetApart rest)

include hrest

theorem run_set_apart {p : UInt8 → Bool} (hp : ∀ c, isBlank c = true → p c = false)
    (h : run p (w ++ tail) ≤ w.length) : run p (w ++ rest) = run p (w ++ tail) := by
  induction w with
  | nil => rw [List.nil_append, hrest.run_eq_zero hp, Nat.le_zero.mp h]
  | cons c w ih =>
      rw [List.cons_append, run_cons, List.length_cons] at h
      rw [List.cons_append, List.cons_append, run_cons, run_cons]
      split
      · next hc =>
          rw [if_pos hc] at h
          rw [ih (Nat.le_of_succ_le_succ h)]
      · rfl

/-- Digits are no blanks. -/
theorem digits_set_apart (h : run Text.isDigit (w ++ tail) ≤ w.length) :
    run Text.isDigit (w ++ rest) = run Text.isDigit (w ++ tail) :=
  run_set_apart hrest (fun _ => false_of_isBlank rfl rfl rfl rfl) h

theorem startsWithEither_set_apart {a b : Char} (ha : isBlank (byte a) = false)
    (hb : isBlank (byte b) = false) (h : startsWithEither a b (w ++ tail) = true → w ≠ []) :
    startsWithEither a b (w ++ rest) = startsWithEither a b (w ++ tail) := by
  cases w with
  | nil =>
      cases htail : startsWithEither a b tail with
      | true => exact absurd rfl (h htail)
      | false => exact (hrest.startsWithEither_eq_false ha hb).trans htail.symm
  | cons c w => rfl

theorem fractionLength_set_apart (h : fractionLength (w ++ tail) ≤ w.length) :
    fractionLength (w ++ rest) = fractionLength (w ++ tail) := by
  cases w with
  | nil =>
      rw [List.nil_append, Nat.le_zero.mp h, fractionLength,
        if_neg fun hdot => hrest.head?_ne (by decide) hdot.1]
  | cons c w =>
      rw [List.cons_append, fractionLength_cons, List.length_cons] at h
      rw [List.cons_append, List.cons_append, fractionLength_cons, fractionLength_cons]
      by_cases hc : c = byte '.'
      · have hle : run Text.isDigit (w ++ tail) ≤ w.length := by
          by_cases hpos : 0 < run Text.isDigit (w ++ tail)
          · rw [if_pos ⟨hc, hpos⟩] at h
            omega
          · omega
        rw [digits_set_apart hrest hle]
      · rw [if_neg fun hdot => hc hdot.1, if_neg fun hdot => hc hdot.1]

theorem exponentLength_set_apart (h : exponentLength (w ++ tail) ≤ w.length) :
    exponentLength (w ++ rest) = exponentLength (w ++ tail) := by
  cases w with
  | nil =>
      rw [List.nil_append, Nat.le_zero.mp h, exponentLength,
        hrest.startsWithEither_eq_false (by decide) (by decide)]
      rfl
  | cons c w =>
      rw [List.cons_append, exponentLength_cons, List.length_cons] at h
      rw [List.cons_append, List.cons_append, exponentLength_cons, exponentLength_cons]
      by_cases hc : c = byte 'e' ∨ c = byte 'E'
      · rw [if_pos hc] at h
        rw [if_pos hc, if_pos hc]
        have hsign : startsWithEither '+' '-' (w ++ rest) =
            startsWithEither '+' '-' (w ++ tail) := by
          refine startsWithEither_set_apart hrest (by decide) (by decide) ?_
          rintro hsign rfl
          rw [if_pos hsign, List.length_nil] at h
          omega
        rw [hsign]
        by_cases hsign : startsWithEither '+' '-' (w ++ tail) = true
        · rw [if_pos hsign] at h
          rw [if_pos hsign, if_pos hsign]
          cases w with
          | nil =>
              rw [List.length_nil] at h
              omega
          | cons d w =>
              rw [List.cons_append, List.tail_cons, List.length_cons] at h
              have hle : run Text.isDigit (w ++ tail) ≤ w.length := by omega
              rw [List.cons_append, List.cons_append, List.tail_cons, List.tail_cons,
                digits_set_apart hrest hle]
        · rw [if_neg hsign] at h
          have hle : run Text.isDigit (w ++ tail) ≤ w.length := by
            split at h <;> omega
          rw [if_neg hsign, if_neg hsign, digits_set_apart hrest hle]
      · rw [if_neg hc, if_neg hc]

/-- A letter at the end of a numeral. -/
theorem suffix_set_apart {a b : Char} (ha : isBlank (byte a) = false)
    (hb : isBlank (byte b) = false) {n : Nat} (hn : n ≤ w.length)
    (h : startsWithEither a b ((w ++ tail).drop n) = true → n < w.length) :
    startsWithEither a b ((w ++ rest).drop n) = startsWithEither a b ((w ++ tail).drop n) := by
  rw [List.drop_append_of_le_length hn] at h
  rw [List.drop_append_of_le_length hn, List.drop_append_of_le_length hn]
  refine startsWithEither_set_apart hrest ha hb fun hstarts hnil => ?_
  exact absurd (List.drop_eq_nil_iff.mp hnil) (Nat.not_le.mpr (h hstarts))

/-- The digits of a numeral, with its fraction and its exponent. -/
theorem decimal_set_apart {whole fraction exponent : Nat}
    (hwhole : whole = run Text.isDigit (w ++ tail))
    (hfraction : fraction = fractionLength ((w ++ tail).drop whole))
    (hexponent : exponent = exponentLength ((w ++ tail).drop (whole + fraction)))
    (hle : whole + fraction + exponent ≤ w.length) :
    run Text.isDigit (w ++ rest) = whole ∧ fractionLength ((w ++ rest).drop whole) = fraction ∧
      exponentLength ((w ++ rest).drop (whole + fraction)) = exponent := by
  refine ⟨?_, ?_, ?_⟩
  · rw [hwhole]
    exact digits_set_apart hrest (by omega)
  · have hin : whole ≤ w.length := by omega
    rw [List.drop_append_of_le_length hin] at hfraction ⊢
    rw [hfraction]
    exact fractionLength_set_apart hrest (by rw [List.length_drop]; omega)
  · have hin : whole + fraction ≤ w.length := by omega
    rw [List.drop_append_of_le_length hin] at hexponent ⊢
    rw [hexponent]
    exact exponentLength_set_apart hrest (by rw [List.length_drop]; omega)

theorem hexMark_set_apart (h : (w ++ tail).head? = some (byte '0') ∧
      startsWithEither 'x' 'X' (w ++ tail).tail = true → 2 ≤ w.length) :
    ((w ++ rest).head? = some (byte '0') ∧ startsWithEither 'x' 'X' (w ++ rest).tail = true) ↔
      (w ++ tail).head? = some (byte '0') ∧ startsWithEither 'x' 'X' (w ++ tail).tail = true := by
  match w with
  | [] =>
      refine ⟨fun hmark => absurd hmark.1 (hrest.head?_ne (by decide)), fun hmark => ?_⟩
      exact absurd (h hmark) (by simp)
  | [c] =>
      refine ⟨fun hmark => ?_, fun hmark => absurd (h hmark) (by simp)⟩
      have hnone := hrest.startsWithEither_eq_false (a := 'x') (b := 'X') (by decide) (by decide)
      exact absurd (hnone.symm.trans hmark.2) Bool.false_ne_true
  | c :: d :: w => exact Iff.rfl

omit hrest in
/-- A numeral that is no longer than its digits has no suffix. -/
theorem suffixed_eq {long float double : Prop} [Decidable long] [Decidable float]
    [Decidable double] {k₁ k₂ k₃ kind : Kind} {n : Nat}
    (h : (if long then (k₁, n + 1) else if float then (k₂, n + 1) else
      if double then (k₃, n + 1) else (kind, n)).2 ≤ n) :
    (if long then (k₁, n + 1) else if float then (k₂, n + 1) else
      if double then (k₃, n + 1) else (kind, n)) = (kind, n) := by
  repeat' split at h
  all_goals first | exact absurd h (Nat.not_succ_le_self n) | simp [*]

theorem numeral_set_apart (h : (numeral (w ++ tail)).2 ≤ w.length) :
    numeral (w ++ rest) = numeral (w ++ tail) := by
  have hlong : (w ++ tail).head? = some (byte '0') ∧
      startsWithEither 'x' 'X' (w ++ tail).tail = true → 2 ≤ w.length := by
    intro hmark
    rw [numeral, if_pos hmark] at h
    dsimp only at h
    split at h <;> dsimp only at h <;> omega
  have hmark := hexMark_set_apart hrest hlong
  rw [numeral] at h
  rw [numeral, numeral]
  by_cases hhex : (w ++ tail).head? = some (byte '0') ∧
      startsWithEither 'x' 'X' (w ++ tail).tail = true
  · rw [if_pos hhex] at h
    rw [if_pos hhex, if_pos (hmark.mpr hhex)]
    have hin := hlong hhex
    dsimp only at h ⊢
    generalize hn : 2 + run Text.isHexDigit ((w ++ tail).drop 2) = n at h ⊢
    have hle : n ≤ w.length := by split at h <;> dsimp only at h <;> omega
    have hdigits : run Text.isHexDigit ((w ++ rest).drop 2) =
        run Text.isHexDigit ((w ++ tail).drop 2) := by
      rw [List.drop_append_of_le_length hin] at hn ⊢
      rw [List.drop_append_of_le_length hin]
      refine run_set_apart hrest (fun _ => false_of_isBlank rfl rfl rfl rfl) ?_
      rw [List.length_drop]
      omega
    have hsuffix : startsWithEither 'l' 'L' ((w ++ rest).drop n) =
        startsWithEither 'l' 'L' ((w ++ tail).drop n) := by
      refine suffix_set_apart hrest (by decide) (by decide) hle fun hl => ?_
      rw [if_pos hl] at h
      exact h
    rw [hdigits, hn, hsuffix]
  · rw [if_neg hhex] at h
    rw [if_neg hhex, if_neg (hhex ∘ hmark.mp)]
    dsimp only at h ⊢
    generalize hwhole : run Text.isDigit (w ++ tail) = whole at h ⊢
    generalize hfraction : fractionLength ((w ++ tail).drop whole) = fraction at h ⊢
    generalize hexponent : exponentLength ((w ++ tail).drop (whole + fraction)) = exponent at h ⊢
    generalize hkind : (if fraction + exponent = 0 then Kind.intLit else .doubleLit) = kind at h ⊢
    have hle : whole + fraction + exponent ≤ w.length := by
      repeat' split at h
      all_goals dsimp only at h; omega
    obtain ⟨hwhole', hfraction', hexponent'⟩ :=
      decimal_set_apart hrest hwhole.symm hfraction.symm hexponent.symm hle
    rw [hwhole', hfraction', hexponent', hkind]
    generalize whole + fraction + exponent = n at h hle ⊢
    by_cases hlt : n < w.length
    · have hsuffix {a b : Char} (ha : isBlank (byte a) = false) (hb : isBlank (byte b) = false) :
          startsWithEither a b ((w ++ rest).drop n) = startsWithEither a b ((w ++ tail).drop n) :=
        suffix_set_apart hrest ha hb hle fun _ => hlt
      rw [hsuffix (by decide) (by decide), hsuffix (by decide) (by decide),
        hsuffix (by decide) (by decide)]
    · -- no room for a suffix
      have hbare {a b : Char} (ha : isBlank (byte a) = false) (hb : isBlank (byte b) = false) :
          startsWithEither a b ((w ++ rest).drop n) = false := by
        rw [Nat.le_antisymm hle (Nat.not_lt.mp hlt), List.drop_left]
        exact hrest.startsWithEither_eq_false ha hb
      rw [suffixed_eq (Nat.le_trans h (Nat.not_lt.mp hlt)), hbare (by decide) (by decide),
        hbare (by decide) (by decide), hbare (by decide) (by decide)]
      simp

end Numerals

/-! ## Other tokens -/

/-- A string is closed by the first quote that can close it, whatever stands behind that. -/
theorem stringEnd_of_body {quote : UInt8} (hquote : IsQuote quote) {body : Text}
    (h : StringBody quote body) (rest : Text) :
    stringEnd quote (body ++ quote :: rest) = .closed (body.length + 1) := by
  have hq : endsLine quote = false := by rcases hquote with rfl | rfl <;> rfl
  have hbackslash : byte '\\' ≠ quote := by rcases hquote with rfl | rfl <;> decide
  induction h with
  | nil => cases rest <;> simp [stringEnd, hq]
  | @plain c body hc hne hb _ ih =>
      obtain ⟨d, s, hs⟩ := List.exists_cons_of_ne_nil
        (List.append_ne_nil_of_right_ne_nil body (List.cons_ne_nil quote rest))
      rw [List.cons_append, hs, stringEnd, hc, if_neg Bool.false_ne_true, if_neg hne, if_neg hb,
        ← hs, ih]
      rfl
  | @escape c body hc _ ih =>
      rw [List.cons_append, List.cons_append, stringEnd, if_neg (by decide), if_neg hbackslash,
        if_pos rfl, hc, if_neg Bool.false_ne_true, ih]
      rfl

namespace Lexeme

variable {k : Kind} {c : UInt8} {w tail rest : Text}

theorem ofString_set_apart (hquote : IsQuote c) (hlegal : k ≠ .illegal)
    (h : ofString c (c :: (w ++ tail)) = ⟨k, c :: w, w.length + 1⟩) :
    ofString c (c :: (w ++ rest)) = ⟨k, c :: w, w.length + 1⟩ := by
  have hfinds := stringEnd_finds hquote (w ++ tail)
  rw [ofString, List.tail_cons] at h ⊢
  split at h
  · next n hend =>
      obtain ⟨hkind, hn⟩ := cut_eq_iff.mp h
      cases Nat.succ.inj hn
      rw [hend] at hfinds
      obtain ⟨body, hbody, htake, -⟩ := hfinds
      rw [List.take_left] at htake
      subst htake
      have hclosed : stringEnd c (body ++ [c] ++ rest) = .closed (body ++ [c]).length := by
        rw [List.append_assoc, List.singleton_append, stringEnd_of_body hquote hbody,
          List.length_append]
        rfl
      rw [hclosed]
      exact cut_eq_iff.mpr ⟨hkind, rfl⟩
  · exact absurd (congrArg Lexeme.kind h).symm hlegal

theorem ofSigns_set_apart (hrest : SetApart rest) (hlegal : k ≠ .illegal)
    (h : ofSigns c (c :: (w ++ tail)) = ⟨k, c :: w, w.length + 1⟩) :
    ofSigns c (c :: (w ++ rest)) = ⟨k, c :: w, w.length + 1⟩ := by
  rw [ofSigns, List.tail_cons] at h ⊢
  cases w with
  | nil =>
      have hnone : rest.head?.bind (fun d => Kind.ofSign? [c, d]) = none := by
        rw [Option.bind_eq_none_iff]
        exact fun d hd => Kind.ofSign?_blank (hrest d hd)
      rw [List.nil_append, hnone]
      dsimp only
      split at h
      · exact absurd (congrArg Lexeme.length h) (by simp [cut])
      · split at h
        · exact cut_eq_iff (w := []) |>.mpr (cut_eq_iff (w := []) |>.mp h)
        · exact absurd (congrArg Lexeme.kind h).symm hlegal
  | cons d w =>
      rw [List.cons_append, List.head?_cons, Option.bind_some] at h ⊢
      split at h
      · exact cut_eq_iff (w := d :: w) |>.mpr (cut_eq_iff (w := d :: w) |>.mp h)
      · split at h
        · exact absurd (congrArg Lexeme.length h) (by simp [cut])
        · exact absurd (congrArg Lexeme.kind h).symm hlegal

/-- A lexeme is the same in front of any blank. -/
theorem read_set_apart (hrest : SetApart rest) (hlegal : k ≠ .illegal)
    (h : read c (c :: (w ++ tail)) = ⟨k, c :: w, w.length + 1⟩) :
    read c (c :: (w ++ rest)) = ⟨k, c :: w, w.length + 1⟩ := by
  rw [read] at h ⊢
  split
  · next hquote =>
      rw [if_pos hquote] at h
      exact ofString_set_apart hquote hlegal h
  next hquote =>
  rw [if_neg hquote] at h
  split
  · next hletter =>
      rw [if_pos hletter] at h
      dsimp only at h ⊢
      obtain ⟨hkind, hn⟩ := cut_eq_iff.mp h
      have hblank (b : UInt8) (hb : isBlank b = true) :
          (Text.isLetter b || Text.isDigit b) = false :=
        false_of_isBlank (p := fun b => Text.isLetter b || Text.isDigit b) rfl rfl rfl rfl hb
      have hrun : run (fun b => Text.isLetter b || Text.isDigit b) (c :: (w ++ rest)) =
          run (fun b => Text.isLetter b || Text.isDigit b) (c :: (w ++ tail)) :=
        run_set_apart (w := c :: w) hrest hblank (Nat.le_of_eq hn)
      rw [hrun, hn]
      rw [hn, List.take_succ_cons, List.take_left] at hkind
      refine cut_eq_iff.mpr ⟨?_, rfl⟩
      rw [List.take_succ_cons, List.take_left, hkind]
  next hletter =>
  rw [if_neg hletter] at h
  split
  · next hdigit =>
      rw [if_pos hdigit] at h
      dsimp only at h ⊢
      have hnumeral : numeral (c :: (w ++ rest)) = numeral (c :: (w ++ tail)) :=
        numeral_set_apart (w := c :: w) hrest (Nat.le_of_eq (cut_eq_iff.mp h).2)
      rw [hnumeral]
      exact cut_eq_iff.mpr (cut_eq_iff.mp h)
  · next hdigit =>
      rw [if_neg hdigit] at h
      exact ofSigns_set_apart hrest hlegal h

end Lexeme

/-- A legal token is the same token in front of any blank. -/
theorem Opens.set_apart {k : Kind} {w tail rest : Text} (h : Opens k w tail)
    (hlegal : k ≠ .illegal) (hrest : SetApart rest) : Opens k w rest := by
  obtain @⟨c, w, _, hc, hblank, hread⟩ := h
  refine .intro hc ?_ (Lexeme.read_set_apart hrest hlegal hread)
  rw [blankLength_eq_zero_iff] at hblank ⊢
  refine ⟨hblank.1, hblank.2.1, ?_⟩
  cases w with
  | nil =>
      rintro ⟨-, hslash | hstar⟩
      · exact hrest.head?_ne (by decide) hslash
      · exact hrest.head?_ne (by decide) hstar
  | cons d w => exact hblank.2.2

/-! ## Whole scripts -/

theorem cuts_join {ls : List (Kind × Text)}
    (h : ∀ l ∈ ls, l.1 ≠ .illegal ∧ ∃ tail, Opens l.1 l.2 tail) :
    Cuts (Text.join (txt " ") (ls.map (·.2))) ls := by
  match ls with
  | [] => exact .nil
  | [l] =>
      obtain ⟨hlegal, tail, hopens⟩ := h l List.mem_cons_self
      have hcuts := Cuts.token (hopens.set_apart hlegal setApart_nil) .nil
      rwa [List.append_nil] at hcuts
  | l :: l' :: ls =>
      obtain ⟨hlegal, tail, hopens⟩ := h l List.mem_cons_self
      have hrest := cuts_join fun x hx => h x (List.mem_cons_of_mem l hx)
      exact .token (hopens.set_apart hlegal (setApart_cons rfl _)) (.blank rfl hrest)

/-- Layout says nothing. The literals of the tokens of a script without illegal tokens, written
one behind another with a space between neighbours, are scanned as the same tokens. -/
theorem scan_join (source : Text) (h : ∀ t ∈ scan source, t.kind ≠ .illegal) :
    (scan (Text.join (txt " ")
      (((scan source).filter (·.kind ≠ .eof)).map (·.literal)))).map lexical =
        (scan source).map lexical := by
  obtain ⟨body, stop, hscan, hspells⟩ := scan_eq source
  have hbody : (scan source).filter (·.kind ≠ .eof) = body := by
    rw [hscan, List.filter_append, List.filter_eq_self.mpr fun t ht =>
      decide_eq_true (hspells t ht).ne_eof]
    exact List.append_nil body
  have hcuts : Cuts (Text.join (txt " ") ((body.map lexical).map (·.2))) (body.map lexical) := by
    refine cuts_join fun l hl => ?_
    obtain ⟨t, ht, rfl⟩ := List.mem_map.mp hl
    have hmem : t ∈ scan source := by
      rw [hscan]
      exact List.mem_append_left _ ht
    exact ⟨h t hmem, scanFrom_opens _ _ source t hmem (hspells t ht).ne_eof (h t hmem)⟩
  rw [List.map_map] at hcuts
  rw [hbody, hscan, List.map_append]
  exact hcuts.scan

/-- A script whose tokens stand close: a range that looks like a fraction, numerals with all
kinds of ends, a string that holds a quote and a comment, and signs that other signs begin
with. -/
def crowdedScript : Text :=
  txt "a[1..5]/**/>=0x1Fl-.5+1.5e3f*2e+!=b#c\n" ++ txt "&&'it\\'s # x'~3d"

theorem crowdedScript_scan_join : (∀ t ∈ scan crowdedScript, t.kind ≠ .illegal) ∧
    (scan (Text.join (txt " ")
      (((scan crowdedScript).filter (·.kind ≠ .eof)).map (·.literal)))).map lexical =
        (scan crowdedScript).map lexical :=
  have h : ∀ t ∈ scan crowdedScript, t.kind ≠ .illegal := by decide +kernel
  ⟨h, scan_join crowdedScript h⟩

end Zensight.Token
