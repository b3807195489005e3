import Zensight.Proofs.Spans

/-!
# What bracket handlers keep

A bracket handler is the one phrase that takes any token, illegal ones too, and it keeps their
literals one after another. The literal of a legal token is its bytes, so a handler of legal tokens
keeps the bytes of the script without the layout between them. Two illegal tokens have another
literal: a string without its end has that of a message, and a byte outside ASCII that of the code
point with its number, which takes two bytes (`Token.Copies`).

One such token spoils the whole: what comes behind it cannot make up for the difference
(`flatMap_eq_iff`). A message begins with no quote. An encoded byte leaves a byte outside ASCII
over, and legal tokens begin with ASCII, so what is left over can only be matched by another such
byte, which leaves more.
-/

namespace Zensight

/-! ## Bytes outside ASCII -/

namespace Text

/-- Does the byte belong to ASCII? -/
def isAscii (c : UInt8) : Bool := c.toNat < 128

theorem ofChar_ascii {c : UInt8} (hc : isAscii c = true) : ofChar (Char.ofNat c.toNat) = [c] := by
  have hall : ∀ n < 128, ofChar (Char.ofNat n) = [UInt8.ofNat n] := by decide +kernel
  rw [hall c.toNat (by simpa [isAscii] using hc), UInt8.ofNat_toNat]

/-- The code point of a byte outside ASCII takes two of them. -/
theorem ofChar_not_ascii {c : UInt8} (hc : isAscii c = false) :
    ∃ a b, ofChar (Char.ofNat c.toNat) = [a, b] ∧ isAscii a = false ∧ isAscii b = false := by
  have hall : ∀ n < 256, 128 ≤ n →
      ofChar (Char.ofNat n) = [UInt8.ofNat (192 + n / 64), UInt8.ofNat (128 + n % 64)] ∧
      isAscii (UInt8.ofNat (192 + n / 64)) = false ∧
      isAscii (UInt8.ofNat (128 + n % 64)) = false := by decide +kernel
  exact ⟨_, _, hall c.toNat c.toNat_lt (by simpa [isAscii] using hc)⟩

theorem isAscii_of_isQuote {c : UInt8} (h : Token.IsQuote c) : isAscii c = true := by
  rcases h with rfl | rfl <;> rfl

/-- The bytes that words and numbers begin with belong to ASCII. -/
theorem isAscii_of_class {c : UInt8} (h : isLetter c = true ∨ isDigit c = true) :
    isAscii c = true := by
  have hall : ∀ n < 256, (isLetter (UInt8.ofNat n) || isDigit (UInt8.ofNat n)) = true →
      n < 128 := by decide +kernel
  have hlt := hall c.toNat c.toNat_lt (by simpa using h)
  simpa [isAscii] using hlt

end Text

namespace Token

theorem Kind.name_ascii (k : Kind) : ∀ c ∈ k.name, Text.isAscii c = true := by
  have hall : k.name.all Text.isAscii = true := by revert k; decide
  simpa using hall

/-! ## Bytes and literals -/

/-- What the scanner makes of the bytes of a token: the bytes themselves, a message if they are a
string without its end, or the encoding of a byte outside ASCII. -/
inductive Copies : Text → Text → Prop where
  | same {c : UInt8} {w : Text} : Text.isAscii c = true → Copies (c :: w) (c :: w)
  | message {quote : UInt8} {w : Text} :
      IsQuote quote → Copies (quote :: w) (txt "unterminated string")
  | encoded {c : UInt8} : Text.isAscii c = false → Copies [c] (Text.ofChar (Char.ofNat c.toNat))

/-- What begins with a byte is a legal token, which the byte of a word, a number, a string or a
sign can begin, or illegal in one of two ways. -/
theorem Lexeme.read_cases (c : UInt8) (s : Text) :
    ((read c s).kind ≠ .illegal ∧ Text.isAscii c = true) ∨
    (IsQuote c ∧ (read c s).kind = .illegal ∧ (read c s).literal = txt "unterminated string") ∨
    (¬ IsQuote c ∧ read c s = ⟨.illegal, Text.ofChar (Char.ofNat c.toNat), 1⟩) := by
  rw [read]
  split
  · next hquote =>
      rw [ofString]
      split
      · refine .inl ⟨fun hkind => ?_, Text.isAscii_of_isQuote hquote⟩
        cases hkind
      · exact .inr (.inl ⟨hquote, rfl, rfl⟩)
  next hquote =>
  split
  · next hletter =>
      exact .inl ⟨Kind.ofWord_ne_illegal _, Text.isAscii_of_class (.inl hletter)⟩
  split
  · next hdigit => exact .inl ⟨numeral_ne_illegal s, Text.isAscii_of_class (.inr hdigit)⟩
  have hsign {w : Text} {k : Kind} (h : Kind.ofSign? (c :: w) = some k) :
      k ≠ .illegal ∧ Text.isAscii c = true := by
    obtain ⟨hsign, hname⟩ := Kind.lookup_name h
    refine ⟨?_, k.name_ascii c (by rw [← hname]; exact List.mem_cons_self)⟩
    rintro rfl
    cases hsign
  rw [ofSigns]
  split
  · next k hk =>
      obtain ⟨d, -, hk⟩ := Option.bind_eq_some_iff.mp hk
      exact .inl (hsign hk)
  split
  · next k hk => exact .inl (hsign hk)
  · exact .inr (.inr ⟨hquote, rfl⟩)

/-- The bytes of a tile. -/
def Tile.bytes (x : Tile) (s : Text) : Text := s.extract x.start x.stop

/-- The tile is a string without its end, or a byte outside ASCII that stands for itself. -/
def Tile.Garbled (x : Tile) (s : Text) : Prop :=
  x.token.kind = .illegal ∧
    (Unterminated s x.start x.stop ∨ ∃ c, x.bytes s = [c] ∧ Text.isAscii c = false)

/-- The literal of a tile is what stands in the script, unless the tile is garbled. -/
theorem Tile.Fits.copies {x : Tile} {s : Text} (h : x.Fits s) :
    Copies (x.bytes s) x.token.literal ∧ (x.token.literal = x.bytes s ↔ ¬ x.Garbled s) := by
  obtain ⟨c, rest, hdrop, hread⟩ := h.read
  obtain ⟨n, hn⟩ := Nat.exists_eq_succ_of_ne_zero (Nat.ne_of_gt (Nat.sub_pos_of_lt h.start_lt))
  have hbytes : x.bytes s = c :: rest.take n := by
    rw [bytes, bytes_eq, hdrop, hn, List.take_succ_cons]
  rcases Lexeme.read_cases c (c :: rest) with
    ⟨hlegal, hascii⟩ | ⟨hquote, hillegal, hliteral⟩ | ⟨hquote, hsingle⟩
  · rw [hread] at hlegal
    have hliteral : x.token.literal = x.bytes s := (h.literal_eq hlegal).symm
    refine ⟨?_, iff_of_true hliteral fun hgarbled => hlegal hgarbled.1⟩
    rw [hliteral, hbytes]
    exact .same hascii
  · rw [hread] at hillegal hliteral
    have hopen : Unterminated s x.start x.stop := by
      refine (h.illegal hillegal).resolve_left fun hone => ?_
      exact hone.2 c (by rw [← List.head?_drop, hdrop]; rfl) hquote
    rw [show x.token.literal = _ from hliteral, hbytes]
    refine ⟨.message hquote, iff_of_false ?_ fun hnot => hnot ⟨hillegal, .inl hopen⟩⟩
    rcases hquote with rfl | rfl <;> exact nofun
  · rw [hread, Lexeme.mk.injEq, hn] at hsingle
    obtain ⟨hillegal, hliteral, hone⟩ := hsingle
    obtain rfl : n = 0 := Nat.succ.inj hone
    rw [List.take_zero] at hbytes
    rw [hliteral, hbytes]
    cases hascii : Text.isAscii c with
    | true =>
        rw [Text.ofChar_ascii hascii]
        refine ⟨.same hascii, iff_of_true rfl ?_⟩
        rintro ⟨-, ⟨⟨quote, _, hopen, hquote', -⟩, -, -⟩ | ⟨d, hd, hforeign⟩⟩
        · cases hdrop.symm.trans hopen
          exact hquote hquote'
        · cases hbytes.symm.trans hd
          cases hascii.symm.trans hforeign
    | false =>
        refine ⟨.encoded hascii, iff_of_false ?_ fun hnot => ?_⟩
        · obtain ⟨a, b, hencoded, -⟩ := Text.ofChar_not_ascii hascii
          rw [hencoded]
          exact nofun
        · exact hnot ⟨hillegal, .inr ⟨c, hbytes, hascii⟩⟩

/-! ## Many tokens -/

section

variable {α : Type} {bytes literal : α → Text}

/-- Bytes outside ASCII that are left over stay left over. -/
theorem lag_ne_flatMap {xs : List α} (h : ∀ x ∈ xs, Copies (bytes x) (literal x)) (lag : Text)
    (hne : lag ≠ []) (hlag : ∀ c ∈ lag, Text.isAscii c = false) :
    lag ++ xs.flatMap literal ≠ xs.flatMap bytes := by
  induction xs generalizing lag with
  | nil => simpa using hne
  | cons x xs ih =>
      obtain ⟨d, lag, rfl⟩ := List.exists_cons_of_ne_nil hne
      obtain ⟨hx, hxs⟩ := List.forall_mem_cons.mp h
      obtain ⟨hd, hlag⟩ := List.forall_mem_cons.mp hlag
      rw [List.flatMap_cons, List.flatMap_cons, ← List.append_assoc]
      generalize bytes x = w, literal x = v at hx
      cases hx with
      | same hc =>
          intro heq
          obtain ⟨rfl, -⟩ := List.cons.inj heq
          cases hd.symm.trans hc
      | message hquote =>
          intro heq
          obtain ⟨rfl, -⟩ := List.cons.inj heq
          cases hd.symm.trans (Text.isAscii_of_isQuote hquote)
      | encoded hc =>
          intro heq
          obtain ⟨a, b, hencoded, ha, hb⟩ := Text.ofChar_not_ascii hc
          rw [hencoded] at heq
          refine ih hxs (lag ++ [a, b]) (by simp) ?_ (List.cons.inj heq).2
          simpa [or_imp, forall_and] using ⟨hlag, ha, hb⟩

/-- Literals make up the bytes of the script only if each of them does. -/
theorem flatMap_eq_iff {xs : List α} (h : ∀ x ∈ xs, Copies (bytes x) (literal x)) :
    xs.flatMap literal = xs.flatMap bytes ↔ ∀ x ∈ xs, literal x = bytes x := by
  induction xs with
  | nil => simp
  | cons x xs ih =>
      obtain ⟨hx, hxs⟩ := List.forall_mem_cons.mp h
      rw [List.flatMap_cons, List.flatMap_cons, List.forall_mem_cons, ← ih hxs]
      generalize bytes x = w, literal x = v at hx
      cases hx with
      | same => simp
      | message hquote =>
          refine iff_of_false ?_ fun h => ?_
          · rcases hquote with rfl | rfl <;> exact nofun
          · rcases hquote with rfl | rfl <;> cases h.1
      | @encoded c hc =>
          obtain ⟨a, b, hencoded, ha, hb⟩ := Text.ofChar_not_ascii hc
          rw [hencoded]
          refine iff_of_false (fun heq => ?_) nofun
          exact lag_ne_flatMap hxs [b] (List.cons_ne_nil b []) (by simpa using hb) (List.cons.inj heq).2

end

end Token

/-! ## The handlers of a script -/

/-- The tiles of a bracket handler: its brackets and what stands between them. -/
structure Node.IsBracketed (n : Node) (source : Text) (opening : Token.Tile)
    (inner : List Token.Tile) (closing : Token.Tile) : Prop where
  opens : opening.token.kind = .less
  inside : ∀ x ∈ inner, x.token.kind.endsHandler = false
  closes : closing.token.kind = .greater
  span_eq : n.span = ⟨.ofOffset source opening.start, .ofOffset source closing.stop⟩

theorem Node.StandsOn.handler_inv {n : Node} {us : List Token} {raw : Text} (h : n.StandsOn us)
    (hform : n.form = .bracketHandler raw) :
    ∃ less inner greater, us = less :: inner ++ [greater] ∧ less.kind = .less ∧
      (∀ t ∈ inner, t.kind.endsHandler = false) ∧ greater.kind = .greater ∧
      n.span = .ofTokens us ∧ raw = inner.flatMap (·.literal) := by
  cases h with
  | led hled =>
      cases show _ = Form.bracketHandler raw from hform
      cases hled
  | param => cases hform
  | handler hless hinner hgreater =>
      cases hform
      exact ⟨_, _, _, rfl, hless, hinner, hgreater, rfl, rfl⟩
  | plain hplain =>
      cases show _ = Form.bracketHandler raw from hform
      cases hplain

theorem Span.ofTokens_concat {first last : Token} {inner : List Token}
    (hl : Laid (first :: inner ++ [last])) (hlast : last.kind ≠ .illegal) :
    Span.ofTokens (first :: inner ++ [last]) = ⟨first.place, last.stop⟩ := by
  have hend : (first :: inner ++ [last]).getLast? = some last := List.getLast?_concat
  have hfirm : Firm (first :: inner ++ [last]) := by
    intro t ht
    rw [hend] at ht
    cases ht
    exact hlast
  obtain ⟨first', last', hfirst', hlast', -, hspan⟩ := Span.Covers.ofTokens hl hfirm (by simp)
  cases hfirst'
  cases hend.symm.trans hlast'
  exact hspan

/-- A run of the tokens of a script from one bracket to the other, as tiles. -/
theorem Token.Tiled.bracketed {source : Text} {tiles : List Token.Tile} {n : Node}
    {less greater : Token} {inner : List Token} (h : Tiled source 0 tiles)
    (hrun : less :: inner ++ [greater] <:+: tiles.map (·.token)) (hless : less.kind = .less)
    (hinner : ∀ t ∈ inner, t.kind.endsHandler = false) (hgreater : greater.kind = .greater)
    (hspan : n.span = .ofTokens (less :: inner ++ [greater])) :
    ∃ opening middle closing, opening :: middle ++ [closing] <:+: tiles ∧
      inner = middle.map (·.token) ∧ n.IsBracketed source opening middle closing := by
  have hlaid := h.laid.sublist hrun.sublist
  have hcover := hspan.trans (Span.ofTokens_concat hlaid (by simp [hgreater]))
  obtain ⟨run, hblock, hmap⟩ := List.infix_map_iff.mp hrun
  obtain ⟨front, back, rfl, hfront, hback⟩ := List.append_eq_map_iff.mp hmap
  obtain ⟨opening, middle, rfl, rfl, rfl⟩ := List.map_eq_cons_iff.mp hfront
  obtain ⟨closing, rfl, rfl⟩ := List.map_eq_singleton_iff.mp hback
  have hopening := h.fits opening (hblock.subset (by simp))
  have hclosing := h.fits closing (hblock.subset (by simp))
  refine ⟨opening, middle, closing, hblock, rfl, hless, ?_, hgreater, ?_⟩
  · exact fun x hx => hinner x.token (List.mem_map_of_mem hx)
  · rw [hcover, hopening.place_eq, hclosing.stop_eq (by simp [hgreater])]

/-- Bracket handlers keep the script. The tokens of a script without faults tile it, and each
handler in its tree has a run of tiles from the bracket that opens it to the first that can close
it. What it keeps is the bytes of the tiles between them, that is all of the script there but the
layout between tokens, just if none of these tiles is garbled. -/
theorem Text.parse_handlers_keep {source : Text} (h : source.parse.2.hasErrors = false) :
    ∃ tiles, Token.Tiled source 0 tiles ∧
      Token.scan source = tiles.map (·.token) ++
        [⟨.eof, [], .ofOffset source (Token.endOffset source)⟩] ∧
      ∀ n ∈ source.parse.1.preorder, ∀ raw, n.form = .bracketHandler raw →
        ∃ opening inner closing, opening :: inner ++ [closing] <:+: tiles ∧
          n.IsBracketed source opening inner closing ∧
          (raw = inner.flatMap (·.bytes source) ↔ ∀ x ∈ inner, ¬ x.Garbled source) := by
  obtain ⟨body, eof, hscan, -, -, -, hreads⟩ := Text.parse_reads h
  obtain ⟨tiles, htiles, htokens⟩ := Token.scan_tiled source
  obtain ⟨rfl, -⟩ := List.append_inj' (hscan.symm.trans htokens) rfl
  refine ⟨tiles, htiles, htokens, fun n hn raw hform => ?_⟩
  obtain ⟨us, hrun, hstands⟩ := hreads.made _ List.mem_cons_self n hn
  obtain ⟨less, inner, greater, rfl, hless, hinner, hgreater, hspan, rfl⟩ :=
    hstands.handler_inv hform
  obtain ⟨opening, middle, closing, hblock, rfl, hbracketed⟩ :=
    htiles.bracketed hrun hless hinner hgreater hspan
  refine ⟨opening, middle, closing, hblock, hbracketed, ?_⟩
  have hfits (x : Token.Tile) (hx : x ∈ middle) : x.Fits source :=
    htiles.fits x (hblock.subset (by simp [hx]))
  rw [List.flatMap_map, Token.flatMap_eq_iff fun x hx => (hfits x hx).copies.1]
  exact forall₂_congr fun x hx => (hfits x hx).copies.2

/-- Handlers with a string, a comment and what is no token in them, and one with a byte outside
ASCII. -/
def quotingHandlers : Text := txt "f(<a:@ '>é' /* > */ 1..2>, <é>);"

theorem quotingHandlers_keep :
    quotingHandlers.parse.2.hasErrors = false ∧
    ∃ tiles, Token.Tiled quotingHandlers 0 tiles ∧
      Token.scan quotingHandlers = tiles.map (·.token) ++
        [⟨.eof, [], .ofOffset quotingHandlers (Token.endOffset quotingHandlers)⟩] ∧
      ∀ n ∈ quotingHandlers.parse.1.preorder, ∀ raw, n.form = .bracketHandler raw →
        ∃ opening inner closing, opening :: inner ++ [closing] <:+: tiles ∧
          n.IsBracketed quotingHandlers opening inner closing ∧
          (raw = inner.flatMap (·.bytes quotingHandlers) ↔
            ∀ x ∈ inner, ¬ x.Garbled quotingHandlers) :=
  ⟨by decide +kernel, Text.parse_handlers_keep (by decide +kernel)⟩

/-- The first handler keeps what is written, the second one does not. -/
theorem quotingHandlers_raw :
    (∃ n ∈ quotingHandlers.parse.1.preorder, n.form = .bracketHandler (txt "a:@'>é'1..2")) ∧
    ∃ n ∈ quotingHandlers.parse.1.preorder, n.form = .bracketHandler (txt "Ã©") := by
  decide +kernel

end Zensight
