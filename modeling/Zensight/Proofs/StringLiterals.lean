import Zensight.Proofs.Spacing
import Zensight.Token.Literal

/-!
# String literals

Two searches go over the escapes of a string: the scanner looks for the quote that closes it, and
`unquote` decodes what stands before that quote. They do not share a step, so that they agree has
to be shown. `Decodes` says what a text between quotes stands for, one escape after another, and
has no rule for a backslash that takes nothing along. Decoding follows it wherever it applies
(`decodes_iff`), it applies to all that the scanner takes for a string (`StringBody.decodes`), and
writing a text with escapes is its inverse (`decodes_escape`).
-/

namespace Zensight.Token

/-! ## What escapes stand for -/

/-- The text between two quotes stands for the other one. -/
inductive Decodes : Text → Text → Prop where
  | nil : Decodes [] []
  | plain {c : UInt8} {s t : Text} : c ≠ byte '\\' → Decodes s t → Decodes (c :: s) (c :: t)
  | escape {s t : Text} (c : UInt8) :
      Decodes s t → Decodes (byte '\\' :: c :: s) (unescape c :: t)

/-- The number of backslashes at the end of a text. -/
def trailingBackslashes (s : Text) : Nat := (s.reverse.takeWhile (· == byte '\\')).length

/-- Does the text end outside an escape? Of the backslashes at its end each takes the next one
along, so none is left over if they are even in number. -/
def EndsOutsideEscape (s : Text) : Prop := trailingBackslashes s % 2 = 0

instance (s : Text) : Decidable (EndsOutsideEscape s) := inferInstanceAs (Decidable (_ = _))

/-- A byte in front makes a difference to the end only if nothing but backslashes follows it. -/
theorem trailingBackslashes_cons (c : UInt8) (s : Text) :
    trailingBackslashes (c :: s) =
      if c = byte '\\' ∧ trailingBackslashes s = s.length then s.length + 1
      else trailingBackslashes s := by
  unfold trailingBackslashes
  rw [List.reverse_cons, List.takeWhile_append, List.length_reverse]
  by_cases hall : (s.reverse.takeWhile (· == byte '\\')).length = s.length
  · rw [if_pos hall, List.length_append, List.length_reverse, List.takeWhile_cons]
    by_cases hc : c = byte '\\'
    · rw [if_pos (beq_iff_eq.mpr hc), if_pos ⟨hc, hall⟩]
      rfl
    · rw [if_neg fun h => hc (beq_iff_eq.mp h), if_neg fun h => hc h.1, hall]
      rfl
  · rw [if_neg hall, if_neg fun h => hall h.2]

theorem endsOutsideEscape_plain {c : UInt8} (hc : c ≠ byte '\\') (s : Text) :
    EndsOutsideEscape (c :: s) ↔ EndsOutsideEscape s := by
  rw [EndsOutsideEscape, trailingBackslashes_cons, if_neg fun h => hc h.1]
  rfl

/-- An escape in front keeps the number of backslashes at the end even or odd. -/
theorem endsOutsideEscape_escape (c : UInt8) (s : Text) :
    EndsOutsideEscape (byte '\\' :: c :: s) ↔ EndsOutsideEscape s := by
  rw [EndsOutsideEscape, EndsOutsideEscape, trailingBackslashes_cons, trailingBackslashes_cons,
    List.length_cons]
  by_cases hs : c = byte '\\' ∧ trailingBackslashes s = s.length
  · rw [if_pos hs, if_pos ⟨rfl, rfl⟩]
    omega
  · rw [if_neg hs]
    have hle : trailingBackslashes s ≤ s.length := by
      have hprefix := (List.takeWhile_prefix (l := s.reverse) (· == byte '\\')).length_le
      rwa [List.length_reverse] at hprefix
    rw [if_neg fun h => absurd h.2 (by omega)]

/-- Decoding follows the escapes of a text exactly if the text ends outside an escape. -/
theorem decodes_iff {s t : Text} : Decodes s t ↔ EndsOutsideEscape s ∧ unescapeAll s = t := by
  constructor
  · intro h
    induction h with
    | nil => exact ⟨rfl, rfl⟩
    | @plain c s t hc h ih =>
        refine ⟨(endsOutsideEscape_plain hc s).mpr ih.1, ?_⟩
        cases s with
        | nil => rw [← ih.2]; rfl
        | cons d s => rw [unescapeAll, if_neg hc, ih.2]
    | @escape s t c h ih =>
        refine ⟨(endsOutsideEscape_escape c s).mpr ih.1, ?_⟩
        rw [unescapeAll, if_pos rfl, ih.2]
  · rintro ⟨hends, rfl⟩
    fun_induction unescapeAll s with
    | case1 => exact .nil
    | case2 c =>
        refine .plain (fun hc => ?_) .nil
        rw [hc] at hends
        exact absurd hends (by decide)
    | case3 d s ih => exact .escape d (ih ((endsOutsideEscape_escape d s).mp hends))
    | case4 c d s hc ih => exact .plain hc (ih ((endsOutsideEscape_plain hc _).mp hends))

/-- What the scanner takes for the inside of a string is decoded escape by escape. -/
theorem StringBody.decodes {quote : UInt8} {body : Text} (h : StringBody quote body) :
    Decodes body (unescapeAll body) := by
  have hends : EndsOutsideEscape body := by
    induction h with
    | nil => rfl
    | plain _ _ hb _ ih => exact (endsOutsideEscape_plain hb _).mpr ih
    | escape _ _ ih => exact (endsOutsideEscape_escape _ _).mpr ih
  exact decodes_iff.mpr ⟨hends, rfl⟩

theorem unquote_quotes (quote : UInt8) (body : Text) :
    unquote (quote :: (body ++ [quote])) = unescapeAll body := by
  have hlength : (quote :: (body ++ [quote])).length = body.length + 2 := by simp
  rw [unquote, hlength, if_neg (by omega), List.tail_cons, Nat.add_sub_cancel, List.take_left]

/-! ## Writing a text as a literal -/

/-- How a byte is written between two quotes. -/
def escape (quote c : UInt8) : Text :=
  if c = byte '\\' then [byte '\\', byte '\\']
  else if c = quote then [byte '\\', quote]
  else if c = byte '\n' then [byte '\\', byte 'n']
  else if c = byte '\t' then [byte '\\', byte 't']
  else if c = byte '\r' then [byte '\\', byte 'r']
  else [c]

/-- The literal that a text is written as. -/
def literalOf (quote : UInt8) (s : Text) : Text :=
  quote :: (s.flatMap (escape quote) ++ [quote])

/-- A byte is written as itself, or as a backslash and a byte that stands for it. -/
theorem escape_cases {quote : UInt8} (hquote : IsQuote quote) (c : UInt8) :
    (escape quote c = [c] ∧ c ≠ byte '\\' ∧ c ≠ quote ∧ c ≠ byte '\n') ∨
      ∃ d, escape quote c = [byte '\\', d] ∧ unescape d = c ∧ endsLine d = false := by
  have hmark : unescape quote = quote ∧ endsLine quote = false := by
    rcases hquote with rfl | rfl <;> exact ⟨rfl, rfl⟩
  rw [escape]
  split
  · next hc => exact .inr ⟨_, rfl, hc.symm, rfl⟩
  split
  · next hc => exact .inr ⟨_, rfl, hmark.1.trans hc.symm, hmark.2⟩
  split
  · next hc => exact .inr ⟨_, rfl, hc.symm, rfl⟩
  split
  · next hc => exact .inr ⟨_, rfl, hc.symm, rfl⟩
  split
  · next hc => exact .inr ⟨_, rfl, hc.symm, rfl⟩
  · exact .inl ⟨rfl, by assumption, by assumption, by assumption⟩

theorem decodes_escape {quote : UInt8} (hquote : IsQuote quote) (s : Text) :
    Decodes (s.flatMap (escape quote)) s := by
  induction s with
  | nil => exact .nil
  | cons c s ih =>
      rw [List.flatMap_cons]
      rcases escape_cases hquote c with ⟨hc, hb, -⟩ | ⟨d, hc, rfl, -⟩
      · rw [hc]
        exact .plain hb ih
      · rw [hc]
        exact .escape d ih

/-- What a text is written as closes neither the string nor the line. -/
theorem stringBody_escape {quote : UInt8} (hquote : IsQuote quote) {s : Text} (hs : 0 ∉ s) :
    StringBody quote (s.flatMap (escape quote)) := by
  induction s with
  | nil => exact .nil
  | cons c s ih =>
      obtain ⟨hzero, hs⟩ := not_or.mp fun h => hs (List.mem_cons.mpr h)
      rw [List.flatMap_cons]
      rcases escape_cases hquote c with ⟨hc, hb, hq, hn⟩ | ⟨d, hc, -, hd⟩
      · have hline : endsLine c = false := by
          rw [endsLine, Bool.or_eq_false_iff, beq_eq_false_iff_ne, beq_eq_false_iff_ne]
          exact ⟨Ne.symm hzero, hn⟩
        rw [hc]
        exact .plain hline hq hb (ih hs)
      · rw [hc]
        exact .escape hd (ih hs)

/-! ## Scanning literals -/

/-- The token of a string reaches from its quote to the one that closes it. -/
theorem StringBody.opens {quote : UInt8} (hquote : IsQuote quote) {body : Text}
    (h : StringBody quote body) (rest : Text) :
    Opens .stringLit (quote :: (body ++ [quote])) rest := by
  have hstart : quote ≠ 0 ∧ isBlank quote = false ∧ quote ≠ byte '#' ∧ quote ≠ byte '/' := by
    rcases hquote with rfl | rfl <;> decide
  refine .intro hstart.1 ?_ ?_
  · exact blankLength_eq_zero_iff.mpr ⟨hstart.2.1, hstart.2.2.1, fun h => hstart.2.2.2 h.1⟩
  · have hclosed :
        stringEnd quote (body ++ [quote] ++ rest) = .closed (body ++ [quote]).length := by
      rw [List.append_assoc, List.singleton_append, stringEnd_of_body hquote h,
        List.length_append]
      rfl
    unfold IsQuote at hquote
    rw [Lexeme.read, if_pos hquote, Lexeme.ofString, List.tail_cons, hclosed]
    exact Lexeme.cut_eq_iff.mpr ⟨rfl, rfl⟩

/-- Only a quote begins a string, and what is cut off is closed. -/
theorem Lexeme.read_stringLit {c : UInt8} {s : Text}
    (h : (read c (c :: s)).kind = .stringLit) :
    IsQuote c ∧ ∃ body, StringBody c body ∧ (read c (c :: s)).literal = c :: (body ++ [c]) := by
  rw [read] at h ⊢
  split at h
  · next hquote =>
      have hfinds := stringEnd_finds hquote s
      rw [if_pos hquote]
      rw [ofString, List.tail_cons] at h ⊢
      split at h
      · next n hend =>
          rw [hend] at hfinds
          obtain ⟨body, hbody, htake, -⟩ := hfinds
          exact ⟨hquote, body, hbody, by rw [cut, List.take_succ_cons, htake]⟩
      · cases h
  split at h
  · next w =>
      rcases Kind.ofWord_cases (List.take (run _ (c :: s)) (c :: s)) with hword | ⟨hword, -⟩
      · cases hword.symm.trans h
      · rw [show Kind.ofWord _ = Kind.stringLit from h] at hword
        cases hword
  split at h
  · have hkind : (numeral (c :: s)).1 = .stringLit := h
    rcases numeral_kind (c :: s) with hnumeral | hnumeral | hnumeral | hnumeral <;>
      cases hnumeral.symm.trans hkind
  · rcases ofSigns_kind c (c :: s) with hsign | hillegal
    · rw [h] at hsign
      cases hsign
    · cases hillegal.symm.trans h

/-- The literal of a text is one token and stands for the text. The token of a string in any
source is two quotes with a text between them that ends outside an escape, so that decoding it
comes to no backslash that takes nothing along. -/
theorem literals_decode :
    (∀ quote s, IsQuote quote → 0 ∉ s →
      scan (literalOf quote s) = [⟨.stringLit, literalOf quote s, .start⟩,
        ⟨.eof, [], Place.start.after (literalOf quote s)⟩] ∧
      unquote (literalOf quote s) = s) ∧
    (∀ source, ∀ t ∈ scan source, t.kind = .stringLit →
      ∃ quote body, IsQuote quote ∧ t.literal = quote :: (body ++ [quote]) ∧
        EndsOutsideEscape body ∧ Decodes body (unquote t.literal)) := by
  refine ⟨fun quote s hquote hs => ⟨?_, ?_⟩, fun source t ht hkind => ?_⟩
  · have hopens := (stringBody_escape hquote hs).opens hquote []
    have hscan := hopens.scanFrom (literalOf quote s).length .start
    rw [List.append_nil] at hscan
    exact hscan
  · rw [literalOf, unquote_quotes]
    exact (decodes_iff.mp (decodes_escape hquote s)).2
  · obtain ⟨rest, hopens⟩ := scanFrom_opens _ _ source t ht (by simp [hkind]) (by simp [hkind])
    rw [hkind] at hopens
    generalize t.literal = w at hopens ⊢
    obtain @⟨c, w, _, -, -, hread⟩ := hopens
    obtain ⟨hquote, body, hbody, hliteral⟩ := Lexeme.read_stringLit (congrArg Lexeme.kind hread)
    rw [hread] at hliteral
    rw [show c :: w = _ from hliteral, unquote_quotes]
    have hdecodes := hbody.decodes
    exact ⟨c, body, hquote, rfl, (decodes_iff.mp hdecodes).1, hdecodes⟩

/-- Quotes of both kinds, a backslash before each of them and at the end, and a tab before the end
of the line. -/
def crossedQuotes : Text := txt "\\\"\\'\t\n\\\\"

theorem crossedQuotes_literals_decode :
    scan (literalOf (byte '"') crossedQuotes) =
        [⟨.stringLit, literalOf (byte '"') crossedQuotes, .start⟩,
          ⟨.eof, [], Place.start.after (literalOf (byte '"') crossedQuotes)⟩] ∧
      unquote (literalOf (byte '"') crossedQuotes) = crossedQuotes ∧
      ∃ quote body, IsQuote quote ∧
        literalOf (byte '"') crossedQuotes = quote :: (body ++ [quote]) ∧
        EndsOutsideEscape body ∧
        Decodes body (unquote (literalOf (byte '"') crossedQuotes)) := by
  obtain ⟨hscan, htext⟩ := literals_decode.1 (byte '"') crossedQuotes (.inl rfl) (by decide +kernel)
  refine ⟨hscan, htext, literals_decode.2 (literalOf (byte '"') crossedQuotes)
    ⟨.stringLit, literalOf (byte '"') crossedQuotes, .start⟩ ?_ rfl⟩
  rw [hscan]
  exact List.mem_cons_self

end Zensight.Token
