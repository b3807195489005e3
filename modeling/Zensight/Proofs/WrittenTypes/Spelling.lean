import Zensight.Proofs.Scanning.Cuts
import Zensight.Proofs.Spans
import Zensight.Proofs.WrittenTypes.Trees
import Zensight.Tree.Print

/-!
# How types are spelled

The spelling of a type has blanks around the signs of an intersection and nowhere else, so most
of its tokens touch. They stay apart because words and signs take turns: a word ends before a
byte that is neither a letter nor a digit, and none of the signs begins a longer one with what
stands behind it here. `Text.SpellsOut` says of a text that it is cut into the tokens that some
pieces allow, wherever no word goes on behind it; such texts are put together as types are.
-/

namespace Zensight

namespace Token

/-- No word goes on with this text. -/
def EndsWord (rest : Text) : Prop :=
  ∀ c ∈ rest.head?, (Text.isLetter c || Text.isDigit c) = false

theorem endsWord_nil : EndsWord [] := by simp [EndsWord]

theorem endsWord_cons {c : UInt8} (hc : (Text.isLetter c || Text.isDigit c) = false) (s : Text) :
    EndsWord (c :: s) := by
  simpa [EndsWord] using hc

theorem EndsWord.append {s rest : Text} (hs : EndsWord s) (hrest : EndsWord rest) :
    EndsWord (s ++ rest) := by
  cases s with
  | nil => exact hrest
  | cons c s => exact hs

theorem run_append {p : UInt8 → Bool} {w rest : Text} (hw : ∀ b ∈ w, p b = true)
    (hrest : ∀ c ∈ rest.head?, p c = false) : run p (w ++ rest) = w.length := by
  have hzero := run_eq_zero hrest
  rw [run] at hzero ⊢
  rw [List.takeWhile_append_of_pos hw, List.length_append, hzero, Nat.add_zero]

theorem opens_word {w rest : Text} (hw : w.isWord = true) (hrest : EndsWord rest) :
    Opens (.ofWord w) w rest := by
  match w with
  | [] => cases hw
  | c :: w =>
      rw [Text.isWord, Bool.and_eq_true, List.all_eq_true] at hw
      obtain ⟨hletter, hword⟩ := hw
      have hne {d : UInt8} (hd : Text.isLetter d = false) : c ≠ d := by
        rintro rfl
        rw [hletter] at hd
        cases hd
      have hblank : isBlank c = false := by
        refine Bool.eq_false_iff.mpr fun hc => ?_
        have hnot := false_of_isBlank (p := Text.isLetter) rfl rfl rfl rfl hc
        rw [hletter] at hnot
        cases hnot
      refine .intro (hne rfl) ?_ ?_
      · exact blankLength_eq_zero_iff.mpr ⟨hblank, hne rfl, fun h => hne rfl h.1⟩
      · have hrun : run (fun b => Text.isLetter b || Text.isDigit b) (c :: (w ++ rest)) =
            w.length + 1 := by
          rw [run_cons, hletter, Bool.true_or, if_pos rfl, run_append hword hrest]
        rw [Lexeme.read, if_neg (by rintro (h | h) <;> exact hne rfl h), if_pos hletter]
        dsimp only
        rw [hrun]
        refine Lexeme.cut_eq_iff.mpr ⟨?_, rfl⟩
        rw [List.take_succ_cons, List.take_left]

/-- Can the byte begin a sign, but no token of another kind and no comment? -/
def beginsSign (c : UInt8) : Bool :=
  !(c == 0 || isBlank c || c == byte '#' || c == byte '/' || c == byte '"' || c == byte '\'' ||
    Text.isLetter c || Text.isDigit c)

theorem opens_sign {k : Kind} {c : UInt8} {rest : Text} (hc : beginsSign c = true)
    (hk : Kind.ofSign? [c] = some k) (hrest : ∀ d ∈ rest.head?, Kind.ofSign? [c, d] = none) :
    Opens k [c] rest := by
  simp only [beginsSign, Bool.not_eq_true', Bool.or_eq_false_iff, beq_eq_false_iff_ne] at hc
  obtain ⟨⟨⟨⟨⟨⟨⟨h0, hblank⟩, hhash⟩, hslash⟩, hquote⟩, hquote'⟩, hletter⟩, hdigit⟩ := hc
  refine .intro h0 ?_ ?_
  · exact blankLength_eq_zero_iff.mpr ⟨hblank, hhash, fun h => hslash h.1⟩
  · have hnone : rest.head?.bind (fun d => Kind.ofSign? [c, d]) = none :=
      Option.bind_eq_none_iff.mpr hrest
    rw [Lexeme.read, if_neg (not_or.mpr ⟨hquote, hquote'⟩), if_neg (by simp [hletter]),
      if_neg (by simp [hdigit]), Lexeme.ofSigns, List.tail_cons, List.nil_append, hnone]
    dsimp only
    rw [hk]
    rfl

/-- A sign that begins no longer one. -/
theorem Kind.ofSign?_lone {c : UInt8}
    (hc : ∀ k : Kind, (k.name.head? == some c && k.name.length == 2) = false) (d : UInt8) :
    ofSign? [c, d] = none := by
  cases hsign : ofSign? [c, d] with
  | none => rfl
  | some k =>
      have hk := hc k
      rw [← (lookup_name hsign).2] at hk
      simp at hk

end Token

/-- Is it a parenthesis, a bracket or a comma? None of them begins another sign. -/
def Token.Kind.isBracket : Token.Kind → Bool
  | lparen | rparen | lbracket | rbracket | comma => true
  | _ => false

open Piece (sign word joined)

/-- Tokens of these kinds and with these literals are what the pieces allow. -/
def Allows (ps : List Piece) (ls : List (Token.Kind × Text)) : Prop :=
  ∀ ts : List Token, ts.map Token.lexical = ls → Fits ps ts

namespace Allows

variable {ps qs : List Piece} {ls ms : List (Token.Kind × Text)}

theorem nil : Allows [] [] := by
  intro ts hts
  rw [List.map_eq_nil_iff.mp hts]
  exact .nil

theorem token (kind : Token.Kind) (text : Text) : Allows [.token kind text] [(kind, text)] := by
  intro ts hts
  obtain ⟨t, us, rfl, ht, hus⟩ := List.map_eq_cons_iff.mp hts
  rw [List.map_eq_nil_iff.mp hus]
  obtain ⟨rfl, rfl⟩ := Prod.mk.inj ht
  exact .one .token

theorem append (h : Allows ps ls) (h' : Allows qs ms) : Allows (ps ++ qs) (ls ++ ms) := by
  intro ts hts
  obtain ⟨us, vs, rfl, hus, hvs⟩ := List.map_eq_append_iff.mp hts
  exact (h us hus).append (h' vs hvs)

end Allows

/-- Wherever no word goes on behind it, the text is cut into tokens that the pieces allow. -/
def Text.SpellsOut (s : Text) (ps : List Piece) : Prop :=
  ∀ rest ls, Token.EndsWord rest → Token.Cuts rest ls →
    ∃ ms, Token.Cuts (s ++ rest) (ms ++ ls) ∧ Allows ps ms

namespace Text.SpellsOut

variable {s s' : Text} {ps qs : List Piece} {k : Token.Kind} {c : UInt8}

theorem nil : SpellsOut [] [] := fun _ _ _ hls => ⟨[], hls, .nil⟩

theorem word {w : Text} (hw : w.isWord = true) : SpellsOut w (Piece.word w) := fun _ _ hrest hls =>
  ⟨[(.ofWord w, w)], .token (Token.opens_word hw hrest) hls, .token _ _⟩

theorem append (h : SpellsOut s ps) (h' : SpellsOut s' qs) (hs' : Token.EndsWord s') :
    SpellsOut (s ++ s') (ps ++ qs) := by
  intro rest ls hrest hls
  obtain ⟨ms, hms, hallow⟩ := h' rest ls hrest hls
  obtain ⟨ms', hms', hallow'⟩ := h _ _ (hs'.append hrest) hms
  refine ⟨ms' ++ ms, ?_, hallow'.append hallow⟩
  rwa [List.append_assoc, List.append_assoc]

theorem blank (hc : Token.isBlank c = true) (h : SpellsOut s ps) : SpellsOut (c :: s) ps := by
  intro rest ls hrest hls
  obtain ⟨ms, hms, hallow⟩ := h rest ls hrest hls
  exact ⟨ms, .blank hc hms, hallow⟩

/-- A sign that does not become another one with what follows it. -/
theorem sign (hc : Token.beginsSign c = true) (hk : Token.Kind.ofSign? [c] = some k)
    (hnext : ∀ rest, ∀ d ∈ (s ++ rest).head?, Token.Kind.ofSign? [c, d] = none)
    (h : SpellsOut s ps) : SpellsOut (c :: s) (Piece.sign k ++ ps) := by
  intro rest ls hrest hls
  obtain ⟨ms, hms, hallow⟩ := h rest ls hrest hls
  refine ⟨(k, [c]) :: ms, .token (Token.opens_sign hc hk (hnext rest)) hms, ?_⟩
  have hsign : Allows (Piece.sign k) [(k, [c])] := by
    rw [Piece.sign, ← (Token.Kind.lookup_name hk).2]
    exact .token k [c]
  exact hsign.append hallow

/-- A parenthesis, a bracket or a comma. -/
theorem bracket (hk : k.isBracket = true) (h : SpellsOut s ps) :
    SpellsOut (k.name ++ s) (Piece.sign k ++ ps) := by
  cases k with
  | lparen | rparen | lbracket | rbracket | comma =>
      refine .sign rfl rfl (fun _ d _ => Token.Kind.ofSign?_lone ?_ d) h
      decide
  | _ => cases hk

theorem amp (h : SpellsOut s ps) : SpellsOut (txt " & " ++ s) (Piece.sign .amp ++ ps) := by
  refine .blank rfl (.sign rfl rfl (fun rest d hd => ?_) (.blank rfl h))
  cases hd
  exact Token.Kind.ofSign?_blank rfl

/-- A dot in front of a word. -/
theorem dot {w : Text} (hw : w.isWord = true) (h : SpellsOut (w ++ s) ps) :
    SpellsOut (txt "." ++ (w ++ s)) (Piece.sign .dot ++ ps) := by
  refine .sign rfl rfl (fun rest d hd => ?_) h
  have hletter : Text.isLetter d = true := by
    match w with
    | [] => cases hw
    | c :: w =>
        cases hd
        exact (Bool.and_eq_true_iff.mp hw).1
  show Token.Kind.ofSign? [byte '.', d] = none
  cases hsign : Token.Kind.ofSign? [byte '.', d] with
  | none => rfl
  | some k =>
      have hall : ∀ k : Token.Kind, (k.name.head? == some (byte '.') && k.name.length == 2 &&
          k.name.getLast? != some (byte '.')) = false := by decide
      have hk := hall k
      rw [← (Token.Kind.lookup_name hsign).2] at hk
      obtain rfl : d = byte '.' := by simpa using hk
      cases hletter

/-- Texts with a separator between neighbours. What the separator is may depend on how the next
text begins. -/
theorem join {α : Type} {sep : Text} {text : α → Text} {pieces : α → List Piece} {xs : List α}
    (hsep : ∀ x ∈ xs, ∀ {s ps}, SpellsOut (text x ++ s) ps →
      SpellsOut (sep ++ (text x ++ s)) (Piece.sign k ++ ps))
    (hends : ∀ s, Token.EndsWord (sep ++ s))
    (h : ∀ x ∈ xs, SpellsOut (text x) (pieces x)) :
    SpellsOut (Text.join sep (xs.map text)) (joined k (xs.map pieces)) := by
  match xs with
  | [] => exact nil
  | [x] => exact h x List.mem_cons_self
  | x :: y :: xs =>
      have hrest := join (fun z hz => hsep z (List.mem_cons_of_mem x hz)) hends
        fun z hz => h z (List.mem_cons_of_mem x hz)
      obtain ⟨s, hs⟩ : ∃ s, Text.join sep ((y :: xs).map text) = text y ++ s := by
        cases xs with
        | nil => exact ⟨[], (List.append_nil _).symm⟩
        | cons z xs => exact ⟨_, rfl⟩
      have hnext := hrest
      rw [hs] at hnext
      have hbehind := hsep y (List.mem_cons_of_mem x List.mem_cons_self) hnext
      rw [← hs] at hbehind
      exact (h x List.mem_cons_self).append hbehind (hends _)

end Text.SpellsOut

/-! ## Types -/

namespace Parts

open Rule (several)

variable {types : List Node} {result : Node}

theorem all_constituents : (ofList (several .constituent types)).all .constituent = types := by
  simpa [ofList, all] using all_several .constituent .constituent types []

theorem all_params :
    (ofList (several .param types ++ [(.result, result)])).all .param = types := by
  simpa [ofList, all] using all_several .param .param types [(.result, result)]

theorem all_result :
    (ofList (several .param types ++ [(.result, result)])).all .result = [result] := by
  simpa [ofList, all] using all_several .param .result types [(.result, result)]

theorem typeTextThen_result (s : Text) :
    (ofList (several .param types ++ [(.result, result)])).typeTextThen .result s =
      result.typeTextThen s := by
  induction types with
  | nil => rfl
  | cons t types ih => exact ih

end Parts

namespace Node

open Rule (several)

variable {span : Span} {e k v result : Node} {types : List Node}

theorem typeText_listType : (Node.of .listType span [(.element, e)]).typeText =
    txt "[" ++ (e.typeText ++ txt "]") := by
  simp [typeText, of, typeTextThen, Parts.ofList, Parts.typeTextThen, e.typeTextThen_eq (txt "]")]

theorem typeText_arrayType : (Node.of .arrayType span [(.element, e)]).typeText =
    e.typeText ++ txt "[]" := by
  simp [typeText, of, typeTextThen, Parts.ofList, Parts.typeTextThen, e.typeTextThen_eq (txt "[]")]

theorem typeText_mapType : (Node.of .mapType span [(.value, v), (.key, k)]).typeText =
    v.typeText ++ (txt "[" ++ (k.typeText ++ txt "]")) := by
  simp [typeText, of, typeTextThen, Parts.ofList, Parts.typeTextThen, k.typeTextThen_eq (txt "]"),
    v.typeTextThen_eq (txt "[" ++ _)]

theorem typeText_intersectionType :
    (Node.of .intersectionType span (several .constituent types)).typeText =
      Text.join (txt " & ") (types.map typeText) := by
  rw [typeText, of, typeTextThen, Parts.typeTextsThen_eq, Parts.all_constituents, List.append_nil]

theorem typeText_funcType :
    (Node.of .funcType span (several .param types ++ [(.result, result)])).typeText =
      txt "function(" ++
        (Text.join (txt ",") (types.map typeText) ++ (txt ")" ++ result.typeText)) := by
  rw [typeText, of, typeTextThen, Parts.typeTextsThen_eq, Parts.all_params,
    Parts.typeTextThen_result, typeText]

end Node

theorem Text.SpellsOut.commas {s : Text} {items : List (List Piece)}
    (h : s.SpellsOut (joined .comma items)) : s.SpellsOut (Piece.commas items) := by
  match items with
  | [] => exact h
  | item :: items =>
      intro rest ls hrest hls
      obtain ⟨ms, hms, hallow⟩ := h rest ls hrest hls
      have hnone : Allows [.lastComma] [] := by
        intro ts hts
        rw [List.map_eq_nil_iff.mp hts]
        exact .one .noComma
      refine ⟨ms, hms, ?_⟩
      have hboth := hallow.append hnone
      rwa [List.append_nil] at hboth

/-- A type is spelled with the tokens it is written as. -/
theorem IsType.spellsOut {t : Node} (h : IsType t) (hworded : t.All Node.IsWorded) :
    t.typeText.SpellsOut t.written := by
  have lbracket {s ps} (h : Text.SpellsOut s ps) :
      Text.SpellsOut (txt "[" ++ s) (sign .lbracket ++ ps) := .bracket (k := .lbracket) rfl h
  have rbracket : Text.SpellsOut (txt "]") (sign .rbracket) := .bracket (k := .rbracket) rfl .nil
  induction h with
  | @primitive kind span hk =>
      have hkeyword := Token.Kind.isKeyword_of_isPrimitive hk
      have hword : ∀ {k : Token.Kind}, k.isPrimitive = true → k.name.isWord = true := by decide
      have hspells := Text.SpellsOut.word (hword hk)
      rw [Piece.word, Token.Kind.name_of_isKeyword hkeyword] at hspells
      rw [Node.typeText, Node.leaf, Node.typeTextThen, List.append_nil]
      exact hspells
  | @named path span =>
      have hwords : ∀ w ∈ path, w.isWord = true :=
        List.all_eq_true.mp (Node.all_leaf.mp hworded)
      have hspells : (Text.join (txt ".") (path.map id)).SpellsOut (joined .dot (path.map word)) :=
        .join (fun w hw {s ps} h => .dot (hwords w hw) h) (fun s => Token.endsWord_cons rfl s)
          fun w hw => .word (hwords w hw)
      rw [List.map_id] at hspells
      rw [Node.typeText, Node.leaf, Node.typeTextThen, List.append_nil]
      exact hspells
  | @list e span _ ih =>
      rw [Node.typeText_listType, Node.written_listType]
      have he := ih ((Node.all_of.mp hworded).2 _ List.mem_cons_self)
      exact lbracket (he.append rbracket (Token.endsWord_cons rfl _))
  | @func params result span _ _ _ ihparams ihresult =>
      have hparts := (Node.all_of.mp hworded).2
      have hparams : (Text.join (txt ",") (params.map Node.typeText)).SpellsOut
          (joined .comma (params.map Node.written)) :=
        .join (fun _ _ {s ps} h => .bracket (k := .comma) rfl h)
          (fun s => Token.endsWord_cons rfl s) fun p hp => ihparams p hp
            (hparts (.param, p) (List.mem_append_left _ (List.mem_map_of_mem hp)))
      have hresult := ihresult (hparts _ (List.mem_append_right _ List.mem_cons_self))
      rw [Node.typeText_funcType, Node.written_funcType]
      have hbehind := hparams.commas.append (.bracket (k := .rparen) rfl hresult)
        (Token.endsWord_cons rfl _)
      exact (Text.SpellsOut.word (w := txt "function") rfl).append
        (.bracket (k := .lparen) rfl hbehind) (Token.endsWord_cons rfl _)
  | @array e span _ _ ih =>
      rw [Node.typeText_arrayType, Node.written_arrayType]
      have he := ih ((Node.all_of.mp hworded).2 _ List.mem_cons_self)
      exact he.append (lbracket rbracket) (Token.endsWord_cons rfl _)
  | @map v k span _ _ _ ihv ihk =>
      rw [Node.typeText_mapType, Node.written_mapType]
      have hparts := (Node.all_of.mp hworded).2
      have hk := ihk (hparts _ (List.mem_cons_of_mem _ List.mem_cons_self))
      refine (ihv (hparts _ List.mem_cons_self)).append ?_ (Token.endsWord_cons rfl _)
      exact lbracket (hk.append rbracket (Token.endsWord_cons rfl _))
  | @intersection first second rest span _ _ ih =>
      have hparts := (Node.all_of.mp hworded).2
      have htypes : (Text.join (txt " & ") ((first :: second :: rest).map Node.typeText)).SpellsOut
          (joined .amp ((first :: second :: rest).map Node.written)) :=
        .join (fun _ _ {s ps} h => .amp h) (fun s => Token.endsWord_cons rfl s)
          fun t ht => ih t ht (hparts (.constituent, t) (List.mem_map_of_mem ht))
      rw [Node.typeText_intersectionType, Node.written_intersectionType, ← Piece.joined_cons]
      exact htypes

end Zensight
