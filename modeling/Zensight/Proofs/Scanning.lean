import Zensight.Token.Scan

/-!
# What the scanner makes of a script

Three facts about the tokens of any byte string are all that reading relies on:
the last one, and it alone, ends the script; a token of a kind that has one
spelling is spelled that way, and a name is a word that is no keyword; and the
places of tokens grow from each to the next.
-/

namespace Zensight

namespace Place

variable {p q r : Place}

theorem isBefore_iff :
    p.isBefore q = true ↔ p.line < q.line ∨ (p.line = q.line ∧ p.column < q.column) := by
  simp [isBefore]

theorem isBefore_trans (h₁ : p.isBefore q = true) (h₂ : q.isBefore r = true) :
    p.isBefore r = true := by
  rw [isBefore_iff] at *
  omega

theorem isBefore_asymm (h : p.isBefore q = true) : ¬ q.isBefore p = true := by
  rw [isBefore_iff] at *
  omega

theorem eq_of_not_isBefore (h₁ : ¬ p.isBefore q = true) (h₂ : ¬ q.isBefore p = true) : p = q := by
  rw [isBefore_iff] at *
  obtain ⟨l, c⟩ := p
  obtain ⟨l', c'⟩ := q
  simp only [Place.mk.injEq] at *
  omega

theorem isBefore_of_not (h₁ : p.isBefore q = true) (h₂ : ¬ r.isBefore q = true) :
    p.isBefore r = true := by
  rw [isBefore_iff] at *
  omega

theorem isBefore_next (p : Place) (c : UInt8) : p.isBefore (p.next c) = true := by
  rw [isBefore_iff, next]
  split <;> simp

theorem isBefore_after {s : Text} (hs : s ≠ []) (p : Place) : p.isBefore (p.after s) = true := by
  induction s generalizing p with
  | nil => exact absurd rfl hs
  | cons c s ih =>
      cases s with
      | nil => exact isBefore_next p c
      | cons d s => exact isBefore_trans (isBefore_next p c) (ih (by simp) (p.next c))

theorem not_isBefore_after (p : Place) (s : Text) : ¬ (p.after s).isBefore p = true := by
  cases s with
  | nil => rw [isBefore_iff]; exact fun h => by simp [after] at h
  | cons c s =>
      have h := isBefore_after (List.cons_ne_nil c s) p
      rw [isBefore_iff] at *
      omega

instance : LE Place := ⟨fun p q => ¬ q.isBefore p = true⟩

theorem le_iff : p ≤ q ↔ p.line < q.line ∨ (p.line = q.line ∧ p.column ≤ q.column) := by
  show ¬ q.isBefore p = true ↔ _
  rw [isBefore_iff]
  omega

theorem le_refl (p : Place) : p ≤ p := by
  rw [le_iff]
  omega

theorem le_trans (h₁ : p ≤ q) (h₂ : q ≤ r) : p ≤ r := by
  rw [le_iff] at *
  omega

end Place

namespace Token

/-! ## Words and signs -/

namespace Kind

theorem mem_all (k : Kind) : k ∈ all := by
  have h : all[k.ctorIdx]? = some k := by cases k <;> rfl
  exact List.mem_of_getElem? h

/-- What is decidable of each kind is decidable of all of them. -/
instance decidableForall {p : Kind → Prop} [DecidablePred p] : Decidable (∀ k, p k) :=
  @decidable_of_decidable_of_iff (∀ k ∈ all, p k) (∀ k, p k) (List.decidableBAll p all)
    ⟨fun h k => h k (mem_all k), fun h k _ => h k⟩

/-- Has the kind one spelling, as keywords, operators and delimiters have? -/
def isFixed (k : Kind) : Bool := k.isKeyword || k.isSign

/-- Can a token of this kind have this text? -/
structure Spells (k : Kind) (w : Text) : Prop where
  ne_eof : k ≠ .eof
  fixed : k.isFixed = true → w = k.name
  /-- A name is a word that is no keyword, and it begins with a letter. -/
  word : k = .ident → w ≠ [] ∧ (∀ c ∈ w, Text.isLetter c = true ∨ Text.isDigit c = true) ∧
    ofWord w = .ident ∧ ∀ c ∈ w.head?, Text.isLetter c = true

theorem lookup_name {p : Kind → Bool} {w : Text} {k : Kind}
    (h : ((all.filter p).map fun k => (k.name, k)).lookup w = some k) :
    p k = true ∧ w = k.name := by
  obtain ⟨l₁, l₂, hl, -⟩ := List.lookup_eq_some_iff.mp h
  have hmem : (w, k) ∈ (all.filter p).map fun k => (k.name, k) := by
    rw [hl]
    simp
  obtain ⟨k', hk', heq⟩ := List.mem_map.mp hmem
  cases heq
  exact ⟨(List.mem_filter.mp hk').2, rfl⟩

theorem ofWord_cases (w : Text) :
    ofWord w = .ident ∨ ((ofWord w).isKeyword = true ∧ w = (ofWord w).name) := by
  rw [ofWord, keywords]
  cases hw : List.lookup w _ with
  | none => exact .inl rfl
  | some k => exact .inr (lookup_name hw)

theorem spells_ofWord {w : Text} (hne : w ≠ [])
    (hw : ∀ c ∈ w, Text.isLetter c = true ∨ Text.isDigit c = true)
    (hfirst : ∀ c ∈ w.head?, Text.isLetter c = true) : (ofWord w).Spells w := by
  rcases ofWord_cases w with hident | ⟨hkeyword, hname⟩
  · refine ⟨by rw [hident]; decide, ?_, fun _ => ⟨hne, hw, hident, hfirst⟩⟩
    rw [hident]
    intro h
    cases h
  · refine ⟨fun heof => ?_, fun _ => hname, fun hident => ?_⟩
    · rw [heof] at hkeyword
      cases hkeyword
    · rw [hident] at hkeyword
      cases hkeyword

theorem spells_sign {k : Kind} {s : Text} (h : ofSign? s = some k) : k.Spells s := by
  obtain ⟨hsign, hname⟩ := lookup_name h
  refine ⟨?_, fun _ => hname, ?_⟩
  all_goals
    rintro rfl
    cases hsign

/-- The kinds of tokens whose text is free. -/
theorem spells_free {k : Kind} (w : Text)
    (h : (k == .eof || k == .ident || k.isFixed) = false) : k.Spells w := by
  simp only [Bool.or_eq_false_iff, beq_eq_false_iff_ne] at h
  obtain ⟨⟨heof, hident⟩, hfixed⟩ := h
  refine ⟨heof, fun h => ?_, fun h => absurd h hident⟩
  rw [hfixed] at h
  cases h

theorem ne_eof_of_isFixed {k : Kind} (h : k.isFixed = true) : k ≠ .eof := by
  rintro rfl
  cases h

theorem isFixed_of_isKeyword {k : Kind} (h : k.isKeyword = true) : k.isFixed = true := by
  rw [isFixed, h]
  rfl

theorem isKeyword_of_isPrimitive {k : Kind} (h : k.isPrimitive = true) : k.isKeyword = true := by
  revert k
  decide

theorem name_of_isKeyword {k : Kind} (h : k.isKeyword = true) : ofWord k.name = k := by
  revert k
  decide

end Kind

/-! ## Lexemes -/

theorem numeral_kind (s : Text) :
    (numeral s).1 = .intLit ∨ (numeral s).1 = .longLit ∨ (numeral s).1 = .floatLit ∨
      (numeral s).1 = .doubleLit := by
  rw [numeral]
  dsimp only
  repeat' split
  all_goals simp

theorem run_pos {p : UInt8 → Bool} {c : UInt8} (hc : p c = true) (s : Text) :
    0 < run p (c :: s) := by
  rw [run, List.takeWhile_cons_of_pos hc, List.length_cons]
  exact Nat.succ_pos _

theorem numeral_length_pos {c : UInt8} (hc : Text.isDigit c = true) (s : Text) :
    0 < (numeral (c :: s)).2 := by
  have hpos := run_pos hc s
  rw [numeral]
  dsimp only
  repeat' split
  all_goals simp <;> omega

namespace Lexeme

theorem read_length_pos (c : UInt8) (s : Text) : 0 < (read c (c :: s)).length := by
  rw [read]
  split
  · rw [ofString]
    split <;> exact Nat.succ_pos _
  split
  next hletter => exact run_pos (by rw [hletter]; rfl) s
  split
  next hdigit => exact numeral_length_pos hdigit s
  · rw [ofSigns]
    split
    · exact Nat.succ_pos _
    · split <;> exact Nat.succ_pos _

theorem ofSigns_spells (c : UInt8) (s : Text) :
    (ofSigns c (c :: s)).kind.Spells (ofSigns c (c :: s)).literal := by
  rw [ofSigns]
  split
  next k hk =>
    obtain ⟨d, hd, hk⟩ := Option.bind_eq_some_iff.mp hk
    cases s with
    | nil => cases hd
    | cons e s =>
        cases hd
        exact Kind.spells_sign hk
  next =>
    split
    next k hk => exact Kind.spells_sign hk
    next => exact Kind.spells_free _ rfl

theorem read_spells (c : UInt8) (s : Text) :
    (read c (c :: s)).kind.Spells (read c (c :: s)).literal := by
  rw [read]
  split
  · rw [ofString]
    split <;> exact Kind.spells_free _ rfl
  split
  next hletter =>
    let p : UInt8 → Bool := fun b => Text.isLetter b || Text.isDigit b
    have htake : (c :: s).take (run p (c :: s)) = (c :: s).takeWhile p :=
      (List.prefix_iff_eq_take.mp (List.takeWhile_prefix p)).symm
    show (Kind.ofWord ((c :: s).take (run p (c :: s)))).Spells ((c :: s).take (run p (c :: s)))
    have hcons : (c :: s).takeWhile p = c :: s.takeWhile p :=
      List.takeWhile_cons_of_pos (by simp [p, hletter])
    rw [htake]
    refine Kind.spells_ofWord (by simp [hcons]) (fun b hb => ?_) (by simp [hcons, hletter])
    have hall := List.all_eq_true.mp (List.all_takeWhile (p := p) (l := c :: s)) b hb
    exact Bool.or_eq_true_iff.mp hall
  split
  next hdigit =>
    refine Kind.spells_free _ ?_
    rcases numeral_kind (c :: s) with hkind | hkind | hkind | hkind
    all_goals
      simp only [cut, hkind]
      rfl
  · exact ofSigns_spells c s

end Lexeme

/-! ## Whole scripts -/

theorem scanFrom_eq (fuel : Nat) (p : Place) (s : Text) :
    ∃ body stop, scanFrom fuel p s = body ++ [⟨.eof, [], stop⟩] ∧
      ∀ t ∈ body, t.kind.Spells t.literal := by
  induction fuel generalizing p s with
  | zero => exact ⟨[], p, rfl, by simp⟩
  | succ fuel ih =>
      rw [scanFrom]
      dsimp only
      split
      next => exact ⟨[], _, rfl, by simp⟩
      next c rest _ =>
        split
        next => exact ⟨[], _, rfl, by simp⟩
        next =>
          obtain ⟨body, stop, hbody, hspells⟩ := ih
            ((p.after (s.take (blankLength .between s))).after
              ((c :: rest).take (Lexeme.read c (c :: rest)).length))
            ((c :: rest).drop (Lexeme.read c (c :: rest)).length)
          refine ⟨_ :: body, stop, by rw [hbody]; rfl, fun t ht => ?_⟩
          rcases List.mem_cons.mp ht with rfl | ht
          · exact Lexeme.read_spells c rest
          · exact hspells t ht

theorem scanFrom_places (fuel : Nat) (p : Place) (s : Text) :
    (scanFrom fuel p s).Pairwise (fun t u => t.place.isBefore u.place = true) ∧
      ∀ t ∈ scanFrom fuel p s, ¬ t.place.isBefore p = true := by
  induction fuel generalizing p s with
  | zero =>
      refine ⟨List.pairwise_singleton _ _, fun t ht => ?_⟩
      rw [List.mem_singleton.mp ht]
      exact Place.not_isBefore_after p []
  | succ fuel ih =>
      have hblank := Place.not_isBefore_after p (s.take (blankLength .between s))
      have hend : ∀ t ∈ [(⟨.eof, [], p.after (s.take (blankLength .between s))⟩ : Token)],
          ¬ t.place.isBefore p = true := by
        intro t ht
        rw [List.mem_singleton.mp ht]
        exact hblank
      rw [scanFrom]
      dsimp only
      split
      next => exact ⟨List.pairwise_singleton _ _, hend⟩
      next c rest _ =>
        split
        next => exact ⟨List.pairwise_singleton _ _, hend⟩
        next =>
          have htake : (c :: rest).take (Lexeme.read c (c :: rest)).length ≠ [] := by
            have hpos := Lexeme.read_length_pos c rest
            obtain ⟨k, hk⟩ := Nat.exists_eq_succ_of_ne_zero (Nat.pos_iff_ne_zero.mp hpos)
            rw [hk, List.take_succ_cons]
            exact List.cons_ne_nil _ _
          have hstep := Place.isBefore_after htake (p.after (s.take (blankLength .between s)))
          obtain ⟨hsorted, hlater⟩ := ih
            ((p.after (s.take (blankLength .between s))).after
              ((c :: rest).take (Lexeme.read c (c :: rest)).length))
            ((c :: rest).drop (Lexeme.read c (c :: rest)).length)
          refine ⟨List.pairwise_cons.mpr ⟨fun t ht => ?_, hsorted⟩, fun t ht => ?_⟩
          · exact Place.isBefore_of_not hstep (hlater t ht)
          · rcases List.mem_cons.mp ht with rfl | ht
            · exact hblank
            · intro hbefore
              have hfirst := Place.isBefore_of_not hstep (hlater t ht)
              exact hblank (Place.isBefore_trans hfirst hbefore)

/-- The last token, and it alone, ends the script. -/
theorem scan_eq (s : Text) : ∃ body stop, scan s = body ++ [⟨.eof, [], stop⟩] ∧
    ∀ t ∈ body, t.kind.Spells t.literal :=
  scanFrom_eq _ _ s

/-- Every token stands behind the one before it. -/
theorem scan_pairwise (s : Text) :
    (scan s).Pairwise fun t u => t.place.isBefore u.place = true :=
  (scanFrom_places _ _ s).1

end Token

/-- Tokens as the scanner makes them. -/
def Spelt (ts : List Token) : Prop := ∀ t ∈ ts, t.kind.Spells t.literal

@[simp] theorem spelt_nil : Spelt [] := by simp [Spelt]

@[simp] theorem spelt_cons {t : Token} {ts : List Token} :
    Spelt (t :: ts) ↔ t.kind.Spells t.literal ∧ Spelt ts := by
  simp [Spelt]

@[simp] theorem spelt_append {ts us : List Token} : Spelt (ts ++ us) ↔ Spelt ts ∧ Spelt us := by
  simp [Spelt, or_imp, forall_and]

end Zensight
