import Zensight.Proofs.Scanning.Lexemes

/-!
# Texts cut into tokens

Scanning goes through a text token by token, and what it makes of the text ahead hangs on
nothing it has read. `Opens` says which token stands first in a text, and `Cuts` puts such
statements together to what the tokens of a text are, places apart. So a text that is written
token by token can be scanned one token at a time (`Cuts.scan`), and the tokens of any script
have been found that way (`scanFrom_opens`).
-/

namespace Zensight.Token

/-- A token without its place. -/
def lexical (t : Token) : Kind × Text := (t.kind, t.literal)

/-- The first token of a text is that of this kind and with this literal, and `rest` is what
stands behind it. -/
inductive Opens (k : Kind) : Text → Text → Prop where
  | intro {c : UInt8} {w rest : Text} :
      c ≠ 0 → blankLength .between (c :: (w ++ rest)) = 0 →
      Lexeme.read c (c :: (w ++ rest)) = ⟨k, c :: w, w.length + 1⟩ → Opens k (c :: w) rest

/-- The text is cut into these tokens, with blanks between them. -/
inductive Cuts : Text → List (Kind × Text) → Prop where
  | nil : Cuts [] []
  | blank {c : UInt8} {s : Text} {ls : List (Kind × Text)} :
      isBlank c = true → Cuts s ls → Cuts (c :: s) ls
  | token {k : Kind} {w s : Text} {ls : List (Kind × Text)} :
      Opens k w s → Cuts s ls → Cuts (w ++ s) ((k, w) :: ls)

/-! ## Where tokens start -/

/-- A class of bytes without blanks. -/
theorem false_of_isBlank {p : UInt8 → Bool} (hspace : p (byte ' ') = false)
    (htab : p (byte '\t') = false) (hreturn : p (byte '\r') = false)
    (hline : p (byte '\n') = false) {c : UInt8} (hc : isBlank c = true) : p c = false := by
  simp only [isBlank, Bool.or_eq_true, beq_iff_eq] at hc
  rcases hc with ((rfl | rfl) | rfl) | rfl <;> assumption

theorem blankLength_eq_zero_iff {c : UInt8} {s : Text} :
    blankLength .between (c :: s) = 0 ↔ isBlank c = false ∧ c ≠ byte '#' ∧
      ¬ (c = byte '/' ∧ (s.head? = some (byte '/') ∨ s.head? = some (byte '*'))) := by
  rw [blankLength]
  split
  · simp_all
  split
  · simp_all
  split
  · simp_all
  split <;> simp_all

/-- Behind the blanks and comments of a text there are no more of them. -/
theorem blankLength_drop (mode : BlankMode) (s : Text) :
    blankLength .between (s.drop (blankLength mode s)) = 0 := by
  fun_induction blankLength mode s with
  | case1 mode => rfl
  | case6 c s hblank hhash hslash hstar =>
      rw [List.drop_zero, blankLength_eq_zero_iff]
      simp_all
  | case7 | case11 => rfl
  | _ => assumption

/-! ## How far a lexeme goes -/

theorem run_cons (p : UInt8 → Bool) (c : UInt8) (s : Text) :
    run p (c :: s) = if p c = true then run p s + 1 else 0 := by
  rw [run, List.takeWhile_cons]
  split <;> rfl

theorem run_eq_zero {p : UInt8 → Bool} {s : Text} (h : ∀ c ∈ s.head?, p c = false) :
    run p s = 0 := by
  cases s with
  | nil => rfl
  | cons c s => rw [run_cons, h c rfl, if_neg Bool.false_ne_true]

theorem Lexeme.cut_eq_iff {kind k : Kind} {c : UInt8} {w tail : Text} {n : Nat} :
    cut kind n (c :: (w ++ tail)) = ⟨k, c :: w, w.length + 1⟩ ↔ kind = k ∧ n = w.length + 1 := by
  rw [cut, Lexeme.mk.injEq]
  constructor
  · rintro ⟨hkind, -, hn⟩
    exact ⟨hkind, hn⟩
  · rintro ⟨hkind, rfl⟩
    exact ⟨hkind, by rw [List.take_succ_cons, List.take_left], rfl⟩

/-- No operator or delimiter has a blank in it. -/
theorem Kind.ofSign?_blank {c d : UInt8} (hd : isBlank d = true) : ofSign? [c, d] = none := by
  cases hsign : ofSign? [c, d] with
  | none => rfl
  | some k =>
      obtain ⟨-, hname⟩ := lookup_name hsign
      have hall : ∀ k : Kind, k.name.all (fun b => !isBlank b) = true := by decide
      have hk := hall k
      rw [← hname] at hk
      simp [hd] at hk

/-! ## Scanning token by token -/

theorem scanFrom_blank {c : UInt8} (hc : isBlank c = true) (fuel : Nat) (p : Place) (s : Text) :
    scanFrom (fuel + 1) p (c :: s) = scanFrom (fuel + 1) (p.next c) s := by
  rw [scanFrom, scanFrom, blankLength, if_pos hc]
  rfl

theorem Opens.scanFrom {k : Kind} {w rest : Text} (h : Opens k w rest) (fuel : Nat) (p : Place) :
    scanFrom (fuel + 1) p (w ++ rest) = ⟨k, w, p⟩ :: scanFrom fuel (p.after w) rest := by
  obtain @⟨c, w, _, hc, hblank, hread⟩ := h
  rw [List.cons_append, Token.scanFrom, hblank]
  simp only [List.take_zero, List.drop_zero]
  rw [if_neg hc, hread]
  simp only [List.take_succ_cons, List.drop_succ_cons, List.take_left, List.drop_left]
  rfl

theorem Opens.ne_nil {k : Kind} {w rest : Text} (h : Opens k w rest) : w ≠ [] := by
  cases h
  exact List.cons_ne_nil _ _

/-- The tokens of a text that is cut into tokens are those, and the one that ends it. -/
theorem Cuts.scan {s : Text} {ls : List (Kind × Text)} (h : Cuts s ls) :
    (scan s).map lexical = ls ++ [(.eof, [])] := by
  have hfuel : ∀ fuel p, s.length ≤ fuel →
      (scanFrom (fuel + 1) p s).map lexical = ls ++ [(.eof, [])] := by
    induction h with
    | nil => exact fun _ _ _ => rfl
    | blank hc _ ih =>
        intro fuel p hle
        rw [scanFrom_blank hc]
        exact ih fuel _ (Nat.le_of_succ_le hle)
    | @token k w s ls hw _ ih =>
        intro fuel p hle
        have hpos := List.length_pos_iff.mpr hw.ne_nil
        rw [List.length_append] at hle
        obtain ⟨fuel, rfl⟩ : ∃ f, fuel = f + 1 := ⟨fuel - 1, by omega⟩
        rw [hw.scanFrom, List.map_cons, ih fuel _ (by omega)]
        rfl
  exact hfuel s.length .start (Nat.le_refl _)

theorem opens_read {c : UInt8} {s : Text} (hc : c ≠ 0) (hblank : blankLength .between (c :: s) = 0)
    (hlegal : (Lexeme.read c (c :: s)).kind ≠ .illegal) :
    Opens (Lexeme.read c (c :: s)).kind (Lexeme.read c (c :: s)).literal
      (s.drop ((Lexeme.read c (c :: s)).length - 1)) := by
  have hline : endsLine c = false := by
    have hnot := (blankLength_eq_zero_iff.mp hblank).1
    rw [isBlank, Bool.or_eq_false_iff] at hnot
    rw [endsLine, hnot.2, beq_eq_false_iff_ne.mpr hc]
    rfl
  have hcovers := Lexeme.read_covers hline s
  have hliteral := hcovers.literal_eq hlegal
  have hle := hcovers.onLine.le_length
  obtain ⟨n, hn⟩ := Nat.exists_eq_succ_of_ne_zero (Nat.ne_of_gt (Lexeme.read_length_pos c s))
  rw [hn, List.take_succ_cons] at hliteral
  rw [hn, List.length_cons, Nat.succ_le_succ_iff] at hle
  rw [hn, ← hliteral, Nat.succ_sub_one]
  refine .intro hc ?_ ?_ <;> rw [List.take_append_drop]
  · exact hblank
  · rw [List.length_take_of_le hle, ← Nat.succ_eq_add_one, ← hn, hliteral]

/-- Every legal token of a text stands first in what is left of it. -/
theorem scanFrom_opens (fuel : Nat) (p : Place) (s : Text) : ∀ t ∈ scanFrom fuel p s,
    t.kind ≠ .eof → t.kind ≠ .illegal → ∃ rest, Opens t.kind t.literal rest := by
  have hend (q : Place) : ∀ t ∈ [(⟨.eof, [], q⟩ : Token)],
      t.kind ≠ .eof → t.kind ≠ .illegal → ∃ rest, Opens t.kind t.literal rest := by
    intro t ht heof
    rw [List.mem_singleton.mp ht] at heof
    exact absurd rfl heof
  induction fuel generalizing p s with
  | zero => exact hend p
  | succ fuel ih =>
      rw [scanFrom]
      dsimp only
      split
      next => exact hend _
      next c rest hdrop =>
        split
        next => exact hend _
        next hc =>
          intro t ht heof hlegal
          rcases List.mem_cons.mp ht with rfl | ht
          · have hblank := blankLength_drop .between s
            rw [hdrop] at hblank
            exact ⟨_, opens_read hc hblank hlegal⟩
          · exact ih _ _ t ht heof hlegal

end Zensight.Token
