import Zensight.Proofs.Reading
import Zensight.Proofs.Spans.Standing

/-!
# Steps of reading from one token to another

The tokens of a script are counted (`Tokens`), and a reader stands before the token of some
number. A step of reading takes it to another number (`Read.Moves`): there is one lemma for each
thing that a step may do first, and it hands the number that is reached, and the token that is
found, to what follows. Steps without a result say nothing, so neither the bounds on repetitions
nor those on the depth of the grammar play a part.
-/

namespace Zensight

/-! ## Numbered tokens -/

/-- The tokens of a script, and the place where they end. -/
structure Tokens where
  body : List Token
  stop : Place
  spelt : Spelt body
  column_pos : ∀ u ∈ body, 0 < u.place.column
  stands : Token.Stands body ⟨.eof, [], stop⟩

namespace Tokens

variable {t : Tokens} {i j k l : Nat}

/-- The token that ends the script. -/
def final (t : Tokens) : Token := ⟨.eof, [], t.stop⟩

/-- The token of a number. The last one stands for all behind it. -/
def nth (t : Tokens) (k : Nat) : Token := t.body[k]?.getD t.final

instance : CoeFun Tokens fun _ => Nat → Token := ⟨nth⟩

/-- No token is illegal, so each is as wide as its literal. -/
def Legal (t : Tokens) : Prop := ∀ u ∈ t.body, u.kind ≠ .illegal

theorem nth_of_lt (h : k < t.body.length) : t k ∈ t.body ∧ t.body[k]? = some (t k) := by
  have hk : t.body[k]? = some (t k) := by simp [nth, h]
  exact ⟨List.mem_of_getElem? hk, hk⟩

theorem nth_of_le (h : t.body.length ≤ k) : t k = t.final := by
  simp [nth, h]

theorem lt_of_kind_ne (h : (t k).kind ≠ .eof) : k < t.body.length := by
  by_contra hk
  rw [nth_of_le (Nat.le_of_not_lt hk)] at h
  exact h rfl

theorem Legal.kind_ne (h : t.Legal) (k : Nat) : (t k).kind ≠ .illegal := by
  by_cases hk : k < t.body.length
  · exact h _ (nth_of_lt hk).1
  · rw [nth_of_le (Nat.le_of_not_lt hk)]
    exact fun heof => by cases heof

theorem spells {kind : Token.Kind} (h : (t k).kind = kind) (hkind : kind ≠ .eof) :
    kind.Spells (t k).literal := by
  subst h
  exact t.spelt _ (nth_of_lt (lt_of_kind_ne hkind)).1

theorem place_before_stop (h : k < t.body.length) (hk : (t k).kind ≠ .illegal) :
    (t k).place.isBefore (t k).stop = true :=
  t.stands.laid.wide _ (nth_of_lt h).1 hk

theorem literal_ne_nil (h : k < t.body.length) (hk : (t k).kind ≠ .illegal) :
    (t k).literal ≠ [] := by
  intro hnil
  have hbefore := place_before_stop h hk
  rw [Place.isBefore_iff, Token.stop, hnil] at hbefore
  simp at hbefore

theorem precedes (h : k < l) : (t k).Precedes (t l) := by
  by_cases hl : l < t.body.length
  · have hpair := List.pairwise_iff_getElem.mp t.stands.laid.inOrder k l (by omega) hl h
    simpa [nth, hl, show k < t.body.length by omega] using hpair
  · rw [nth_of_le (Nat.le_of_not_lt hl)]
    by_cases hk : k < t.body.length
    · exact ⟨(t.stands.le_eof _ (nth_of_lt hk).1).2.1, (t.stands.le_eof _ (nth_of_lt hk).1).2.2⟩
    · rw [nth_of_le (Nat.le_of_not_lt hk)]
      exact ⟨Place.le_refl _, fun _ => Place.le_refl _⟩

theorem place_le (h : k ≤ l) : (t k).place ≤ (t l).place := by
  rcases Nat.eq_or_lt_of_le h with rfl | hlt
  · exact Place.le_refl _
  · exact (precedes hlt).starts

/-- A legal token has ended where a later one starts. -/
theorem stop_le (hk : (t k).kind ≠ .illegal) (h : k < l) : (t k).stop ≤ (t l).place :=
  (precedes h).ends hk

theorem stop_le_stop (hk : (t k).kind ≠ .illegal) (h : k ≤ l) : (t k).stop ≤ (t l).stop := by
  rcases Nat.eq_or_lt_of_le h with rfl | hlt
  · exact Place.le_refl _
  · exact Place.le_trans (stop_le hk hlt) (Token.place_le_stop _)

/-- The span of the tokens from `i` to before `j`, or of the token `i` if there are none. -/
def span (t : Tokens) (i j : Nat) : Span := ⟨(t i).place, (t (max i (j - 1))).stop⟩

theorem span_of_lt (h : i < j) : t.span i j = ⟨(t i).place, (t (j - 1)).stop⟩ := by
  rw [span, show max i (j - 1) = j - 1 by omega]

end Tokens

theorem Text.exists_tokens (source : Text) :
    ∃ t : Tokens, Token.scan source = t.body ++ [t.final] := by
  obtain ⟨body, stop, hscan, hspelt⟩ := Token.scan_eq source
  obtain ⟨tiles, htiles, htiled⟩ := Token.scan_tiled source
  refine ⟨⟨body, stop, hspelt, fun u hu => ?_, Token.scan_stands hscan⟩, hscan⟩
  obtain ⟨rfl, -⟩ := List.append_inj' (hscan.symm.trans htiled) rfl
  obtain ⟨x, hx, rfl⟩ := List.mem_map.mp hu
  rw [(htiles.fits x hx).place_eq]
  exact Nat.succ_pos _

/-! ## Steps of reading -/

/-- The reader stands before the token of a number. -/
structure Reader.StandsAt (t : Tokens) (i : Nat) (r : Reader) : Prop where
  le : i ≤ t.body.length
  passed : r.passed = (t.body.take i).reverse
  ahead : r.ahead = t.body.drop i ++ [t.final]
  final : r.final = t.final

namespace Reader.StandsAt

variable {t : Tokens} {i : Nat} {r : Reader}

theorem ofText {source : Text} (h : Token.scan source = t.body ++ [t.final]) :
    (Reader.ofText source).StandsAt t 0 := by
  refine ⟨Nat.zero_le _, by simp [Reader.ofText], ?_, ?_⟩
  · rw [List.drop_zero, ← h]
    rfl
  · simp [Reader.ofText, h]

theorem getElem?_ahead (h : r.StandsAt t i) (k : Nat) : r.ahead[k]?.getD r.final = t (i + k) := by
  rw [h.ahead, h.final, Tokens.nth, List.getElem?_append]
  have hle := h.le
  split
  · rw [List.getElem?_drop]
  · next hk =>
      simp only [List.length_drop, Nat.not_lt] at hk
      rw [List.getElem?_eq_none (l := t.body) (by omega)]
      cases k - (t.body.drop i).length <;> rfl

theorem current_eq (h : r.StandsAt t i) : r.current = t i := by
  rw [Reader.current, List.head?_eq_getElem?, h.getElem?_ahead]
  rfl

theorem peek_eq (h : r.StandsAt t i) : r.peek = t (i + 1) := by
  rw [Reader.peek, List.head?_eq_getElem?, List.getElem?_tail, h.getElem?_ahead]

/-- Before the first token is passed, it stands for the one passed last. -/
theorem previous_eq (h : r.StandsAt t i) : r.previous = t (i - 1) := by
  rw [Reader.previous, h.passed]
  have hle := h.le
  cases i with
  | zero =>
      rw [h.current_eq]
      rfl
  | succ i =>
      have hi : i < t.body.length := hle
      rw [List.head?_reverse, List.take_add_one, (Tokens.nth_of_lt hi).2]
      simp

theorem advance (h : r.StandsAt t i) (hi : (t i).kind ≠ .eof) : r.advance.StandsAt t (i + 1) := by
  have hlt := Tokens.lt_of_kind_ne hi
  have hahead : r.ahead = t i :: (t.body.drop (i + 1) ++ [t.final]) := by
    have hnth : t i = t.body[i] := by simp [Tokens.nth, hlt]
    rw [h.ahead, List.drop_eq_getElem_cons hlt, hnth]
    rfl
  rw [Reader.advance, hahead]
  refine ⟨hlt, ?_, rfl, h.final⟩
  show t i :: r.passed = _
  rw [h.passed, List.take_add_one, (Tokens.nth_of_lt hlt).2]
  simp

end Reader.StandsAt

namespace Read

variable {α β : Type} {t : Tokens} {i : Nat} {m : Read α} {f : α → Read β}
  {P : Nat → α → Prop} {Q : Nat → β → Prop}

theorem bind_eq_some {r s : Reader} {b : β} (h : (m >>= f) r = some (b, s)) :
    ∃ a r', m r = some (a, r') ∧ f a r' = some (b, s) := by
  obtain ⟨⟨a, r'⟩, hm, hf⟩ := Option.bind_eq_some_iff.mp h
  exact ⟨a, r', hm, hf⟩

/-- From the token `i` the step goes on to one of a number that `P` allows with its result. -/
def Moves (t : Tokens) (i : Nat) (m : Read α) (P : Nat → α → Prop) : Prop :=
  ∀ r a s, r.StandsAt t i → m r = some (a, s) → ∃ j, i ≤ j ∧ s.StandsAt t j ∧ P j a

namespace Moves

theorem pure {a : α} (h : P i a) : Moves t i (pure a) P := by
  intro r b s hr heq
  cases heq
  exact ⟨i, Nat.le_refl i, hr, h⟩

theorem bind (hm : Moves t i m P) (hf : ∀ j a, i ≤ j → P j a → Moves t j (f a) Q) :
    Moves t i (m >>= f) Q := by
  intro r b s hr heq
  obtain ⟨a, r', hma, hfa⟩ := bind_eq_some heq
  obtain ⟨j, hij, hr', ha⟩ := hm r a r' hr hma
  obtain ⟨k, hjk, hs, hb⟩ := hf j a hij ha r' b s hr' hfa
  exact ⟨k, Nat.le_trans hij hjk, hs, hb⟩

theorem mono {P' : Nat → α → Prop} (hm : Moves t i m P) (h : ∀ j a, i ≤ j → P j a → P' j a) :
    Moves t i m P' := by
  intro r a s hr heq
  obtain ⟨j, hij, hs, ha⟩ := hm r a s hr heq
  exact ⟨j, hij, hs, h j a hij ha⟩

theorem failure : Moves t i (failure : Read α) P := by
  intro r a s _ heq
  cases heq

/-- A loop whose rounds keep `inv` and that ends with `P`. -/
theorem iterateTo {step : α → Read (ForInStep α)} {a : α} (inv : Nat → α → Prop) (ha : inv i a)
    (hstep : ∀ j b, i ≤ j → inv j b → Moves t j (step b) fun l x =>
      match x with
      | .done c => P l c
      | .yield c => inv l c) :
    Moves t i (Read.iterate step a) P := by
  have hloop : ∀ (fuel j : Nat) (b : α), i ≤ j → inv j b →
      Moves t j (Read.iterate.loop step fuel b) P := by
    intro fuel
    induction fuel with
    | zero => intro j b _ _; exact .failure
    | succ fuel ih =>
        intro j b hij hb
        rw [Read.iterate.loop]
        refine (hstep j b hij hb).bind fun l x hjl hx => ?_
        cases x with
        | done c => exact .pure hx
        | yield c => exact ih l c (Nat.le_trans hij hjl) hx
  intro r b s hr heq
  obtain ⟨_, _, hget, hrun⟩ := bind_eq_some heq
  cases hget
  exact hloop _ i a (Nat.le_refl i) ha r b s hr hrun

/-- A loop whose every round keeps `inv`. -/
theorem iterate {step : α → Read (ForInStep α)} {a : α} (inv : Nat → α → Prop) (ha : inv i a)
    (hstep : ∀ j b, i ≤ j → inv j b → Moves t j (step b) fun l x => inv l x.value) :
    Moves t i (Read.iterate step a) inv := by
  refine iterateTo inv ha fun j b hij hb => (hstep j b hij hb).mono fun l x _ hx => ?_
  cases x <;> exact hx

/-! What a step looks at is known from the number of the token. -/

theorem current {f : Token → Read β} (hf : Moves t i (f (t i)) Q) :
    Moves t i (Read.current >>= f) Q := by
  intro r b s hr heq
  obtain ⟨u, r', hu, hfu⟩ := bind_eq_some heq
  cases hu
  rw [hr.current_eq] at hfu
  exact hf r b s hr hfu

theorem peek {f : Token → Read β} (hf : Moves t i (f (t (i + 1))) Q) :
    Moves t i (Read.peek >>= f) Q := by
  intro r b s hr heq
  obtain ⟨u, r', hu, hfu⟩ := bind_eq_some heq
  cases hu
  rw [hr.peek_eq] at hfu
  exact hf r b s hr hfu

theorem previous {f : Token → Read β} (hf : Moves t i (f (t (i - 1))) Q) :
    Moves t i (Read.previous >>= f) Q := by
  intro r b s hr heq
  obtain ⟨u, r', hu, hfu⟩ := bind_eq_some heq
  cases hu
  rw [hr.previous_eq] at hfu
  exact hf r b s hr hfu

theorem check {kind : Token.Kind} {f : Bool → Read β}
    (hf : Moves t i (f ((t i).kind == kind)) Q) : Moves t i (Read.check kind >>= f) Q := by
  intro r b s hr heq
  obtain ⟨u, r', hu, hfu⟩ := bind_eq_some heq
  cases hu
  rw [hr.current_eq] at hfu
  exact hf r b s hr hfu

theorem fail {u : Token} {message hint : Text} {f : Unit → Read β} (hf : Moves t i (f ()) Q) :
    Moves t i (Read.fail u message hint >>= f) Q := by
  intro r b s hr heq
  obtain ⟨u, r', hu, hfu⟩ := bind_eq_some heq
  cases hu
  refine hf _ b s ?_ hfu
  exact ⟨hr.le, hr.passed, hr.ahead, hr.final⟩

theorem advance {f : Token → Read β} (hi : (t i).kind ≠ .eof)
    (hf : Moves t (i + 1) (f (t i)) Q) : Moves t i (Read.advance >>= f) Q := by
  intro r b s hr heq
  obtain ⟨u, r', hu, hfu⟩ := bind_eq_some heq
  cases hu
  rw [hr.current_eq] at hfu
  obtain ⟨j, hij, hs, hb⟩ := hf _ b s (hr.advance hi) hfu
  exact ⟨j, Nat.le_of_succ_le hij, hs, hb⟩

theorem accept {kind : Token.Kind} {f : Bool → Read β} (hkind : kind ≠ .eof)
    (hyes : (t i).kind = kind → Moves t (i + 1) (f true) Q)
    (hno : (t i).kind ≠ kind → Moves t i (f false) Q) :
    Moves t i (Read.accept kind >>= f) Q := by
  rw [Read.accept, bind_assoc]
  refine .check ?_
  split
  · next h =>
      have hk := beq_iff_eq.mp h
      rw [bind_assoc]
      exact .advance (hk ▸ hkind) (by simpa using hyes hk)
  · next h => simpa using hno fun hk => h (beq_iff_eq.mpr hk)

/-- Whether the token is accepted or not. -/
theorem accepting {kind : Token.Kind} {f : Bool → Read β} (hkind : kind ≠ .eof)
    (hf : ∀ j b, i ≤ j → Moves t j (f b) Q) : Moves t i (Read.accept kind >>= f) Q :=
  accept hkind (fun _ => hf _ _ (Nat.le_succ i)) fun _ => hf _ _ (Nat.le_refl i)

/-- The token expected is there. -/
theorem expected {kind : Token.Kind} {f : Token → Read β} (hkind : kind ≠ .eof)
    (h : (t i).kind = kind) (hf : Moves t (i + 1) (f (t i)) Q) :
    Moves t i (Read.expect kind >>= f) Q := by
  rw [Read.expect, bind_assoc]
  refine .current ?_
  rw [if_pos h]
  exact .advance (h ▸ hkind) hf

/-- Whether the token expected is there or not. -/
theorem expect {kind : Token.Kind} {f : Token → Read β} (hkind : kind ≠ .eof)
    (hf : ∀ j, i ≤ j → Moves t j (f (t i)) Q) : Moves t i (Read.expect kind >>= f) Q := by
  by_cases h : (t i).kind = kind
  · exact expected hkind h (hf _ (Nat.le_succ i))
  · rw [Read.expect, bind_assoc]
    refine .current ?_
    rw [if_neg h, bind_assoc]
    exact .fail (by simpa using hf i (Nat.le_refl i))

theorem synchronize {f : Unit → Read β} (hf : ∀ j, i ≤ j → Moves t j (f ()) Q) :
    Moves t i (Read.synchronize >>= f) Q := by
  have hsync : Moves t i Read.synchronize fun _ _ => True := by
    refine .iterate _ trivial fun j _ _ _ => .current ?_
    split
    · exact .pure trivial
    · next heof =>
        split
        · exact .advance heof (.pure trivial)
        · split
          · exact .pure trivial
          · exact .advance heof (.pure trivial)
  exact hsync.bind fun j _ hij _ => hf j hij

end Moves

end Read

end Zensight
