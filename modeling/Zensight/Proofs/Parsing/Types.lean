import Zensight.Proofs.Parsing.Lists

/-!
# What the rules for types read
-/

namespace Zensight.Rule

open Read

variable {r : Reader} {g : Grammar} {n : Nat}

theorem namedType_ends (ho : r.Open) : Ends namedType r (Yields Phrase.namedType.One r) := by
  refine (Ends.expectOpen ho (by decide) fun s ts hs _ _ => ?_).bind
  split
  next hkind => exact .pure ⟨ts, hs.imp fun h => absurd h.2 hkind⟩
  next =>
    refine (Ends.iterate (Q := Yields Dotted r) (Yields Dotted r) ⟨ts, hs.imp ?_⟩ ?_).andThen ?_
    · rintro ⟨rfl, hkind⟩
      exact .one hkind
    · rintro path s ⟨us, hus⟩
      refine (Ends.check ?_).bind
      refine (Ends.peek ?_).bind
      split
      next hgo =>
        simp only [Bool.and_eq_true, beq_iff_eq] at hgo
        refine (Ends.pass hus.isOpen (by rw [hgo.1]; decide) fun s₁ h₁ _ => ?_).bind
        have hpart : s₁.current = s.peek := h₁.current_eq_peek
        refine (Ends.pass h₁.isOpen (by rw [hpart, hgo.2]; decide) fun s₂ h₂ _ => ?_).bind
        have hlt₁ := h₁.ahead_lt
        have hlt₂ := h₂.ahead_lt
        refine .pure ⟨⟨_, (hus.trans (h₁.trans h₂)).imp fun h => ?_⟩, by omega⟩
        exact .more h.1 hgo.1 (hpart ▸ hgo.2)
      next => exact .pure ⟨us, hus⟩
    · rintro path s ⟨us, hus⟩
      exact .spanned hus fun hpath => ⟨hpath.ne_nil, .namedType hpath⟩

theorem typeStem_ends (hg : g.Sound n) (ho : r.Open) (hlen : r.ahead.length ≤ n + 1) :
    Ends (typeStem g r.current) r fun stem s =>
      stem = none ∧ s = r ∨ ∃ t, stem = some t ∧ Yields Phrase.typeAtom.One r t s := by
  unfold typeStem
  split
  next hprim =>
    have hne : r.current.kind ≠ .eof := fun heof => by rw [heof] at hprim; cases hprim
    refine (Ends.pass ho hne fun s hs _ => ?_).bind
    refine (Ends.span hs fun span hspan => ?_).bind
    refine .pure (.inr ⟨_, rfl, _, hs.imp fun _ => ?_⟩)
    rw [hspan (by simp)]
    exact .primitiveType hprim
  next =>
    split
    next =>
      refine (namedType_ends ho).reads fun t s ts hs _ => ?_
      exact .pure (.inr ⟨t, rfl, ts, hs.imp .typeName⟩)
    next hkind =>
      refine (Ends.pass ho (by rw [hkind]; decide) fun s₁ h₁ hlt => ?_).bind
      refine (hg.type s₁ h₁.isOpen (by omega)).reads fun e s₂ us h₂ _ => ?_
      refine (Ends.expectOpen h₂.isOpen (by decide) fun s₃ vs h₃ _ _ => ?_).bind
      have hall := (h₁.trans h₂).trans h₃
      refine (Ends.span hall fun span hspan => ?_).bind
      refine .pure (.inr ⟨_, rfl, _, hall.imp ?_⟩)
      rintro ⟨⟨-, he⟩, rfl, hrb⟩
      rw [hspan (by simp)]
      exact .listType hkind he hrb
    next hkind =>
      refine (Ends.pass ho (by rw [hkind]; decide) fun s₁ h₁ hlt => ?_).bind
      refine (Ends.expectOpen h₁.isOpen (by decide) fun s₂ us h₂ hle₂ _ => ?_).bind
      refine (commaList_sound hg.type s₂ h₂.isOpen (by omega)).reads fun ps s₃ vs h₃ hle₃ => ?_
      refine (Ends.expectOpen h₃.isOpen (by decide) fun s₄ ws h₄ hle₄ _ => ?_).bind
      refine (hg.typeAtom s₄ h₄.isOpen (by omega)).reads fun res s₅ xs h₅ _ => ?_
      have hall := ((h₁.trans h₂).trans h₃).trans (h₄.trans h₅)
      refine (Ends.span hall fun span hspan => ?_).bind
      refine .pure (.inr ⟨_, rfl, _, hall.imp ?_⟩)
      rintro ⟨⟨⟨-, rfl, hlp⟩, hps⟩, ⟨rfl, hrp⟩, hres⟩
      rw [hspan (by simp)]
      exact .funcType hkind hlp hps hrp hres
    next => exact .pure (.inl ⟨rfl, rfl⟩)

theorem typeAtom_sound (hg : g.Sound n) : Sound (n + 1) (typeAtom g) Phrase.typeAtom.One := by
  intro r ho hlen
  refine (Ends.current ?_).bind
  refine (typeStem_ends hg ho hlen).andThen ?_
  rintro stem s (⟨rfl, rfl⟩ | ⟨t, rfl, hstem⟩)
  · exact placeholder_ends ho
  · refine Ends.iterate (Yields Phrase.typeAtom.One r) hstem ?_
    rintro t s ⟨ts, hs⟩
    have hle := hs.ahead_le
    refine (Ends.acceptOpen hs.isOpen (by decide) (fun lb s₁ h₁ hlt₁ => ?_) fun _ => ?_).bind
    · refine (Ends.acceptOpen h₁.isOpen (by decide) (fun rb s₂ h₂ hlt₂ => ?_) fun _ => ?_).bind
      · have hall := hs.trans (h₁.trans h₂)
        refine (Ends.span hall fun span hspan => ?_).bind
        refine .pure ⟨⟨_, hall.imp ?_⟩, by omega⟩
        rintro ⟨ht, hlb, hrb⟩
        rw [hspan (by simp)]
        exact .arrayType ht hlb hrb
      · refine (hg.type s₁ h₁.isOpen (by omega)).reads fun key s₂ us h₂ hle₂ => ?_
        refine (Ends.expectOpen h₂.isOpen (by decide) fun s₃ vs h₃ hle₃ _ => ?_).bind
        have hall := (hs.trans (h₁.trans h₂)).trans h₃
        refine (Ends.span hall fun span hspan => ?_).bind
        refine .pure ⟨⟨_, hall.imp ?_⟩, by omega⟩
        rintro ⟨⟨ht, hlb, hkey⟩, rfl, hrb⟩
        rw [hspan (by simp)]
        exact .mapType ht hlb hkey hrb
    · exact .pure ⟨ts, hs⟩

theorem type_sound (hg : g.Sound n) : Sound (n + 1) (type g) Phrase.type.One := by
  intro r ho hlen
  refine (typeAtom_sound hg r ho hlen).reads fun first s ts hs _ => ?_
  refine (Ends.check ?_).bind
  split
  next hamp =>
    have hle := hs.ahead_le
    refine (separated_ends rfl (typeAtom_sound hg) hs (by omega)).andThen ?_
    rintro types s₁ ⟨⟨us, hus⟩, rest, rfl, hrest⟩
    obtain ⟨second, rest, rfl⟩ := List.exists_cons_of_ne_nil (hrest (by simpa using hamp))
    exact .pure ⟨us, hus.imp .intersection⟩
  next => exact .pure ⟨ts, hs.imp .typeOne⟩

theorem asType_sound (hg : g.Sound n) :
    Sound (n + 1) (asType g) (Phrase.behind .kwAs .type).Maybe := by
  intro r ho hlen
  exact behind_ends rfl ho hlen ((type_sound hg).mono (Nat.le_succ n))

end Zensight.Rule
