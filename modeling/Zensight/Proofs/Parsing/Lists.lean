import Zensight.Proofs.Reading

/-!
# What the rules for names and lists read

A bundle of rules is sound up to a number of tokens if each of its rules reads a
phrase of its kind wherever no more tokens are ahead. The rules for names, for
optional parts and for lists are sound if the rules for their items are.
-/

namespace Zensight

/-- A phrase that stands for one node. -/
def Phrase.One (p : Phrase) (ts : List Token) (n : Node) : Prop := Reads p ts [n]

/-- A phrase that stands for a node or nothing. -/
def Phrase.Maybe (p : Phrase) (ts : List Token) (n : Option Node) : Prop := Reads p ts n.toList

/-- The rules of a bundle, wherever at most `n` tokens are ahead. Where a binary
expression ends, no operator that it could take is next. -/
structure Grammar.Sound (g : Grammar) (n : Nat) : Prop where
  type : Read.Sound n g.type Phrase.type.One
  typeAtom : Read.Sound n g.typeAtom Phrase.typeAtom.One
  expression : Read.Sound n g.expression Phrase.expression.One
  ternary : Read.Sound n g.ternary Phrase.ternary.One
  unary : Read.Sound n g.unary Phrase.unary.One
  binary (least : Nat) (hleast : 0 < least) (r : Reader) (ho : r.Open)
    (hlen : r.ahead.length ≤ n) : Read.Ends (g.binary least) r fun e s =>
      Read.Yields (Phrase.binary least).One r e s ∧ s.current.kind.level < least
  statement : Read.Sound n g.statement Phrase.statement.Maybe

namespace Rule

open Read

variable {r s : Reader} {n : Nat}

theorem identifier_ends (ho : r.Open) : Ends identifier r (Yields Phrase.name.One r) := by
  refine (Ends.current ?_).bind
  split
  next hcur =>
    refine (Ends.pass ho (by rw [hcur]; decide) fun s hs _ => ?_).bind
    exact .spanned hs fun _ => ⟨by simp, .name hcur⟩
  next =>
    refine (Ends.fail ?_).bind
    exact .pure ⟨[], (Reader.Leads.refl ho).faulted ..⟩

/-- A name after a dot that has just been passed. -/
theorem memberName_ends (ho : r.Open) :
    Ends memberName r (Yields (fun ts n => ∃ t : Token, ts = [t] ∧ t.IsNameAfter r.previous ∧
      n = t.nameNode) r) := by
  refine (Ends.current ?_).bind
  refine (Ends.previous ?_).bind
  split
  next hname =>
    have hne : r.current.kind ≠ .eof := by
      intro heof
      rw [heof] at hname
      rcases hname with hkind | ⟨hkind, -⟩ <;> cases hkind
    refine (Ends.pass ho hne fun s hs _ => ?_).bind
    exact .spanned hs fun _ => ⟨by simp, _, rfl, hname, rfl⟩
  next =>
    refine (Ends.fail ?_).bind
    exact .pure ⟨[], (Reader.Leads.refl ho).faulted ..⟩

/-- A placeholder is only left after a fault. -/
theorem placeholder_ends {form : Form} {message : Text} {D : List Token → Node → Prop}
    (ho : r.Open) : Ends (placeholder form r.current message) r (Yields D r) := by
  have hfault : r.Leads [] False (r.faulted r.current message []) :=
    (Reader.Leads.refl ho).faulted ..
  refine (Ends.fail ?_).bind
  split
  next hresumes =>
    have hne : r.current.kind ≠ .eof := by
      intro heof
      rw [heof] at hresumes
      cases hresumes
    refine (Ends.pass hfault.isOpen hne fun s hs _ => ?_).bind
    exact .spanned (hfault.trans hs) fun h => h.1.elim
  next => exact .spanned hfault False.elim

theorem optional_eq (role : Role) (n : Option Node) : optional role n = several role n.toList := by
  cases n <;> rfl

section Lists

variable {item : Read Node} {p : Phrase}

theorem behind_ends {kind : Token.Kind} (hkind : kind.isFixed = true) (ho : r.Open)
    (hlen : r.ahead.length ≤ n + 1) (hitem : Sound n item p.One) :
    Ends (behind kind item) r (Yields (Phrase.behind kind p).Maybe r) := by
  refine (Ends.acceptOpen ho (Token.Kind.ne_eof_of_isFixed hkind) (fun t s hs _ => ?_)
    fun _ => ?_).bind
  · have hlt := hs.ahead_lt
    refine (hitem s hs.isOpen (by omega)).reads fun x s₁ ts h₁ _ => ?_
    exact .pure ⟨_, (hs.trans h₁).imp fun h => .behindSome h.1 hkind h.2⟩
  · exact .pure ⟨[], (Reader.Leads.refl ho).imp fun _ => .behindNone⟩

/-- The loop has read nothing, or items and then a comma. -/
theorem commaList_sound {close : Token.Kind} (hitem : Sound n item p.One) :
    Sound n (commaList close item) (Reads (.commas p)) := by
  intro r ho hlen
  let inv (ts : List Token) (items : List Node) : Prop :=
    ts = [] ∧ items = [] ∨ ∃ us comma, ts = us ++ [comma] ∧ comma.kind = .comma ∧
      Reads (.separated .comma p) us items
  refine Ends.iterate (Yields inv r)
    ⟨[], (Reader.Leads.refl ho).imp fun _ => .inl ⟨rfl, rfl⟩⟩ ?_
  rintro items s ⟨ts, hs⟩
  refine (Ends.check ?_).bind
  refine (Ends.check ?_).bind
  split
  next =>
    refine .pure ⟨ts, hs.imp ?_⟩
    rintro (⟨rfl, rfl⟩ | ⟨us, comma, rfl, hcomma, hus⟩)
    · exact .commasNone
    · exact .commasTrailing hus hcomma
  next =>
    refine (hitem s hs.isOpen (Nat.le_trans hs.ahead_le hlen)).reads fun x s₁ us hx _ => ?_
    have hseparated : inv ts items ∧ Reads p us [x] →
        Reads (.separated .comma p) (ts ++ us) (items ++ [x]) := by
      rintro ⟨⟨rfl, rfl⟩ | ⟨vs, comma, rfl, hcomma, hvs⟩, hx⟩
      · exact .separatedOne hx
      · rw [List.append_assoc]
        exact .separatedMore hvs hcomma rfl hx
    refine (Ends.acceptOpen hx.isOpen (by decide) (fun t s₂ ht _ => ?_) fun _ => ?_).bind
    · refine .pure ⟨⟨_, ((hs.trans hx).trans ht).imp fun h => ?_⟩, ?_⟩
      · exact .inr ⟨_, t, rfl, h.2, hseparated h.1⟩
      · exact Nat.lt_of_lt_of_le ht.ahead_lt hx.ahead_le
    · exact .pure ⟨_, (hs.trans hx).imp fun h => .commasSome (hseparated h)⟩

/-- Items that follow one read before, from the reader it was read at. -/
theorem separated_ends {separator : Token.Kind} (hsep : separator.isFixed = true)
    (hitem : Sound n item p.One) {first : Node} {ts : List Token}
    (hs : r.Leads ts (p.One ts first) s) (hlen : s.ahead.length ≤ n) :
    Ends (separated separator first item) s fun ns s' =>
      Yields (Reads (.separated separator p)) r ns s' ∧
        ∃ rest, ns = first :: rest ∧ (s.current.kind = separator → rest ≠ []) := by
  refine Ends.iterate (fun items s' =>
    (Yields (Reads (.separated separator p)) r items s') ∧
      s'.ahead.length ≤ n ∧ ∃ rest, items = first :: rest ∧ (rest = [] → s' = s))
    ⟨⟨ts, hs.imp .separatedOne⟩, hlen, [], rfl, fun _ => rfl⟩ ?_
  rintro items s' ⟨⟨us, hus⟩, hlen', rest, rfl, hrest⟩
  refine (Ends.acceptOpen hus.isOpen (Token.Kind.ne_eof_of_isFixed hsep) (fun t s₁ ht _ => ?_)
    fun hne => ?_).bind
  · have hlt := ht.ahead_lt
    refine (hitem s₁ ht.isOpen (by omega)).reads fun x s₂ vs hvs hle => ?_
    refine .pure ⟨⟨⟨_, (hus.trans (ht.trans hvs)).imp ?_⟩, by omega, rest ++ [x], rfl, ?_⟩,
      by omega⟩
    · exact fun ⟨hus, hkind, hx⟩ => .separatedMore hus hkind hsep hx
    · simp
  · refine .pure ⟨⟨us, hus⟩, rest, rfl, fun hkind hnil => ?_⟩
    rw [hrest hnil] at hne
    exact hne hkind

/-- An item that passes nothing has reported a fault, so a token is passed over
only after one. -/
theorem advancing_ends {α : Type} {item : Read α} {D : List Token → α → Prop}
    (hne : r.current.kind ≠ .eof) (hD : ∀ ts a, D ts a → ts ≠ [])
    (hitem : Ends item r (Yields D r)) :
    Ends (advancing item) r fun a s => Yields D r a s ∧ s.ahead.length < r.ahead.length := by
  refine (Ends.get ?_).bind
  refine hitem.andThen ?_
  rintro x s ⟨ts, hs⟩
  refine (Ends.get ?_).bind
  split
  next hstuck =>
    obtain ⟨rfl, hcur⟩ := hs.of_stuck hstuck
    refine (Ends.pass hs.isOpen (hcur ▸ hne) fun s₁ h₁ hlt => ?_).bind
    refine .pure ⟨⟨_, (hs.trans h₁).imp fun h => absurd rfl (hD _ _ h.1)⟩, by omega⟩
  next hmoved =>
    have hle := hs.ahead_le
    exact .pure ⟨⟨ts, hs⟩, by omega⟩

theorem untilBrace_sound {item : Read (Option Node)} (hp : p = .statement ∨ p = .member)
    (hitem : Sound n item p.Maybe) : Sound n (untilBrace item) (Reads (.many p)) := by
  intro r ho hlen
  have hnonempty : p.nonempty = true := by rcases hp with rfl | rfl <;> rfl
  refine Ends.iterate (Yields (Reads (.many p)) r)
    ⟨[], (Reader.Leads.refl ho).imp fun _ => .manyNone⟩ ?_
  rintro items s ⟨ts, hs⟩
  refine (Ends.check ?_).bind
  refine (Ends.check ?_).bind
  split
  next => exact .pure ⟨ts, hs⟩
  next hgo =>
    have hne : s.current.kind ≠ .eof := by
      intro heof
      simp [heof] at hgo
    refine (advancing_ends hne (fun _ _ h => h.ne_nil hnonempty)
      (hitem s hs.isOpen (Nat.le_trans hs.ahead_le hlen))).andThen ?_
    rintro x s₁ ⟨⟨us, hx⟩, hlt⟩
    exact .pure ⟨⟨_, (hs.trans hx).imp fun h => .manyMore hp h.1 h.2⟩, hlt⟩

end Lists

end Rule

end Zensight
