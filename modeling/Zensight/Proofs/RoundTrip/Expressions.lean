import Zensight.Proofs.RoundTrip.Types

/-!
# Reading expressions back

Accesses, casts and binary operators group from the left and are read in loops,
so a tree of them is followed from its leftmost operand outwards. Each of the
three loops has a lemma which says that reading such a tree comes to going on
with the loop behind it (`suffixed_gives`, `cast_gives`, `binary_gives`). The
induction is over the tree; in its step one more operator is one more round.

A binary operator must not be followed by one that its right operand would take
to itself. That is where the levels come in: an operand of a well levelled tree
binds more tightly than whatever stands behind it.
-/

namespace Zensight

open Piece Read Written

/-- Can an expression without an operator begin with the token? -/
def Token.Kind.beginsPrimary (kind : Token.Kind) : Bool :=
  kind.isLiteral || kind == .ident || kind == .kwThis || kind == .lparen || kind == .lbracket
    || kind == .lbrace

/-- Can an expression begin with the token? -/
def Token.Kind.beginsExpression (kind : Token.Kind) : Bool := kind.beginsPrimary || kind.isUnary

theorem Token.Kind.isUnary_iff {k : Token.Kind} :
    k.isUnary = true ↔ k = .bang ∨ k = .minus ∨ k = .plus := by
  unfold isUnary
  split <;> simp_all

theorem Token.Kind.isLiteral_iff {k : Token.Kind} :
    k.isLiteral = true ↔ k = .intLit ∨ k = .longLit ∨ k = .floatLit ∨ k = .doubleLit ∨
      k = .stringLit ∨ k = .kwTrue ∨ k = .kwFalse ∨ k = .kwNull := by
  unfold isLiteral
  split <;> simp_all

theorem Token.Kind.ne_of_beginsExpression {k other : Token.Kind} (h : k.beginsExpression = true)
    (hother : other.beginsExpression = false) : k ≠ other := by
  rintro rfl
  rw [h] at hother
  cases hother

/-- A part of a well levelled tree binds as tightly as its place demands. -/
theorem Node.All.operand {form : Form} {span : Span} {parts : List (Role × Node)} {role : Role}
    {p : Node} (h : (Node.of form span parts).All Node.WellLevelled) (hp : IsExpression p)
    (hmem : (role, p) ∈ parts) : p.IsOperand (form.bound role) where
  isExpression := hp
  wellLevelled := (all_of.mp h).2 (role, p) hmem
  tight := wellLevelled_of.mp (all_of.mp h).1 (role, p) hmem

theorem Node.IsOperand.mono {a b : Nat} {e : Node} (h : e.IsOperand a) (hba : b ≤ a) :
    e.IsOperand b :=
  ⟨h.isExpression, h.wellLevelled, Nat.le_trans hba h.tight⟩

theorem Node.IsOperand.tighten {level : Nat} {e : Node} (h : e.IsOperand level)
    (hne : e.form.tightness ≠ level) : e.IsOperand (level + 1) :=
  ⟨h.isExpression, h.wellLevelled, Nat.lt_of_le_of_ne h.tight hne.symm⟩

/-- How an expression begins: with an operator only if it binds no more tightly
than one. -/
theorem IsExpression.begins {e : Node} (h : IsExpression e) : e.All Node.WellLevelled →
    Begins e.written fun k =>
      k.beginsPrimary = true ∨ k.isUnary = true ∧ e.form.tightness ≤ 11 := by
  -- A node that begins with its first part binds no more tightly than this part.
  have hleft : ∀ {form : Form} {span : Span} {parts : List (Role × Node)} {role : Role} {p : Node}
      {qs : List Piece}, (Node.of form span ((role, p) :: parts)).All Node.WellLevelled →
      form.tightness ≤ form.bound role →
      (p.All Node.WellLevelled → Begins p.written fun k =>
        k.beginsPrimary = true ∨ k.isUnary = true ∧ p.form.tightness ≤ 11) →
      Begins (p.written ++ qs) fun k =>
        k.beginsPrimary = true ∨ k.isUnary = true ∧ form.tightness ≤ 11 := by
    intro form span parts role p qs hlev hbound ih
    obtain ⟨hself, hparts⟩ := Node.all_of.mp hlev
    have htight := Node.wellLevelled_of.mp hself (role, p) List.mem_cons_self
    refine .append ((ih (hparts (role, p) List.mem_cons_self)).mono fun k hk => ?_)
    exact hk.imp_right fun h => ⟨h.1, Nat.le_trans (Nat.le_trans hbound htight) h.2⟩
  induction h with
  | ident hname => exact fun _ => .token (.inl (by rw [hname]; rfl))
  | literal hk => exact fun _ => .token (.inl (by simp [Token.Kind.beginsPrimary, hk]))
  | this => exact fun _ => .token (.inl rfl)
  | paren | array | map =>
      intro _
      simp only [Node.written_parenExpr, Node.written_arrayLit, Node.written_mapLit]
      exact .append (.token (.inl rfl))
  | unary hop =>
      intro _
      rw [Node.written_unaryExpr]
      exact .append (.token (.inr ⟨hop, Nat.le_refl _⟩))
  | member _ _ ih | index _ _ ih | call _ _ ih | cast _ _ _ ih | binary _ _ _ _ _ _ ih
  | range _ _ ih | instanceOf _ _ _ ih =>
      intro hlev
      simp only [Node.written_memberExpr, Node.written_indexExpr, Node.written_callExpr,
        Node.written_castExpr, Node.written_binaryExpr, Node.written_rangeExpr,
        Node.written_instanceOfExpr]
      exact hleft hlev (Nat.le_refl _) ih
  | ternary _ _ _ ih =>
      intro hlev
      rw [Node.written_ternaryExpr]
      exact hleft hlev (Nat.le_succ _) ih
  | assign _ _ _ ih =>
      intro hlev
      rw [Node.written_assignExpr]
      exact hleft hlev (Nat.zero_le _) ih

theorem Node.IsOperand.begins {level : Nat} {e : Node} (h : e.IsOperand level) :
    Begins e.written (·.beginsExpression = true) := by
  refine (h.isExpression.begins h.wellLevelled).mono fun k hk => ?_
  exact Bool.or_eq_true_iff.mpr (hk.imp_right And.left)

theorem Node.IsOperand.begins_primary {level : Nat} {e : Node} (h : e.IsOperand level)
    (hlevel : 12 ≤ level) : Begins e.written (·.beginsPrimary = true) := by
  refine (h.isExpression.begins h.wellLevelled).mono fun k hk => hk.resolve_right fun hop => ?_
  have htight := h.tight
  omega

namespace Rule

variable {g : Grammar} {n : Nat} {ts more : List Token} {next : Token} {r : Reader}
  {report : Report}

/-! ## Expressions without operators -/

theorem elements_loop (hg : g.Complete n) (hnext : next.kind = .rbracket) :
    ∀ {items acc acc' : List Node} {ts : List Token} {r : Reader},
      (∀ e ∈ items, e.IsOperand 0) → acc'.map Node.bare = acc.map Node.bare →
      Fits ((items.map Node.written).flatMap (sign .comma ++ ·) ++ [.lastComma]) ts →
      r.At (ts ++ next :: more) report → (ts ++ next :: more).length ≤ n + 1 →
      RegainsAll (iterate (nextElement g) acc') r (acc ++ items) (next :: more) report := by
  intro items
  induction items with
  | nil =>
      intro acc acc' ts r _ hacc hfits hr _
      rw [List.append_nil]
      rcases hfits.of_commasTail with ⟨rfl, -⟩ | ⟨comma, us, rfl, hk, hus⟩
      · exact .iterate ((Gives.decline hr (by rw [hnext]; decide) (.pure ⟨hacc, hr⟩)).bind)
      · cases hus
        refine .iterate ((Gives.accept hr hk fun s hs => ?_).bind)
        refine (Gives.check hs ?_).bind
        rw [if_pos (by simp [hnext])]
        exact .pure ⟨hacc, hs⟩
  | cons e items ih =>
      intro acc acc' ts r hP hacc hfits hr hlen
      rcases hfits.of_commasTail with ⟨-, hnil⟩ | ⟨comma, us, rfl, hk, hus⟩
      · cases hnil
      rw [List.map_cons, commas_cons] at hus
      obtain ⟨vs, ws, rfl, hvs, hws⟩ := hus.of_append
      obtain ⟨u, us, htail, hu⟩ := hws.next_of_commasTail (·.grip ≤ 0) more (Nat.le_refl _)
        (by rw [hnext]; exact Nat.le_refl _)
      have hall : comma :: (vs ++ ws) ++ next :: more = comma :: (vs ++ u :: us) := by
        rw [← htail]
        simp
      rw [hall] at hr hlen
      have he := hP e List.mem_cons_self
      refine .iterate ((Gives.accept hr hk fun s hs => ?_).bind)
      obtain ⟨t, vs, rfl, ht⟩ := he.begins vs hvs
      refine (Gives.check hs ?_).bind
      rw [if_neg (by simpa using Token.Kind.ne_of_beginsExpression ht rfl)]
      refine (hg.expression.regains he hvs hu hs (Nat.le_of_succ_le_succ hlen)).andThen ?_
      rintro e' s' ⟨he', hs'⟩
      refine .pure ⟨hr.ahead_lt hs', ?_⟩
      rw [← htail] at hs'
      rw [List.append_cons acc e items]
      refine ih (fun x hx => hP x (List.mem_cons_of_mem e hx)) ?_ hws hs' ?_
      · rw [List.map_append, List.map_append, hacc, List.map_singleton, List.map_singleton, he']
      · rw [htail]
        simp only [List.length_cons, List.length_append] at hlen ⊢
        omega

theorem arrayElements_gives {es : List Node} (hg : g.Complete n) (hes : ∀ e ∈ es, e.IsOperand 0)
    (hfits : Fits (commas (es.map Node.written)) ts) (hnext : next.kind = .rbracket)
    (hr : r.At (ts ++ next :: more) report) (hlen : (ts ++ next :: more).length ≤ n) :
    RegainsAll (arrayElements g) r es (next :: more) report := by
  cases es with
  | nil =>
      cases hfits
      refine (Gives.check hr ?_).bind
      rw [if_pos (by simp [hnext])]
      exact .pure ⟨rfl, hr⟩
  | cons e es =>
      rw [List.map_cons, commas_cons] at hfits
      obtain ⟨vs, ws, rfl, hvs, hws⟩ := hfits.of_append
      obtain ⟨u, us, htail, hu⟩ := hws.next_of_commasTail (·.grip ≤ 0) more (Nat.le_refl _)
        (by rw [hnext]; exact Nat.le_refl _)
      rw [List.append_assoc, htail] at hr hlen
      have he := hes e List.mem_cons_self
      obtain ⟨t, vs, rfl, ht⟩ := he.begins vs hvs
      refine (Gives.check hr ?_).bind
      rw [if_neg (by simpa using Token.Kind.ne_of_beginsExpression ht rfl)]
      refine (hg.expression.regains he hvs hu hr hlen).andThen ?_
      rintro e' s ⟨he', hs⟩
      rw [← htail] at hs
      have hacc : [e'].map Node.bare = [e].map Node.bare := by
        rw [List.map_singleton, List.map_singleton, he']
      refine elements_loop hg hnext (fun x hx => hes x (List.mem_cons_of_mem e hx)) hacc hws hs ?_
      rw [htail]
      simp only [List.length_cons, List.length_append] at hlen ⊢
      omega

theorem arrayLit_gives {es : List Node} {span : Span} {lb rb : Token} (hg : g.Complete n)
    (hes : ∀ e ∈ es, e.IsOperand 0) (hlb : lb.kind = .lbracket)
    (hfits : Fits (commas (es.map Node.written)) ts) (hrb : rb.kind = .rbracket)
    (hr : r.At (lb :: (ts ++ rb :: more)) report) (hlen : (ts ++ rb :: more).length ≤ n) :
    Regains (arrayLit g) r (.of .arrayLit span (several .element es)) more report := by
  refine (Gives.expect hr hlb fun s hs => ?_).bind
  refine (arrayElements_gives hg hes hfits hrb hs hlen).andThen ?_
  rintro es' s₁ ⟨hes', hs₁⟩
  refine (Gives.expect hs₁ hrb fun s₂ hs₂ => ?_).bind
  refine (Gives.spanFrom fun _ => .pure ⟨?_, hs₂⟩).bind
  simp [hes']

/-- An entry of a map literal with a key and a value that bind tightly enough. -/
def IsEntry (x : Node) : Prop :=
  ∃ span key value, x = .entry span key value ∧ key.IsOperand 1 ∧ value.IsOperand 1

theorem entry_begins {x : Node} (h : IsEntry x) :
    Begins x.written fun k => k ≠ .rbrace ∧ k ≠ .eof := by
  obtain ⟨span, k, v, rfl, hk, -⟩ := h
  rw [Node.written_entry]
  exact .append (hk.begins.mono fun _ h => ⟨Token.Kind.ne_of_beginsExpression h rfl,
    Token.Kind.ne_of_beginsExpression h rfl⟩)

theorem mapEntry_complete (hg : g.Complete n) :
    Read.Complete n (mapEntry g) IsEntry (·.grip ≤ 1) := by
  constructor
  rintro _ ts more next r report ⟨span, k, v, rfl, hk, hv⟩ hfits hstop hr hlen
  rw [Node.written_entry] at hfits
  obtain ⟨us, vs, rfl, hus, hfits⟩ := hfits.of_append
  obtain ⟨colon, vs, rfl, hcolon, hvs⟩ := hfits.of_sign
  rw [List.append_assoc] at hr hlen
  refine (hg.ternary.regains hk hus (by rw [hcolon]; decide) hr hlen).andThen ?_
  rintro k' s ⟨hk', hs⟩
  refine (Gives.expect hs hcolon fun s₁ hs₁ => ?_).bind
  refine (hg.ternary.regains hv hvs hstop hs₁ (length_behind (Nat.le_succ_of_le hlen))).andThen ?_
  rintro v' s₂ ⟨hv', hs₂⟩
  refine .pure ⟨?_, hs₂⟩
  simp [Node.entry, hk', hv']

theorem mapLit_gives {entries : List Node} {span : Span} {lb rb : Token} (hg : g.Complete n)
    (hentries : ∀ x ∈ entries, IsEntry x) (hlb : lb.kind = .lbrace)
    (hfits : Fits (commas (entries.map Node.written)) ts) (hrb : rb.kind = .rbrace)
    (hr : r.At (lb :: (ts ++ rb :: more)) report) (hlen : (ts ++ rb :: more).length ≤ n) :
    Regains (mapLit g) r (.of .mapLit span (several .entry entries)) more report := by
  refine (Gives.expect hr hlb fun s hs => ?_).bind
  refine (commaList_loop hrb (mapEntry_complete hg) entry_begins (by decide) (by decide)
    (by decide) hentries rfl hfits hs hlen).andThen ?_
  rintro entries' s₁ ⟨hentries', hs₁⟩
  refine (Gives.expect hs₁ hrb fun s₂ hs₂ => ?_).bind
  refine (Gives.spanFrom fun _ => .pure ⟨?_, hs₂⟩).bind
  rw [Node.bare_of, Node.bare_of, map_bare_several, map_bare_several, hentries']
  rfl

theorem arguments_gives {args : List Node} (hg : g.Complete n)
    (hargs : ∀ a ∈ args, a.IsOperand 0) (hfits : Fits (joined .comma (args.map Node.written)) ts)
    (hnext : next.kind = .rparen) (hr : r.At (ts ++ next :: more) report)
    (hlen : (ts ++ next :: more).length ≤ n) :
    RegainsAll (arguments g) r args (next :: more) report := by
  have hstop : next.kind.grip ≤ 0 := by rw [hnext]; exact Nat.le_refl _
  cases args with
  | nil =>
      cases hfits
      refine (Gives.check hr ?_).bind
      rw [if_pos (by simp [hnext])]
      exact .pure ⟨rfl, hr⟩
  | cons a args =>
      rw [List.map_cons, joined_cons] at hfits
      obtain ⟨vs, ws, rfl, hvs, hws⟩ := hfits.of_append
      obtain ⟨u, us, htail, hu⟩ := hws.next_of_separated (·.grip ≤ 0) more (Nat.le_refl _) hstop
      rw [List.append_assoc, htail] at hr hlen
      have ha := hargs a List.mem_cons_self
      obtain ⟨t, vs, rfl, ht⟩ := ha.begins vs hvs
      refine (Gives.check hr ?_).bind
      rw [if_neg (by simpa using Token.Kind.ne_of_beginsExpression ht rfl)]
      refine (hg.expression.regains ha hvs hu hr hlen).andThen ?_
      rintro a' s ⟨ha', hs⟩
      rw [← htail] at hs
      refine separated_gives hg.expression (Nat.le_refl _) hstop (by rw [hnext]; decide) ha'
        (fun x hx => hargs x (List.mem_cons_of_mem a hx)) hws hs ?_
      rw [htail]
      simp only [List.length_cons, List.length_append] at hlen ⊢
      omega

theorem primary_complete (hg : g.Complete n) :
    Read.Complete (n + 1) (primary g) (Node.IsOperand 14) fun _ => True := by
  constructor
  rintro e ts more next r report ⟨he, hlev, htight⟩ hfits - hr hlen
  cases he with
  | ident hname =>
      obtain ⟨t, rfl, hk, rfl⟩ := Fits.of_token hfits
      rw [hname] at hk
      refine (Gives.current hr ?_).bind
      rw [hk]
      refine (Gives.advance hr fun s hs => ?_).bind
      exact (Gives.spanFrom fun _ => .pure ⟨rfl, hs⟩).bind
  | @literal kind text span hk =>
      obtain ⟨t, rfl, rfl, rfl⟩ := Fits.of_token hfits
      refine (Gives.current hr ?_).bind
      have hread : Gives (do
          let _ ← Read.advance
          return Node.leaf (.basicLit t.kind t.literal) (← Read.spanSince t)) r fun e' s =>
            e'.bare = (Node.leaf (.basicLit t.kind t.literal) span).bare ∧
              s.At (next :: more) report := by
        refine (Gives.advance hr fun s hs => ?_).bind
        exact (Gives.spanFrom fun _ => .pure ⟨rfl, hs⟩).bind
      obtain hk | hk | hk | hk | hk | hk | hk | hk := Token.Kind.isLiteral_iff.mp hk <;>
        rw [hk] at hread ⊢ <;> exact hread
  | this =>
      obtain ⟨t, rfl, hk⟩ := Fits.of_lastSign hfits
      refine (Gives.current hr ?_).bind
      rw [hk]
      refine (Gives.advance hr fun s hs => ?_).bind
      exact (Gives.spanFrom fun _ => .pure ⟨rfl, hs⟩).bind
  | paren he =>
      have hinner := (hlev.operand he List.mem_cons_self).mono (Nat.zero_le _)
      rw [Node.written_parenExpr] at hfits
      obtain ⟨lp, us, rp, hlp, hus, hrp, hts⟩ := hfits.of_bracketed
      rw [hts] at hr hlen
      refine (Gives.current hr ?_).bind
      rw [hlp]
      refine (Gives.advance hr fun s hs => ?_).bind
      refine (hg.expression.regains hinner hus (by rw [hrp]; decide) hs
        (Nat.le_of_succ_le_succ hlen)).andThen ?_
      rintro e' s₁ ⟨he', hs₁⟩
      refine (Gives.expect hs₁ hrp fun s₂ hs₂ => ?_).bind
      refine (Gives.spanFrom fun _ => .pure ⟨?_, hs₂⟩).bind
      simp [he']
  | @array es span hes =>
      have helements : ∀ e ∈ es, e.IsOperand 0 := fun e he =>
        (hlev.operand (hes e he) (Rule.mem_several.mpr ⟨rfl, he⟩)).mono (Nat.zero_le _)
      rw [Node.written_arrayLit] at hfits
      obtain ⟨lb, us, rb, hlb, hus, hrb, hts⟩ := hfits.of_bracketed
      rw [hts] at hr hlen
      refine (Gives.current hr ?_).bind
      rw [hlb]
      exact arrayLit_gives hg helements hlb hus hrb hr (Nat.le_of_succ_le_succ hlen)
  | @map entries span hkeys hvalues =>
      have hentries : ∀ x ∈ entries.map (fun x => Node.entry x.1 x.2.1 x.2.2), IsEntry x := by
        intro x hx
        have hall : x.All Node.WellLevelled :=
          (Node.all_of.mp hlev).2 (.entry, x) (by simpa using hx)
        obtain ⟨⟨span, k, v⟩, hmem, rfl⟩ := List.mem_map.mp hx
        have hk := Node.All.operand hall (hkeys _ hmem) List.mem_cons_self
        have hv := Node.All.operand hall (hvalues _ hmem)
          (List.mem_cons_of_mem _ List.mem_cons_self)
        exact ⟨span, k, v, rfl, hk, hv⟩
      rw [Node.written_mapLit] at hfits
      obtain ⟨lb, us, rb, hlb, hus, hrb, hts⟩ := hfits.of_bracketed
      rw [hts] at hr hlen
      refine (Gives.current hr ?_).bind
      rw [hlb]
      exact mapLit_gives hg hentries hlb hus hrb hr (Nat.le_of_succ_le_succ hlen)
  | @binary op =>
      have hlevel : 14 ≤ op.level + 1 := htight
      have hle := op.level_le
      omega
  | _ => simp [Node.of, Node.form, Form.tightness] at htight

/-! ## Accesses, indexings and calls -/

theorem memberName_gives {t : Token} {us : List Token} {Q : Node → Reader → Prop}
    (hk : t.kind = .ident) (hr : r.At (t :: us) report)
    (hQ : ∀ span s, s.At us report → Q (.leaf (.ident t.literal) span) s) :
    Gives memberName r Q := by
  refine (Gives.current hr ?_).bind
  refine (Gives.previousAny fun dot => ?_).bind
  rw [if_pos (.inl hk)]
  refine (Gives.advance hr fun s hs => ?_).bind
  exact (Gives.spanFrom fun span => .pure (hQ span s hs)).bind

theorem memberAccess_gives {t : Token} {us : List Token} {start e : Node} (hk : t.kind = .ident)
    (hr : r.At (t :: us) report) :
    Gives (memberAccess start e) r fun m s =>
      m.bare = .of .memberExpr default
        [(.operand, e.bare), (.name, .leaf (.ident t.literal) default)] ∧ s.At us report := by
  refine (memberName_gives hk hr fun span s hs => ?_).bind
  -- The span depends on whether the name is empty, the access does not.
  have hstop : ∀ stop : Place, Gives (pure (Node.of .memberExpr ⟨start.span.start, stop⟩
      [(.operand, e), (.name, .leaf (.ident t.literal) span)])) s fun m s =>
        m.bare = .of .memberExpr default
          [(.operand, e.bare), (.name, .leaf (.ident t.literal) default)] ∧ s.At us report := by
    intro stop
    exact .pure ⟨by simp, hs⟩
  dsimp only
  split
  next => exact (Gives.previousAny fun _ => .pure (hstop _)).bind.bind
  next => exact (Gives.pure (hstop _)).bind

/-- Reading an expression that binds like an access comes to going on with the
loop of accesses behind it. -/
theorem suffixed_gives {e : Node} (hg : g.Complete n) (he : IsExpression e) :
    ∀ {ts more : List Token} {next : Token} {r : Reader} {Q : Node → Reader → Prop},
      e.IsOperand 13 → Fits e.written ts →
      r.At (ts ++ next :: more) report → (ts ++ next :: more).length ≤ n + 1 →
      (∀ start e' s, e'.bare = e.bare → s.At (next :: more) report →
        Gives (iterate (suffix g start) e') s Q) →
      Gives (suffixed g) r Q := by
  have hprimary : ∀ {e : Node} {ts more : List Token} {next : Token} {r : Reader}
      {Q : Node → Reader → Prop}, e.IsOperand 14 → Fits e.written ts →
      r.At (ts ++ next :: more) report → (ts ++ next :: more).length ≤ n + 1 →
      (∀ start e' s, e'.bare = e.bare → s.At (next :: more) report →
        Gives (iterate (suffix g start) e') s Q) →
      Gives (suffixed g) r Q := by
    intro e ts more next r Q he hfits hr hlen hQ
    refine ((primary_complete hg).regains he hfits trivial hr hlen).andThen ?_
    rintro e' s ⟨he', hs⟩
    exact hQ e' e' s he' hs
  induction he with
  | @member e name span span' he hname ih =>
      intro ts more next r Q hop hfits hr hlen hQ
      have hoperand := hop.wellLevelled.operand he List.mem_cons_self
      rw [Node.written_memberExpr] at hfits
      obtain ⟨us, vs, rfl, hus, hfits⟩ := hfits.of_append
      obtain ⟨dot, vs, rfl, hdot, hvs⟩ := hfits.of_sign
      obtain ⟨t, rfl, hk, rfl⟩ := hvs.of_token
      rw [hname] at hk
      rw [List.append_assoc] at hr hlen
      refine ih hoperand hus hr hlen ?_
      intro start e' s he' hs
      refine .iterate ((Gives.accept hs hdot fun s₁ hs₁ => ?_).bind)
      refine (memberAccess_gives hk hs₁).andThen ?_
      rintro m s₂ ⟨hm, hs₂⟩
      refine .pure ⟨?_, hQ start m s₂ ?_ hs₂⟩
      · rw [hs.ahead_eq, hs₂.ahead_eq]
        simp
      · simp [hm, he']
  | @index e i span he hi ih =>
      intro ts more next r Q hop hfits hr hlen hQ
      have hoperand := hop.wellLevelled.operand he List.mem_cons_self
      have hindex := hop.wellLevelled.operand hi (List.mem_cons_of_mem _ List.mem_cons_self)
      rw [Node.written_indexExpr] at hfits
      obtain ⟨us, vs, rfl, hus, hfits⟩ := hfits.of_append
      obtain ⟨lb, vs, rb, hlb, hvs, hrb, hts⟩ := hfits.of_bracketed
      rw [List.append_assoc, hts] at hr hlen
      refine ih hoperand hus hr hlen ?_
      intro start e' s he' hs
      refine .iterate ((Gives.decline hs (by rw [hlb]; decide) ?_).bind)
      refine (Gives.accept hs hlb fun s₁ hs₁ => ?_).bind
      refine (hg.expression.regains (hindex.mono (Nat.zero_le _)) hvs (by rw [hrb]; decide) hs₁
        (length_behind hlen)).andThen ?_
      rintro i' s₂ ⟨hi', hs₂⟩
      refine (Gives.expect hs₂ hrb fun s₃ hs₃ => ?_).bind
      refine (Gives.spanFrom fun span' => .pure ⟨?_, hQ start _ s₃ ?_ hs₃⟩).bind
      · rw [hs.ahead_eq, hs₃.ahead_eq]
        simp only [List.length_cons, List.length_append]
        omega
      · simp [he', hi']
  | @call e args span he hargs ih =>
      intro ts more next r Q hop hfits hr hlen hQ
      have hoperand := hop.wellLevelled.operand he List.mem_cons_self
      have harguments : ∀ a ∈ args, a.IsOperand 0 := fun a ha =>
        (hop.wellLevelled.operand (hargs a ha)
          (List.mem_cons_of_mem _ (Rule.mem_several.mpr ⟨rfl, ha⟩))).mono (Nat.zero_le _)
      rw [Node.written_callExpr] at hfits
      obtain ⟨us, vs, rfl, hus, hfits⟩ := hfits.of_append
      obtain ⟨lp, vs, rp, hlp, hvs, hrp, hts⟩ := hfits.of_bracketed
      rw [List.append_assoc, hts] at hr hlen
      refine ih hoperand hus hr hlen ?_
      intro start e' s he' hs
      refine .iterate ((Gives.decline hs (by rw [hlp]; decide) ?_).bind)
      refine (Gives.decline hs (by rw [hlp]; decide) ?_).bind
      refine (Gives.accept hs hlp fun s₁ hs₁ => ?_).bind
      refine (arguments_gives hg harguments hvs hrp hs₁ (length_behind hlen)).andThen ?_
      rintro args' s₂ ⟨hargs', hs₂⟩
      refine (Gives.expect hs₂ hrp fun s₃ hs₃ => ?_).bind
      refine (Gives.spanFrom fun span' => .pure ⟨?_, hQ start _ s₃ ?_ hs₃⟩).bind
      · rw [hs.ahead_eq, hs₃.ahead_eq]
        simp only [List.length_cons, List.length_append]
        omega
      · simp [he', hargs']
  | _ =>
      intro ts more next r Q hop
      refine hprimary (hop.tighten ?_)
      simp [Node.of, Node.leaf, Node.form, Form.tightness, Token.Kind.level_ne]

theorem suffixed_complete (hg : g.Complete n) :
    Read.Complete (n + 1) (suffixed g) (Node.IsOperand 13) (·.grip ≤ 13) := by
  constructor
  intro e ts more next r report he hfits hstop hr hlen
  obtain ⟨hdot, hlb, hlp⟩ := Token.Kind.ne_of_grip_le_thirteen hstop
  refine suffixed_gives hg he.isExpression he hfits hr hlen fun start e' s he' hs => ?_
  refine .iterate ((Gives.decline hs hdot ?_).bind)
  refine (Gives.decline hs hlb ?_).bind
  refine (Gives.decline hs hlp ?_).bind
  exact .pure ⟨he', hs⟩

/-! ## Casts -/

theorem endsAtom_of_grip {k : Token.Kind} (h : k.grip ≤ 13) : k.endsAtom = true := by
  revert k
  decide

/-- Reading an expression that binds like a cast comes to going on with the loop
of casts behind it. -/
theorem cast_gives {e : Node} (hg : g.Complete n) (he : IsExpression e) :
    ∀ {ts more : List Token} {next : Token} {r : Reader} {Q : Node → Reader → Prop},
      e.IsOperand 12 → Fits e.written ts → next.kind.grip ≤ 13 →
      r.At (ts ++ next :: more) report → (ts ++ next :: more).length ≤ n + 1 →
      (∀ e' s, e'.bare = e.bare → s.At (next :: more) report →
        Gives (iterate (conversion g) e') s Q) →
      Gives (cast g) r Q := by
  have hsuffixed : ∀ {e : Node} {ts more : List Token} {next : Token} {r : Reader}
      {Q : Node → Reader → Prop}, e.IsOperand 13 → Fits e.written ts → next.kind.grip ≤ 13 →
      r.At (ts ++ next :: more) report → (ts ++ next :: more).length ≤ n + 1 →
      (∀ e' s, e'.bare = e.bare → s.At (next :: more) report →
        Gives (iterate (conversion g) e') s Q) →
      Gives (cast g) r Q := by
    intro e ts more next r Q he hfits hstop hr hlen hQ
    refine ((suffixed_complete hg).regains he hfits hstop hr hlen).andThen ?_
    rintro e' s ⟨he', hs⟩
    exact hQ e' s he' hs
  induction he with
  | @cast e t span he ht hatom ih =>
      intro ts more next r Q hop hfits hstop hr hlen hQ
      have hoperand := hop.wellLevelled.operand he List.mem_cons_self
      rw [Node.written_castExpr] at hfits
      obtain ⟨us, vs, rfl, hus, hfits⟩ := hfits.of_append
      obtain ⟨as, vs, rfl, has, hvs⟩ := hfits.of_sign
      rw [List.append_assoc] at hr hlen
      refine ih hoperand hus (by rw [has]; decide) hr hlen ?_
      intro e' s he' hs
      refine .iterate ((Gives.accept hs has fun s₁ hs₁ => ?_).bind)
      refine ((typeAtom_complete hg).regains ⟨ht, hatom⟩ hvs (endsAtom_of_grip hstop) hs₁
        (Nat.le_succ_of_le (length_behind hlen))).andThen ?_
      rintro t' s₂ ⟨ht', hs₂⟩
      refine .pure ⟨hs.ahead_lt hs₂, hQ _ s₂ ?_ hs₂⟩
      simp [he', ht']
  | _ =>
      intro ts more next r Q hop
      refine hsuffixed (hop.tighten ?_)
      simp [Node.of, Node.leaf, Node.form, Form.tightness, Token.Kind.level_ne]

theorem cast_complete (hg : g.Complete n) :
    Read.Complete (n + 1) (cast g) (Node.IsOperand 12) (·.grip ≤ 12) := by
  constructor
  intro e ts more next r report he hfits hstop hr hlen
  refine cast_gives hg he.isExpression he hfits (Nat.le_succ_of_le hstop) hr hlen ?_
  intro e' s he' hs
  exact .iterate
    ((Gives.decline hs (Token.Kind.ne_of_grip_le_twelve hstop) (.pure ⟨he', hs⟩)).bind)

/-! ## Unary operators -/

theorem unary_complete (hg : g.Complete n) :
    Read.Complete (n + 1) (unary g) (Node.IsOperand 11) (·.grip ≤ 11) := by
  constructor
  intro e ts more next r report he hfits hstop hr hlen
  have hcast : e.IsOperand 12 → Regains (unary g) r e (next :: more) report := by
    intro hcast
    obtain ⟨t, us, rfl, hbegin⟩ := hcast.begins_primary (Nat.le_refl _) ts hfits
    have hread := (cast_complete hg).regains hcast hfits (Nat.le_succ_of_le hstop) hr hlen
    refine (Gives.current hr ?_).bind
    -- An expression that begins like a primary one begins with no operator.
    split
    iterate 3 next hk => rw [hk] at hbegin; cases hbegin
    exact hread
  have hexpr := he.isExpression
  cases hexpr with
  | @unary op x span hop hx =>
      have hoperand := he.wellLevelled.operand hx List.mem_cons_self
      rw [Node.written_unaryExpr] at hfits
      obtain ⟨t, us, rfl, rfl, hus⟩ := hfits.of_sign
      have hread : Gives (do
          let _ ← Read.advance
          let operand ← g.unary
          return Node.of (.unaryExpr t.kind) (← Read.spanSince t) [(.operand, operand)]) r
            fun e' s => e'.bare = (Node.of (.unaryExpr t.kind) span [(.operand, x)]).bare ∧
              s.At (next :: more) report := by
        refine (Gives.advance hr fun s hs => ?_).bind
        refine (hg.unary.regains hoperand hus hstop hs (Nat.le_of_succ_le_succ hlen)).andThen ?_
        rintro x' s₁ ⟨hx', hs₁⟩
        refine (Gives.spanFrom fun _ => .pure ⟨?_, hs₁⟩).bind
        simp [hx']
      refine (Gives.current hr ?_).bind
      obtain hk | hk | hk := Token.Kind.isUnary_iff.mp hop <;> rw [hk] at hread ⊢ <;> exact hread
  | _ =>
      refine hcast (he.tighten ?_)
      simp [Node.of, Node.leaf, Node.form, Form.tightness, Token.Kind.level_ne]

/-! ## Binary operators -/

/-- One round of the loop of operators. -/
theorem operation_gives {left : Node} {op : Token} {least : Nat} {Q : Node → Reader → Prop}
    (hr : r.At (op :: ts) report) (hpos : 0 < op.kind.level) (hle : least ≤ op.kind.level)
    (hafter : ∀ s : Reader, s.At ts report → Gives (binaryAfter g left op.kind) s
      fun e s' => s'.ahead.length < r.ahead.length ∧ Gives (iterate (operation g least) e) s' Q) :
    Gives (iterate (operation g least) left) r Q := by
  refine .iterate ((Gives.current hr ?_).bind)
  rw [if_neg (by omega)]
  refine (Gives.advance hr fun s hs => ?_).bind
  exact (hafter s hs).andThen fun e s' h => .pure h

/-- An operator with a right operand, which is read one level higher. -/
theorem binaryAfter_operand {left right : Node} {op : Token.Kind} (hg : g.Complete n)
    (hne : op ≠ .kwInstanceof) (hright : right.IsOperand (op.level + 2))
    (hfits : Fits right.written ts) (hstop : next.kind.grip ≤ op.level + 2)
    (hr : r.At (ts ++ next :: more) report) (hlen : (ts ++ next :: more).length ≤ n) :
    Gives (binaryAfter g left op) r fun e s =>
      (e.bare = if op = .dotDot ∨ op = .kwTo then
          .of .rangeExpr default [(.lower, left.bare), (.upper, right.bare)]
        else .of (.binaryExpr op) default [(.left, left.bare), (.right, right.bare)]) ∧
      s.At (next :: more) report := by
  have hlevel := op.level_le
  unfold binaryAfter
  rw [if_neg hne]
  refine ((hg.binary (op.level + 1) (by omega) (by omega)).regains hright hfits hstop hr
    hlen).andThen ?_
  rintro right' s ⟨hright', hs⟩
  split
  next => exact .pure ⟨by simp [hright'], hs⟩
  next => exact .pure ⟨by simp [hright'], hs⟩

theorem binaryAfter_instanceOf {left t : Node} (hg : g.Complete n) (ht : IsType t)
    (hatom : t.form.isAtom = true) (hfits : Fits t.written ts) (hstop : next.kind.endsAtom = true)
    (hr : r.At (ts ++ next :: more) report) (hlen : (ts ++ next :: more).length ≤ n + 1) :
    Gives (binaryAfter g left .kwInstanceof) r fun e s =>
      e.bare = .of .instanceOfExpr default [(.operand, left.bare), (.type, t.bare)] ∧
        s.At (next :: more) report := by
  unfold binaryAfter
  rw [if_pos rfl]
  refine ((typeAtom_complete hg).regains ⟨ht, hatom⟩ hfits hstop hr hlen).andThen ?_
  rintro t' s ⟨ht', hs⟩
  exact .pure ⟨by simp [ht'], hs⟩

/-- Reading an expression that binds like an operator comes to going on with the
loop of operators behind it. What stands there must not be taken by the right
operand of the expression. -/
theorem binary_gives {e : Node} {least : Nat} (hg : g.Complete n) (hleast : 1 ≤ least)
    (he : IsExpression e) :
    ∀ {ts more : List Token} {next : Token} {r : Reader} {Q : Node → Reader → Prop},
      e.IsOperand (least + 1) → Fits e.written ts → next.kind.grip ≤ 11 →
      next.kind.grip ≤ e.form.tightness + 1 →
      r.At (ts ++ next :: more) report → (ts ++ next :: more).length ≤ n + 1 →
      (∀ e' s, e'.bare = e.bare → s.At (next :: more) report →
        Gives (iterate (operation g least) e') s Q) →
      Gives (binary g least) r Q := by
  have hunary : ∀ {e : Node} {ts more : List Token} {next : Token} {r : Reader}
      {Q : Node → Reader → Prop}, e.IsOperand 11 → Fits e.written ts → next.kind.grip ≤ 11 →
      r.At (ts ++ next :: more) report → (ts ++ next :: more).length ≤ n + 1 →
      (∀ e' s, e'.bare = e.bare → s.At (next :: more) report →
        Gives (iterate (operation g least) e') s Q) →
      Gives (binary g least) r Q := by
    intro e ts more next r Q he hfits hstop hr hlen hQ
    refine ((unary_complete hg).regains he hfits hstop hr hlen).andThen ?_
    rintro e' s ⟨he', hs⟩
    exact hQ e' s he' hs
  induction he with
  | @binary op l right span hpos hinstance hdots hto hl hright ih =>
      intro ts more next r Q hop hfits _ hstop hr hlen hQ
      have hlevel := op.level_le
      have htight : least + 1 ≤ op.level + 1 := hop.tight
      have hleft := hop.wellLevelled.operand hl List.mem_cons_self
      have hright := hop.wellLevelled.operand hright (List.mem_cons_of_mem _ List.mem_cons_self)
      rw [Node.written_binaryExpr] at hfits
      obtain ⟨us, vs, rfl, hus, hfits⟩ := hfits.of_append
      obtain ⟨t, vs, rfl, rfl, hvs⟩ := hfits.of_sign
      rw [List.append_assoc] at hr hlen
      have hgrip := Token.Kind.grip_of_level_pos hpos
      refine ih (hleft.mono htight) hus (by omega) ?_ hr hlen ?_
      · have hbound : t.kind.level + 1 ≤ l.form.tightness := hleft.tight
        omega
      intro l' s hl' hs
      refine operation_gives hs hpos (by omega) fun s₁ hs₁ => ?_
      refine (binaryAfter_operand hg hinstance hright hvs hstop hs₁ (length_behind hlen)).mono ?_
      rintro e' s₂ ⟨he', hs₂⟩
      rw [if_neg (by simp [hdots, hto])] at he'
      refine ⟨hs.ahead_lt hs₂, hQ e' s₂ ?_ hs₂⟩
      simp [he', hl']
  | @range l right span hl hright ih =>
      intro ts more next r Q hop hfits _ hstop hr hlen hQ
      have htight : least + 1 ≤ 8 := hop.tight
      have hleft := hop.wellLevelled.operand hl List.mem_cons_self
      have hright := hop.wellLevelled.operand hright (List.mem_cons_of_mem _ List.mem_cons_self)
      rw [Node.written_rangeExpr] at hfits
      obtain ⟨us, vs, rfl, hus, hfits⟩ := hfits.of_append
      obtain ⟨t, vs, rfl, ht, hvs⟩ := hfits.of_rangeSign
      rw [List.append_assoc] at hr hlen
      have hlevel : t.kind.level = 7 := by rcases ht with ht | ht <;> rw [ht] <;> rfl
      have hgrip : t.kind.grip = t.kind.level + 2 := Token.Kind.grip_of_level_pos (by omega)
      refine ih (hleft.mono htight) hus (by omega) ?_ hr hlen ?_
      · have hbound : 8 ≤ l.form.tightness := hleft.tight
        omega
      intro l' s hl' hs
      refine operation_gives hs (by omega) (by omega) fun s₁ hs₁ => ?_
      have hinstance : t.kind ≠ .kwInstanceof := by rcases ht with ht | ht <;> rw [ht] <;> decide
      refine (binaryAfter_operand hg hinstance (hlevel ▸ hright) hvs (hlevel ▸ hstop) hs₁
        (length_behind hlen)).mono ?_
      rintro e' s₂ ⟨he', hs₂⟩
      rw [if_pos ht] at he'
      refine ⟨hs.ahead_lt hs₂, hQ e' s₂ ?_ hs₂⟩
      simp [he', hl']
  | @instanceOf e t span he ht hatom ih =>
      intro ts more next r Q hop hfits hstop _ hr hlen hQ
      have htight : least + 1 ≤ 7 := hop.tight
      have hleft := hop.wellLevelled.operand he List.mem_cons_self
      rw [Node.written_instanceOfExpr] at hfits
      obtain ⟨us, vs, rfl, hus, hfits⟩ := hfits.of_append
      obtain ⟨op, vs, rfl, hk, hvs⟩ := hfits.of_sign
      rw [List.append_assoc] at hr hlen
      have hlevel : op.kind.level = 6 := by rw [hk]; rfl
      refine ih (hleft.mono htight) hus (by rw [hk]; decide) ?_ hr hlen ?_
      · have hbound : 7 ≤ e.form.tightness := hleft.tight
        rw [hk]
        exact Nat.succ_le_succ hbound
      intro e' s he' hs
      refine operation_gives hs (by omega) (by omega) fun s₁ hs₁ => ?_
      rw [hk]
      refine (binaryAfter_instanceOf hg ht hatom hvs (endsAtom_of_grip (by omega)) hs₁
        (Nat.le_succ_of_le (length_behind hlen))).mono ?_
      rintro x s₂ ⟨hx, hs₂⟩
      refine ⟨hs.ahead_lt hs₂, hQ x s₂ ?_ hs₂⟩
      simp [hx, he']
  | _ =>
      intro ts more next r Q hop hfits hstop _
      refine hunary ⟨hop.isExpression, hop.wellLevelled, ?_⟩ hfits hstop
      have htight := hop.tight
      revert htight
      simp [Node.of, Node.leaf, Node.form, Form.tightness] <;> omega

theorem binary_complete {least : Nat} (hg : g.Complete n) (hleast : 1 ≤ least)
    (hle : least ≤ 10) :
    Read.Complete (n + 1) (binary g least) (Node.IsOperand (least + 1)) (·.grip ≤ least + 1) := by
  constructor
  intro e ts more next r report he hfits hstop hr hlen
  have htight := he.tight
  refine binary_gives hg hleast he.isExpression he hfits (by omega) (by omega) hr hlen ?_
  intro e' s he' hs
  refine .iterate ((Gives.current hs ?_).bind)
  rw [if_pos (Token.Kind.level_of_grip_le hstop)]
  exact .pure ⟨he', hs⟩

/-! ## Choices and assignments -/

theorem ternary_complete (hg : g.Complete n) :
    Read.Complete (n + 1) (ternary g) (Node.IsOperand 1) (·.grip ≤ 1) := by
  constructor
  intro e ts more next r report he hfits hstop hr hlen
  have hbinary : e.IsOperand 2 → Regains (ternary g) r e (next :: more) report := by
    intro hop
    refine ((binary_complete hg (Nat.le_refl 1) (by omega)).regains hop hfits
      (Nat.le_succ_of_le hstop) hr hlen).andThen ?_
    rintro e' s ⟨he', hs⟩
    exact (Gives.decline hs (Token.Kind.ne_of_grip_le_one hstop) (.pure ⟨he', hs⟩)).bind
  have hexpr := he.isExpression
  cases hexpr with
  | @ternary c yes no span hc hyes hno =>
      have hc := he.wellLevelled.operand hc List.mem_cons_self
      have hyes := he.wellLevelled.operand hyes (List.mem_cons_of_mem _ List.mem_cons_self)
      have hno := he.wellLevelled.operand hno
        (List.mem_cons_of_mem _ (List.mem_cons_of_mem _ List.mem_cons_self))
      rw [Node.written_ternaryExpr] at hfits
      obtain ⟨us, vs, rfl, hus, hfits⟩ := hfits.of_append
      obtain ⟨question, vs, rfl, hquestion, hfits⟩ := hfits.of_sign
      obtain ⟨vs, ws, rfl, hvs, hfits⟩ := hfits.of_append
      obtain ⟨colon, ws, rfl, hcolon, hws⟩ := hfits.of_sign
      have hall : us ++ question :: (vs ++ colon :: ws) ++ next :: more =
          us ++ question :: (vs ++ colon :: (ws ++ next :: more)) := by simp
      rw [hall] at hr hlen
      refine ((binary_complete hg (Nat.le_refl 1) (by omega)).regains hc hus
        (by rw [hquestion]; decide) hr hlen).andThen ?_
      rintro c' s ⟨hc', hs⟩
      refine (Gives.accept hs hquestion fun s₁ hs₁ => ?_).bind
      refine (hg.ternary.regains hyes hvs (by rw [hcolon]; decide) hs₁
        (length_behind hlen)).andThen ?_
      rintro yes' s₂ ⟨hyes', hs₂⟩
      refine (Gives.expect hs₂ hcolon fun s₃ hs₃ => ?_).bind
      refine (hg.ternary.regains hno hws hstop hs₃
        (length_behind (Nat.le_succ_of_le (length_behind hlen)))).andThen ?_
      rintro no' s₄ ⟨hno', hs₄⟩
      refine .pure ⟨?_, hs₄⟩
      simp [hc', hyes', hno']
  | binary hpos =>
      refine hbinary (he.tighten ?_)
      simp only [Node.of, Node.form, Form.tightness]
      omega
  | _ => exact hbinary (he.tighten (by simp [Node.of, Node.leaf, Node.form, Form.tightness]))

theorem expression_complete (hg : g.Complete n) :
    Read.Complete (n + 1) (expression g) (Node.IsOperand 0) (·.grip ≤ 0) := by
  constructor
  intro e ts more next r report he hfits hstop hr hlen
  have hternary : e.IsOperand 1 → Regains (expression g) r e (next :: more) report := by
    intro hop
    refine ((ternary_complete hg).regains hop hfits (Nat.le_succ_of_le hstop) hr hlen).andThen ?_
    rintro e' s ⟨he', hs⟩
    refine (Gives.current hs ?_).bind
    rw [if_neg (Token.Kind.not_isAssignment_of_grip_eq_zero hstop)]
    exact .pure ⟨he', hs⟩
  have hexpr := he.isExpression
  cases hexpr with
  | @assign op l right span hassign hl hright =>
      have hl := he.wellLevelled.operand hl List.mem_cons_self
      have hright := he.wellLevelled.operand hright (List.mem_cons_of_mem _ List.mem_cons_self)
      rw [Node.written_assignExpr] at hfits
      obtain ⟨us, vs, rfl, hus, hfits⟩ := hfits.of_append
      obtain ⟨t, vs, rfl, rfl, hvs⟩ := hfits.of_sign
      rw [List.append_assoc] at hr hlen
      refine ((ternary_complete hg).regains hl hus
        (Nat.le_of_eq (Token.Kind.grip_of_isAssignment hassign)) hr hlen).andThen ?_
      rintro l' s ⟨hl', hs⟩
      refine (Gives.current hs ?_).bind
      rw [if_pos hassign]
      refine (Gives.advance hs fun s₁ hs₁ => ?_).bind
      refine (hg.expression.regains (hright.mono (Nat.zero_le _)) hvs hstop hs₁
        (length_behind hlen)).andThen ?_
      rintro right' s₂ ⟨hright', hs₂⟩
      refine .pure ⟨?_, hs₂⟩
      simp [hl', hright']
  | _ => exact hternary (he.tighten (by simp [Node.of, Node.leaf, Node.form, Form.tightness]))

end Rule

end Zensight
