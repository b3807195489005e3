import Zensight.Proofs.RoundTrip.Trees

/-!
# Reading lists back

A rule is complete for a kind of tree if it gives back every such tree that
stands in front of a token at which the rule has to stop. A grammar is complete
up to a number of tokens if its rules are, each for the trees and tokens that it
is meant for.

The rules for lists are complete if the rules for their items are, and the items
do not begin like the token that closes the list.
-/

namespace Zensight

open Piece

/-! ## Taking written trees apart -/

namespace Fits

variable {ps : List Piece} {ts : List Token} {k : Token.Kind}

theorem of_sign (h : Fits (sign k ++ ps) ts) :
    ∃ t us, ts = t :: us ∧ t.kind = k ∧ Fits ps us := by
  obtain ⟨vs, us, rfl, hvs, hus⟩ := h.of_append
  obtain ⟨t, rfl, hk, -⟩ := hvs.of_token
  exact ⟨t, us, rfl, hk, hus⟩

theorem of_lastSign (h : Fits (sign k) ts) : ∃ t, ts = [t] ∧ t.kind = k := by
  obtain ⟨t, rfl, hk, -⟩ := h.of_token
  exact ⟨t, rfl, hk⟩

theorem of_bracketed {k' : Token.Kind} (h : Fits (sign k ++ (ps ++ sign k')) ts) :
    ∃ left us right, left.kind = k ∧ Fits ps us ∧ right.kind = k' ∧
      ∀ more, ts ++ more = left :: (us ++ right :: more) := by
  obtain ⟨left, us, rfl, hleft, h⟩ := h.of_sign
  obtain ⟨us, vs, rfl, hus, hvs⟩ := h.of_append
  obtain ⟨right, rfl, hright⟩ := hvs.of_lastSign
  refine ⟨left, us, right, hleft, hus, hright, fun more => ?_⟩
  rw [List.cons_append, List.append_assoc]
  rfl

theorem of_rangeSign (h : Fits ([.rangeSign] ++ ps) ts) :
    ∃ t us, ts = t :: us ∧ (t.kind = .dotDot ∨ t.kind = .kwTo) ∧ Fits ps us := by
  obtain ⟨us, vs, rfl, hus, hvs⟩ := h.of_append
  cases hus.of_one with
  | @rangeSign t hk => exact ⟨t, vs, rfl, hk, hvs⟩

theorem of_lastComma (h : Fits [.lastComma] ts) :
    ts = [] ∨ ∃ comma : Token, ts = [comma] ∧ comma.kind = .comma := by
  cases h.of_one with
  | noComma => exact .inl rfl
  | comma hk => exact .inr ⟨_, rfl, hk⟩

/-- Behind an item stands a separator or what stands behind the list. -/
theorem next_of_separated {parts : List (List Piece)} {next : Token}
    (h : Fits (parts.flatMap (sign k ++ ·)) ts) (stop : Token.Kind → Prop) (more : List Token)
    (hk : stop k) (hnext : stop next.kind) :
    ∃ u us, ts ++ next :: more = u :: us ∧ stop u.kind := by
  cases parts with
  | nil =>
      cases h
      exact ⟨next, more, rfl, hnext⟩
  | cons part parts =>
      rw [List.flatMap_cons, List.append_assoc] at h
      obtain ⟨u, us, rfl, hu, -⟩ := h.of_sign
      exact ⟨u, us ++ next :: more, rfl, hu ▸ hk⟩

/-- Behind an item of a list with commas stands nothing, if it is the last one, or
a comma and the rest of the list. -/
theorem of_commasTail {parts : List (List Piece)}
    (h : Fits (parts.flatMap (sign .comma ++ ·) ++ [.lastComma]) ts) :
    (ts = [] ∧ parts = []) ∨
      ∃ comma us, ts = comma :: us ∧ comma.kind = .comma ∧ Fits (commas parts) us := by
  cases parts with
  | nil =>
      rcases h.of_lastComma with rfl | ⟨comma, rfl, hk⟩
      · exact .inl ⟨rfl, rfl⟩
      · exact .inr ⟨comma, [], rfl, hk, .nil⟩
  | cons part parts =>
      rw [List.flatMap_cons, List.append_assoc, List.append_assoc] at h
      obtain ⟨comma, us, rfl, hk, hus⟩ := h.of_sign
      exact .inr ⟨comma, us, rfl, hk, by rwa [commas_cons]⟩

theorem next_of_commasTail {parts : List (List Piece)} {next : Token}
    (h : Fits (parts.flatMap (sign .comma ++ ·) ++ [.lastComma]) ts)
    (stop : Token.Kind → Prop) (more : List Token) (hcomma : stop .comma)
    (hnext : stop next.kind) : ∃ u us, ts ++ next :: more = u :: us ∧ stop u.kind := by
  rcases h.of_commasTail with ⟨rfl, -⟩ | ⟨comma, us, rfl, hk, -⟩
  · exact ⟨next, more, rfl, hnext⟩
  · exact ⟨comma, us ++ next :: more, rfl, hk ▸ hcomma⟩

end Fits

/-- All tokens that fit the pieces begin with one of such a kind. -/
def Begins (ps : List Piece) (B : Token.Kind → Prop) : Prop :=
  ∀ ts : List Token, Fits ps ts → ∃ t us, ts = t :: us ∧ B t.kind

namespace Begins

variable {ps qs : List Piece} {B C : Token.Kind → Prop} {k : Token.Kind} {w : Text}

theorem token (h : B k) : Begins [.token k w] B := by
  intro ts hfits
  obtain ⟨t, rfl, hk, -⟩ := hfits.of_token
  exact ⟨t, [], rfl, hk ▸ h⟩

theorem append (h : Begins ps B) : Begins (ps ++ qs) B := by
  intro ts hfits
  obtain ⟨us, vs, rfl, hus, -⟩ := hfits.of_append
  obtain ⟨t, us, rfl, ht⟩ := h us hus
  exact ⟨t, us ++ vs, rfl, ht⟩

theorem mono (h : Begins ps B) (hBC : ∀ k, B k → C k) : Begins ps C := by
  intro ts hfits
  obtain ⟨t, us, rfl, ht⟩ := h ts hfits
  exact ⟨t, us, rfl, hBC _ ht⟩

end Begins

/-! ## Complete rules -/

theorem length_behind {t : Token} {ts us : List Token} {n : Nat}
    (h : (ts ++ t :: us).length ≤ n + 1) : us.length ≤ n := by
  rw [List.length_append, List.length_cons] at h
  omega

namespace Read

/-- The step gives a tree that is `n` up to places, and these tokens are ahead
then. -/
def Regains (m : Read Node) (r : Reader) (n : Node) (rest : List Token) (report : Report) : Prop :=
  Gives m r fun n' s => n'.bare = n.bare ∧ s.At rest report

/-- The same for lists of trees. -/
def RegainsAll (m : Read (List Node)) (r : Reader) (ns : List Node) (rest : List Token)
    (report : Report) : Prop :=
  Gives m r fun ns' s => ns'.map Node.bare = ns.map Node.bare ∧ s.At rest report

/-- The rule gives back every tree in `P` in front of a token in `stop`, if at
most `n` tokens are ahead. -/
structure Complete (n : Nat) (m : Read Node) (P : Node → Prop) (stop : Token.Kind → Prop) :
    Prop where
  regains : ∀ {e : Node} {ts more : List Token} {next : Token} {r : Reader} {report : Report},
    P e → Fits e.written ts → stop next.kind → r.At (ts ++ next :: more) report →
    (ts ++ next :: more).length ≤ n → Regains m r e (next :: more) report

end Read

/-- An expression that binds at least this tightly. -/
structure Node.IsOperand (level : Nat) (e : Node) : Prop where
  isExpression : IsExpression e
  wellLevelled : e.All Node.WellLevelled
  tight : level ≤ e.form.tightness

/-- Does a type end in front of the token? -/
def Token.Kind.endsType : Token.Kind → Bool
  | .dot | .lbracket | .amp => false
  | _ => true

/-- Does a type that is no intersection end in front of the token? -/
def Token.Kind.endsAtom : Token.Kind → Bool
  | .dot | .lbracket => false
  | _ => true

theorem Token.Kind.endsAtom_of_endsType {k : Token.Kind} (h : k.endsType = true) :
    k.endsAtom = true ∧ k ≠ .amp := by
  revert k
  decide

/-- The rules give back what they are meant for, up to this number of tokens. -/
structure Grammar.Complete (g : Grammar) (n : Nat) : Prop where
  type : Read.Complete n g.type IsType (·.endsType)
  typeAtom : Read.Complete n g.typeAtom (fun t => IsType t ∧ t.form.isAtom) (·.endsAtom)
  expression : Read.Complete n g.expression (Node.IsOperand 0) (·.grip ≤ 0)
  ternary : Read.Complete n g.ternary (Node.IsOperand 1) (·.grip ≤ 1)
  binary : ∀ least, 1 ≤ least → least ≤ 10 →
    Read.Complete n (g.binary least) (Node.IsOperand (least + 1)) (·.grip ≤ least + 1)
  unary : Read.Complete n g.unary (Node.IsOperand 11) (·.grip ≤ 11)

/-! ## Lists -/

namespace Rule

open Read

variable {item : Read Node} {P : Node → Prop} {stop : Token.Kind → Prop} {n : Nat}
  {items acc acc' : List Node} {ts more : List Token} {next : Token} {r : Reader}
  {report : Report}

/-- Items behind separators, up to a token that is none. -/
theorem separated_loop {separator : Token.Kind} (hitem : Complete n item P stop)
    (hsep : stop separator) (hnext : stop next.kind) (hne : next.kind ≠ separator) :
    ∀ {items acc acc' : List Node} {ts : List Token} {r : Reader},
      (∀ e ∈ items, P e) → acc'.map Node.bare = acc.map Node.bare →
      Fits ((items.map Node.written).flatMap (sign separator ++ ·)) ts →
      r.At (ts ++ next :: more) report → (ts ++ next :: more).length ≤ n + 1 →
      RegainsAll (iterate (nextSeparated separator item) acc') r (acc ++ items) (next :: more)
        report := by
  intro items
  induction items with
  | nil =>
      intro acc acc' ts r _ hacc hfits hr _
      cases hfits
      refine .iterate ((Gives.decline hr hne ?_).bind)
      rw [List.append_nil]
      exact .pure ⟨hacc, hr⟩
  | cons e items ih =>
      intro acc acc' ts r hP hacc hfits hr hlen
      rw [List.map_cons, List.flatMap_cons, List.append_assoc] at hfits
      obtain ⟨sep, us, rfl, hk, hfits⟩ := hfits.of_sign
      obtain ⟨vs, ws, rfl, hvs, hws⟩ := hfits.of_append
      obtain ⟨u, us, hus, hu⟩ := hws.next_of_separated stop more hsep hnext
      have hall : sep :: (vs ++ ws) ++ next :: more = sep :: (vs ++ u :: us) := by
        rw [← hus]
        simp
      rw [hall] at hr hlen
      refine .iterate ((Gives.accept hr hk fun s hs => ?_).bind)
      refine (hitem.regains (hP e List.mem_cons_self) hvs hu hs
        (Nat.le_of_succ_le_succ hlen)).andThen ?_
      rintro e' s' ⟨he', hs'⟩
      refine .pure ⟨hr.ahead_lt hs', ?_⟩
      rw [← hus] at hs'
      rw [List.append_cons acc e items]
      refine ih (fun x hx => hP x (List.mem_cons_of_mem e hx)) ?_ hws hs' ?_
      · rw [List.map_append, List.map_append, hacc, List.map_singleton, List.map_singleton, he']
      · rw [hus]
        simp only [List.length_cons, List.length_append] at hlen ⊢
        omega

theorem separated_gives {separator : Token.Kind} {first first' : Node}
    (hitem : Complete n item P stop) (hsep : stop separator) (hnext : stop next.kind)
    (hne : next.kind ≠ separator) (hfirst : first'.bare = first.bare) (hP : ∀ e ∈ items, P e)
    (hfits : Fits ((items.map Node.written).flatMap (sign separator ++ ·)) ts)
    (hr : r.At (ts ++ next :: more) report) (hlen : (ts ++ next :: more).length ≤ n + 1) :
    RegainsAll (separated separator first' item) r (first :: items) (next :: more) report := by
  have hacc : [first'].map Node.bare = [first].map Node.bare := by
    rw [List.map_singleton, List.map_singleton, hfirst]
  exact separated_loop hitem hsep hnext hne hP hacc hfits hr hlen

/-- Items with commas between them up to the token that closes the list. -/
theorem commaList_loop {close : Token.Kind} (hnext : next.kind = close)
    (hitem : Complete n item P stop)
    (hbegin : ∀ {e}, P e → Begins e.written fun k => k ≠ close ∧ k ≠ .eof)
    (hcomma : stop .comma) (hclose : stop close) (hne : close ≠ .comma) :
    ∀ {items acc acc' : List Node} {ts : List Token} {r : Reader},
      (∀ e ∈ items, P e) → acc'.map Node.bare = acc.map Node.bare →
      Fits (commas (items.map Node.written)) ts →
      r.At (ts ++ next :: more) report → (ts ++ next :: more).length ≤ n →
      RegainsAll (iterate (nextListed close item) acc') r (acc ++ items) (next :: more)
        report := by
  intro items
  induction items with
  | nil =>
      intro acc acc' ts r _ hacc hfits hr _
      cases hfits
      refine .iterate ((Gives.check hr ((Gives.check hr ?_).bind)).bind)
      rw [if_pos (by simp [hnext]), List.append_nil]
      exact .pure ⟨hacc, hr⟩
  | cons e items ih =>
      intro acc acc' ts r hP hacc hfits hr hlen
      rw [List.map_cons, commas_cons] at hfits
      obtain ⟨vs, ws, rfl, hvs, hws⟩ := hfits.of_append
      obtain ⟨t, us, rfl, hclose', heof⟩ := hbegin (hP e List.mem_cons_self) vs hvs
      have hstep : ∀ e' : Node, e'.bare = e.bare →
          (acc' ++ [e']).map Node.bare = (acc ++ [e]).map Node.bare := by
        intro e' he'
        rw [List.map_append, List.map_append, hacc, List.map_singleton, List.map_singleton, he']
      have hfirst := hr
      rw [List.append_assoc] at hr hlen
      refine .iterate ((Gives.check hfirst ((Gives.check hfirst ?_).bind)).bind)
      rw [if_neg (by simp [hclose', heof]), List.append_cons acc e items]
      rcases hws.of_commasTail with ⟨rfl, hnil⟩ | ⟨comma, ws, rfl, hk, hws⟩
      · -- The last item, and no comma behind it.
        obtain rfl := List.map_eq_nil_iff.mp hnil
        refine (hitem.regains (hP e List.mem_cons_self) hvs (hnext ▸ hclose) hr hlen).andThen ?_
        rintro e' s ⟨he', hs⟩
        refine (Gives.decline hs (hnext ▸ hne) ?_).bind
        rw [List.append_nil]
        exact .pure ⟨hstep e' he', hs⟩
      · refine (hitem.regains (hP e List.mem_cons_self) hvs (hk ▸ hcomma) hr hlen).andThen ?_
        rintro e' s ⟨he', hs⟩
        refine (Gives.accept hs hk fun s' (hs' : s'.At (ws ++ next :: more) report) => ?_).bind
        have hlt : s'.ahead.length < r.ahead.length := by
          rw [hs'.ahead_eq, hr.ahead_eq]
          simp only [List.length_append, List.length_cons]
          omega
        have hrest : ∀ x ∈ items, P x := fun x hx => hP x (List.mem_cons_of_mem e hx)
        refine .pure ⟨hlt, ih hrest (hstep e' he') hws hs' ?_⟩
        simp only [List.length_append, List.length_cons] at hlen ⊢
        omega

end Rule

end Zensight
