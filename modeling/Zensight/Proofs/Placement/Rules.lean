import Zensight.Proofs.Placement.Runs

/-!
# What the rules return, and on which tokens

One lemma for each rule of the grammar, whatever the faults of the script. A rule that starts
at the token `i` and stops before the token `j` returns a phrase of its category that stands on
the run from `i` to `j`.

Of the receiver of an access more is needed: it ends with the token before the dot. It does
because it has passed a token (`Node.Fills`). A primary expression passes none only where
reading can resume, and there no dot stands.

A type needs to know one thing more, as brackets behind a function type belong to its result:
when a type is done no brackets are next, unless none could be read (`Tokens.Closes`).
-/

namespace Zensight

/-- The rule leaves a phrase of its category on the tokens it passes. -/
def Read.Takes (t : Tokens) (c : Category) (m : Read Node) : Prop :=
  ∀ i, Read.Moves t i m fun j n => n.Takes t c i j

/-- The same of a rule that may return nothing. -/
def Read.MayTake (t : Tokens) (c : Category) (m : Read (Option Node)) : Prop :=
  ∀ i, Read.Moves t i m fun j n => ∀ x ∈ n, x.Takes t c i j

/-- The same of a rule for several nodes. -/
def Read.Lines (t : Tokens) (c : Category) (m : Read (List Node)) : Prop :=
  ∀ i, Read.Moves t i m fun j ns => t.Row c i j ns

/-- Behind a type that could be read no brackets are left. -/
def Tokens.Closes (t : Tokens) (j : Nat) (n : Node) : Prop :=
  n.form = .badType ∨ (t j).kind ≠ .lbracket

/-- What is known of the rules of a bundle. -/
structure Grammar.Takes (t : Tokens) (g : Grammar) : Prop where
  type : Read.Takes t .type g.type
  typeAtom (i : Nat) : Read.Moves t i g.typeAtom fun j n => n.Takes t .type i j ∧ t.Closes j n
  expression : Read.Takes t .expression g.expression
  ternary : Read.Takes t .expression g.ternary
  binary (least : Nat) : Read.Takes t .expression (g.binary least)
  unary : Read.Takes t .expression g.unary
  statement : Read.MayTake t .statement g.statement

/-- The run of the node is not empty, and the node ends with its last token. -/
structure Node.Fills (t : Tokens) (i j : Nat) (n : Node) : Prop where
  lt : i < j
  span_eq : (t (j - 1)).kind ≠ .illegal → n.span = t.span i j

namespace Rule

open Read Read.Moves

variable {t : Tokens} {g : Grammar} {i : Nat} {c : Category}

/-- A phrase that ends with the token passed last; or no token has been passed, and reading can
resume. -/
structure FillsOrResumes (t : Tokens) (c : Category) (i j : Nat) (n : Node) : Prop where
  takes : n.Takes t c i j
  fills : n.Fills t i j ∨ j = i ∧ (t i).kind.resumes = true

/-- An expression that a token other than one to resume at follows ends with the token before. -/
theorem FillsOrResumes.fills_of_kind {j : Nat} {n : Node} {kind : Token.Kind}
    (h : FillsOrResumes t c i j n) (hj : (t j).kind = kind) (hkind : kind.resumes = false) :
    n.Fills t i j := by
  rcases h.fills with h | ⟨rfl, h⟩
  · exact h
  · rw [hj, hkind] at h
    cases h

/-! ## Names and lists -/

theorem identifier_takes : Read.Takes t .name identifier := by
  refine fun i => .current ?_
  split
  · next h =>
      exact .advance (by rw [h]; decide) (.leaf (Nat.le_succ i)
        ⟨_, rfl, .inl (Tokens.spells h (by decide))⟩ trivial trivial)
  · exact .fail (.pure (Span.On.empty.leaf ⟨_, rfl, .inr rfl⟩ trivial trivial))

theorem memberName_moves : Moves t i memberName fun j n => t.Names i j n := by
  refine .current (.previous ?_)
  split
  · next h =>
      have hword : (t i).kind.IsWord := h.imp_right fun h => h.1
      refine .advance hword.ne_eof (.since (Nat.le_succ i) fun span hspan => .pure ?_)
      rw [hspan.eq hword.ne_illegal]
      exact .word hword
  · exact .fail (.pure .missing)

/-- A placeholder passes its token unless reading can resume there. -/
theorem placeholder_moves {form : Form} {message : Text} (hform : form.BelongsTo c)
    (hrequires : form.Requires []) (hjoins : ∀ j, form.Joins t i j .nil) :
    Moves t i (placeholder form (t i) message) fun j n =>
      FillsOrResumes t c i j n ∧ n.form = form := by
  refine .fail ?_
  split
  · next h =>
      refine .advance (fun heof => ?_) (.since (Nat.le_succ i) fun span hspan => .pure ?_)
      · rw [heof] at h
        cases h
      · exact ⟨⟨hspan.on.leaf hform hrequires (hjoins _), .inl ⟨Nat.lt_succ_self i, hspan.eq⟩⟩, rfl⟩
  · next h =>
      refine .since (Nat.le_refl i) fun span hspan => .pure ⟨⟨?_, .inr ⟨rfl, ?_⟩⟩, rfl⟩
      · exact hspan.on.leaf hform hrequires (hjoins _)
      · simpa using h

theorem behind_moves {kind : Token.Kind} {item : Read Node} (hkind : kind ≠ .eof)
    (hitem : Read.Takes t c item) :
    Moves t i (behind kind item) fun j n => t.Row c i j n.toList := by
  refine .accept hkind (fun _ => ?_) fun _ => .pure (.nil (Nat.le_refl i))
  exact (hitem _).bind fun j n _ hn => .pure (.one hn (Nat.le_succ i))

theorem commaList_lines {close : Token.Kind} {item : Read Node} (hitem : Read.Takes t c item) :
    Lines t c (commaList close item) := by
  refine fun i => .iterate _ (.nil (Nat.le_refl i)) fun j items _ hitems => .check (.check ?_)
  split
  · exact .pure hitems
  · refine (hitem j).bind fun k n _ hn => .accept (by decide) (fun _ => ?_) fun _ => ?_
    · exact .pure ((hitems.append (.one hn (Nat.le_refl j))).mono (Nat.le_refl i) (Nat.le_succ k))
    · exact .pure (hitems.append (.one hn (Nat.le_refl j)))

/-- The last of the items stops where the list does. -/
theorem separated_moves {separator : Token.Kind} {first : Node} {item : Read Node} {a : Nat}
    (hkind : separator ≠ .eof) (hitem : Read.Takes t c item) (hfirst : first.Takes t c a i) :
    Moves t i (separated separator first item) fun j ns =>
      t.Row c a j ns ∧ ∃ b, a ≤ b ∧ (ns.getLast?.getD first).Takes t c b j := by
  refine .iterate _ ⟨.one hfirst (Nat.le_refl a), a, Nat.le_refl a, hfirst⟩
    fun j items _ hitems => .accept hkind (fun _ => ?_) fun _ => .pure hitems
  refine (hitem _).bind fun k n _ hn => .pure ⟨hitems.1.append (.one hn (Nat.le_succ j)), j + 1,
    Nat.le_succ_of_le hitems.1.le, ?_⟩
  simpa [ForInStep.value] using hn

theorem advancing_moves {α : Type} {item : Read α} {P : Nat → α → Prop}
    (hi : (t i).kind ≠ .eof) (hitem : Moves t i item P) :
    Moves t i (advancing item) fun j a => ∃ k, k ≤ j ∧ P k a := by
  intro r b s hr heq
  obtain ⟨left, r', hleft, heq⟩ := bind_eq_some heq
  cases hleft
  obtain ⟨a, r', ha, heq⟩ := bind_eq_some heq
  obtain ⟨j, hij, hr', hP⟩ := hitem r a r' hr ha
  obtain ⟨now, r'', hnow, heq⟩ := bind_eq_some heq
  cases hnow
  split at heq
  · next hsame =>
      -- As many tokens ahead as before: the step is still where it started.
      have hji : j = i := by
        have hle := hr.le
        have hle' := hr'.le
        rw [hr.ahead, hr'.ahead] at hsame
        simp only [List.length_append, List.length_drop, List.length_singleton] at hsame
        omega
      subst hji
      have hdone : Moves t j (Read.advance >>= fun _ => pure a) fun k b => j ≤ k ∧ P j b :=
        .advance hi (.pure ⟨Nat.le_succ j, hP⟩)
      obtain ⟨k, hjk, hs, -, hb⟩ := hdone r' b s hr' heq
      exact ⟨k, hjk, hs, j, hjk, hb⟩
  · cases heq
    exact ⟨j, hij, hr', j, Nat.le_refl j, hP⟩

theorem untilBrace_lines {item : Read (Option Node)} (hitem : MayTake t c item) :
    Lines t c (untilBrace item) := by
  refine fun i => .iterate _ (.nil (Nat.le_refl i)) fun j items _ hitems => .check (.check ?_)
  split
  · exact .pure hitems
  · next h =>
      have hj : (t j).kind ≠ .eof := by
        intro heof
        rw [heof] at h
        simp at h
      have hrow : Moves t j item fun k n => t.Row c j k n.toList :=
        (hitem j).mono fun k n hjk hn => .toList hjk hn
      refine (advancing_moves hj hrow).bind ?_
      rintro k n - ⟨l, hlk, hn⟩
      exact .pure (hitems.append (hn.mono (Nat.le_refl j) hlk))

/-! ## Types -/

/-- A loop that passes tokens and makes no nodes. -/
theorem iterate_moves {α : Type} {step : α → Read (ForInStep α)} {a : α}
    (hstep : ∀ j b, Moves t j (step b) fun _ _ => True) :
    Moves t i (Read.iterate step a) fun _ _ => True :=
  .iterate _ trivial fun j b _ _ => hstep j b

theorem pathSegment_moves {path : List Text} :
    Moves t i (pathSegment path) fun _ _ => True := by
  refine .check (.peek ?_)
  split
  · next h =>
      simp only [Bool.and_eq_true, beq_iff_eq] at h
      refine .advance (by rw [h.1]; decide) (.advance (by rw [h.2]; decide) (.pure trivial))
  · exact .pure trivial

/-- Forms other than that of function types. -/
theorem bearsSuffix_of_form {n : Node} (h : n.form ≠ .funcType) : n.BearsSuffix :=
  fun hform => absurd hform h

theorem namedType_moves :
    Moves t i namedType fun j n => n.Takes t .type i j ∧ n.form ≠ .funcType := by
  rw [namedType]
  by_cases h : (t i).kind = .ident
  · refine .expected (by decide) h ?_
    rw [if_neg (by simpa using h)]
    refine (iterate_moves fun j b => pathSegment_moves).bind fun j path hij _ => ?_
    refine .since (Nat.le_of_succ_le hij) fun span hspan => .pure ⟨?_, fun h => by cases h⟩
    exact hspan.on.leaf rfl trivial trivial
  · rw [Read.expect, bind_assoc]
    refine .current ?_
    rw [if_neg h, bind_assoc]
    refine .fail ?_
    rw [pure_bind, if_pos h]
    exact .pure ⟨Span.On.empty.leaf rfl trivial trivial, fun h => by cases h⟩

theorem namedType_takes : Read.Takes t .type namedType :=
  fun _ => namedType_moves.mono fun _ _ _ h => h.1

/-- Where no type starts nothing is passed. The result of a function type has taken the brackets
behind it. -/
theorem typeStem_moves (hg : g.Takes t) :
    Moves t i (typeStem g (t i)) fun j n => (n = none → j = i) ∧ ∀ m ∈ n,
      m.Takes t .type i j ∧ (m.BearsSuffix ∨ (t j).kind ≠ .lbracket) := by
  have hsome {j : Nat} {n : Node} (hn : n.Takes t .type i j)
      (hbears : n.BearsSuffix ∨ (t j).kind ≠ .lbracket) : (some n = none → j = i) ∧ ∀ m ∈ some n,
        m.Takes t .type i j ∧ (m.BearsSuffix ∨ (t j).kind ≠ .lbracket) :=
    ⟨by simp, by simpa using ⟨hn, hbears⟩⟩
  rw [typeStem]
  split
  · next h =>
      have hi : (t i).kind ≠ .eof := by
        intro heof
        rw [heof] at h
        cases h
      refine .advance hi (.since (Nat.le_succ i) fun span hspan => .pure (hsome ?_ (.inl ?_)))
      · exact hspan.on.leaf rfl trivial trivial
      · exact bearsSuffix_of_form fun h => by cases h
  · split
    · exact namedType_moves.bind fun j n _ hn =>
        .pure (hsome hn.1 (.inl (bearsSuffix_of_form hn.2)))
    · next h =>
        refine .advance (by rw [h]; decide) ((hg.type _).bind fun j e hij he => ?_)
        refine .expect (by decide) fun k hjk => .since (by omega) fun span hspan => ?_
        have hparts : t.Lays .listType i k [(.element, e)] :=
          (Tokens.Lays.one (Nat.le_succ i) rfl he).mono hjk
        refine .pure (hsome ?_ (.inl (bearsSuffix_of_form fun h => by cases h)))
        exact hparts.takes hspan.on rfl (hparts.filling.areTypes rfl) trivial
    · next h =>
        refine .advance (by rw [h]; decide) (.expect (by decide) fun j hij => ?_)
        refine (commaList_lines hg.type j).bind fun k ps hjk hps => ?_
        refine .expect (by decide) fun l hkl => (hg.typeAtom l).bind fun m res hlm hres => ?_
        refine .since (by omega) fun span hspan => .pure ?_
        have hparts : t.Lays .funcType i m (several .param ps ++ [(.result, res)]) :=
          .append (.several rfl (hps.mono (by omega) (Nat.le_refl k))) (.one hkl rfl hres.1)
        refine hsome (hparts.takes hspan.on rfl (hparts.filling.areTypes rfl) trivial) ?_
        refine hres.2.imp_left fun hbad _ => ⟨res, ?_, hbad⟩
        rw [Node.of, Node.parts, Parts.toList_ofList]
        simp
    · exact .pure ⟨fun _ => rfl, by simp⟩

/-- One more pair of brackets, or the end of the type. -/
theorem typeSuffix_moves (hg : g.Takes t) {a : Nat} {n : Node} (hn : n.Takes t .type i a)
    (hbears : n.BearsSuffix ∨ (t a).kind ≠ .lbracket) :
    Moves t a (typeSuffix g (t i) n) fun j x => x.value.Takes t .type i j ∧
      match x with
      | .done _ => (t j).kind ≠ .lbracket
      | .yield m => m.BearsSuffix := by
  have hle := hn.le
  refine .accept (by decide) (fun hlb => ?_) fun hnone => .pure ⟨hn, hnone⟩
  have hbears : n.BearsSuffix := hbears.resolve_right fun hne => hne hlb
  refine .accept (by decide) (fun _ => ?_) fun _ => ?_
  · refine .since (by omega) fun span hspan => .pure ⟨?_, bearsSuffix_of_form fun h => by cases h⟩
    have hparts : t.Lays .arrayType i (a + 1 + 1) [(.element, n)] :=
      (Tokens.Lays.one (Nat.le_refl i) rfl hn).mono (by omega)
    refine hparts.takes hspan.on rfl ?_ trivial
    simpa [Form.Requires] using ⟨hn.isA.belongs, hbears⟩
  · refine (hg.type _).bind fun j key haj hkey => .expect (by decide) fun k hjk => ?_
    refine .since (by omega) fun span hspan => .pure ⟨?_, bearsSuffix_of_form fun h => by cases h⟩
    have hparts : t.Lays .mapType i k [(.value, n), (.key, key)] :=
      .cons (Nat.le_refl i) rfl hn (.cons (Nat.le_succ a) rfl hkey (.nil hjk))
    refine hparts.takes hspan.on rfl ?_ trivial
    simpa [Form.Requires] using ⟨⟨hn.isA.belongs, hbears⟩, hkey.isA.belongs⟩

theorem typeAtom_moves (hg : g.Takes t) (i : Nat) :
    Moves t i (typeAtom g) fun j n => n.Takes t .type i j ∧ t.Closes j n := by
  refine .current ((typeStem_moves hg).bind fun j stem _ hstem => ?_)
  split
  · obtain rfl := hstem.1 rfl
    have hform : Form.badType.BelongsTo .type := rfl
    exact (placeholder_moves hform trivial fun _ => trivial).mono
      fun k n _ hn => ⟨hn.1.takes, .inl hn.2⟩
  · next stem =>
      refine .iterateTo (fun k n => n.Takes t .type i k ∧
        (n.BearsSuffix ∨ (t k).kind ≠ .lbracket)) (hstem.2 stem rfl) fun k n _ hn => ?_
      refine (typeSuffix_moves hg hn.1 hn.2).mono ?_
      rintro l (m | m) - ⟨hm, hnext⟩
      · exact ⟨hm, .inr hnext⟩
      · exact ⟨hm, .inl hnext⟩

theorem typeAtom_takes (hg : g.Takes t) : Read.Takes t .type (typeAtom g) :=
  fun i => (typeAtom_moves hg i).mono fun _ _ _ h => h.1

theorem type_takes (hg : g.Takes t) : Read.Takes t .type (type g) := by
  refine fun i => (typeAtom_takes hg i).bind fun j first _ hfirst => .check ?_
  split
  · refine (separated_moves (by decide) (typeAtom_takes hg) hfirst).bind fun k types _ h => ?_
    obtain ⟨hrow, b, hib, hlast⟩ := h
    have hparts : t.Lays .intersectionType i k (several .constituent types) := .several rfl hrow
    refine .pure (hparts.takes ?_ rfl (hparts.filling.areTypes rfl) trivial)
    exact .between hfirst.on.span_on hlast.on.span_on hib
  · exact .pure hfirst

theorem asType_moves (hg : g.Takes t) :
    Moves t i (asType g) fun j n => t.Row .type i j n.toList :=
  behind_moves (by decide) (type_takes hg)

/-! ## Expressions -/

theorem param_takes (hg : g.Takes t) : Read.Takes t .param (param g) := by
  refine fun i => .current ((identifier_takes i).bind fun j name hij hname => ?_)
  refine (asType_moves hg).bind fun k type hjk htype => ?_
  refine (behind_moves (by decide) hg.ternary).bind fun l fallback hkl hfallback => ?_
  refine .node ?_ rfl trivial trivial
  exact ((Tokens.Lays.one (Nat.le_refl i) rfl hname).append (.optional rfl htype)).append
    (.optional rfl hfallback)

theorem paramList_lines (hg : g.Takes t) : Lines t .param (paramList g) := by
  refine fun i => .expect (by decide) fun j hij => ?_
  refine (commaList_lines (param_takes hg) j).bind fun k ps _ hps => ?_
  exact .expect (by decide) fun l hkl => .pure (hps.mono hij hkl)

theorem block_takes (hg : g.Takes t) : Read.Takes t .block (block g) := by
  refine fun i => .expect (by decide) fun j hij => ?_
  refine (untilBrace_lines hg.statement j).bind fun k stmts hjk hstmts => ?_
  refine .expect (by decide) fun l hkl => ?_
  exact .node (.several rfl (hstmts.mono hij hkl)) rfl trivial trivial

theorem arrayElements_lines (hg : g.Takes t) : Lines t .expression (arrayElements g) := by
  refine fun i => .check ?_
  split
  · exact .pure (.nil (Nat.le_refl i))
  · refine (hg.expression i).bind fun j head _ hhead => ?_
    refine .iterate _ (.one hhead (Nat.le_refl i)) fun k es _ hes => ?_
    refine .accept (by decide) (fun _ => .check ?_) fun _ => .pure hes
    split
    · exact .pure (hes.mono (Nat.le_refl i) (Nat.le_succ k))
    · refine (hg.expression _).bind fun l e _ he => .pure ?_
      exact hes.append (.one he (Nat.le_succ k))

/-- An expression that ends with the token passed last. -/
theorem fills_moves {form : Form} {parts : List (Role × Node)} {a : Nat} (hlt : i < a)
    (h : t.Lays form i a parts) (hform : form.BelongsTo .expression)
    (hrequires : form.Requires parts) (hjoins : form.Joins t i a (.ofList parts)) :
    Moves t a (do return Node.of form (← Read.spanSince (t i)) parts)
      (FillsOrResumes t .expression i) :=
  .since (Nat.le_of_lt hlt) fun _ hspan =>
    .pure ⟨h.takes hspan.on hform hrequires hjoins, .inl ⟨hlt, hspan.eq⟩⟩

theorem fillsLeaf_moves {form : Form} {a : Nat} (hlt : i < a) (hform : form.BelongsTo .expression)
    (hrequires : form.Requires []) (hjoins : form.Joins t i a .nil) :
    Moves t a (do return Node.leaf form (← Read.spanSince (t i)))
      (FillsOrResumes t .expression i) :=
  .since (Nat.le_of_lt hlt) fun _ hspan =>
    .pure ⟨hspan.on.leaf hform hrequires hjoins, .inl ⟨hlt, hspan.eq⟩⟩

theorem arrayLit_moves (hg : g.Takes t) (h : (t i).kind = .lbracket) :
    Moves t i (arrayLit g) (FillsOrResumes t .expression i) := by
  refine .expected (by decide) h ((arrayElements_lines hg _).bind fun j es hij hes => ?_)
  refine .expect (by decide) fun k hjk => fills_moves (by omega) ?_ ⟨rfl, nofun⟩ trivial trivial
  exact .several rfl (hes.mono (Nat.le_succ i) hjk)

theorem mapEntry_takes (hg : g.Takes t) : Read.Takes t .entry (mapEntry g) := by
  refine fun i => (hg.ternary i).bind fun j key _ hkey => .expect (by decide) fun k hjk => ?_
  exact (hg.ternary k).bind fun l value _ hvalue =>
    .pure (.pair hjk rfl hkey rfl hvalue rfl trivial trivial)

theorem mapLit_moves (hg : g.Takes t) (h : (t i).kind = .lbrace) :
    Moves t i (mapLit g) (FillsOrResumes t .expression i) := by
  refine .expected (by decide) h ?_
  refine (commaList_lines (mapEntry_takes hg) _).bind fun j es hij hes => ?_
  refine .expect (by decide) fun k hjk => fills_moves (by omega) ?_ ⟨rfl, nofun⟩ trivial trivial
  exact .several rfl (hes.mono (Nat.le_succ i) hjk)

theorem funcLit_moves (hg : g.Takes t) (h : (t i).kind = .kwFunction) :
    Moves t i (funcLit g) (FillsOrResumes t .expression i) := by
  refine .expected (by decide) h ((paramList_lines hg _).bind fun j ps hij hps => ?_)
  refine (asType_moves hg).bind fun k result hjk hresult => ?_
  refine (block_takes hg k).bind fun l body hkl hbody => ?_
  refine fills_moves (by omega) ?_ ⟨rfl, nofun⟩ trivial trivial
  exact ((Tokens.Lays.several rfl (hps.mono (Nat.le_succ i) (Nat.le_refl j))).append
    (.optional rfl hresult)).append (.one (Nat.le_refl k) rfl hbody)

theorem bracketHandler_moves (h : (t i).kind = .less) :
    Moves t i bracketHandler (FillsOrResumes t .expression i) := by
  refine .expected (by decide) h ((iterate_moves fun j raw => .check (.check (.check ?_))).bind ?_)
  · split
    · exact .pure trivial
    · next h =>
        refine .advance (fun heof => ?_) (.pure trivial)
        rw [heof] at h
        simp at h
  · intro j raw hij _
    refine .expect (by decide) fun k hjk => ?_
    exact fillsLeaf_moves (by omega) ⟨rfl, nofun⟩ trivial trivial

/-- An expression of one token. -/
theorem leaf_moves {form : Form} (hi : (t i).kind ≠ .eof) (hform : form.BelongsTo .expression)
    (hrequires : form.Requires []) (hjoins : form.Joins t i (i + 1) .nil) :
    Moves t i (do let _ ← Read.advance; return Node.leaf form (← Read.spanSince (t i)))
      (FillsOrResumes t .expression i) :=
  .advance hi (fillsLeaf_moves (Nat.lt_succ_self i) hform hrequires hjoins)

theorem primary_moves (hg : g.Takes t) :
    Moves t i (primary g) (FillsOrResumes t .expression i) := by
  refine .current ?_
  split
  case _ h | _ h | _ h | _ h | _ h | _ h | _ h | _ h =>
    exact leaf_moves (by rw [h]; decide) ⟨rfl, nofun⟩ trivial trivial
  · next h =>
      refine leaf_moves (by rw [h]; decide) ⟨rfl, fun w hw => ?_⟩ trivial trivial
      cases hw
      exact Tokens.spells h (by decide)
  · next h => exact leaf_moves (by rw [h]; decide) ⟨rfl, nofun⟩ trivial trivial
  · next h =>
      refine .advance (by rw [h]; decide) ((hg.expression _).bind fun j inner hij hinner => ?_)
      refine .expect (by decide) fun k hjk => fills_moves (by omega) ?_ ⟨rfl, nofun⟩ trivial trivial
      exact (Tokens.Lays.one (Nat.le_succ i) rfl hinner).mono hjk
  · next h => exact arrayLit_moves hg h
  · next h => exact mapLit_moves hg h
  · next h => exact funcLit_moves hg h
  · next h => exact bracketHandler_moves h
  · have hform : Form.badExpr.BelongsTo .expression := ⟨rfl, nofun⟩
    exact (placeholder_moves hform trivial fun _ => trivial).mono fun _ _ _ hn => hn.1

theorem arguments_lines (hg : g.Takes t) : Lines t .expression (arguments g) := by
  refine fun i => .check ?_
  split
  · exact .pure (.nil (Nat.le_refl i))
  · refine (hg.expression i).bind fun j head _ hhead => ?_
    exact (separated_moves (by decide) hg.expression hhead).mono fun _ _ _ h => h.1

/-- Whether its name is there or not, an access ends with the token passed last. -/
theorem memberAccess_moves {start receiver : Node} {d : Nat}
    (hstart : start.span.start = (t i).place) (hreceiver : receiver.Takes t .expression i d)
    (hfills : receiver.Fills t i d) (hdot : (t d).kind = .dot) :
    Moves t (d + 1) (memberAccess start receiver) (FillsOrResumes t .expression i) := by
  refine memberName_moves.bind fun j name hdj hname => ?_
  have hid := hfills.lt
  have haccess : t.Access i d j receiver name := by
    refine ⟨hid, hdot, fun hlegal => ?_, hname⟩
    rw [hfills.span_eq hlegal, Tokens.span_of_lt hid]
  have hnode : FillsOrResumes t .expression i j
      (Node.of .memberExpr ⟨start.span.start, (t (j - 1)).stop⟩
        [(.operand, receiver), (.name, name)]) := by
    rw [hstart, ← Tokens.span_of_lt (show i < j by omega)]
    refine ⟨Tokens.Lays.takes ?_ (.span (by omega)) ⟨rfl, nofun⟩ trivial
      ⟨d, receiver, name, rfl, haccess⟩, .inl ⟨by omega, fun _ => rfl⟩⟩
    exact .cons (Nat.le_refl i) rfl hreceiver (.one (Nat.le_succ d) rfl hname.takes)
  cases hname with
  | missing => exact .previous (.pure hnode)
  | word h =>
      have hne : (t (d + 1)).literal ≠ [] :=
        Tokens.literal_ne_nil (Tokens.lt_of_kind_ne h.ne_eof) h.ne_illegal
      have hstop : (t.span (d + 1) (d + 1 + 1)).stop = (t (d + 1)).stop := by
        rw [Tokens.span_of_lt (Nat.lt_succ_self _)]
        rfl
      rw [if_neg (by exact hne)]
      refine .pure (show FillsOrResumes t _ i _ (.of _ ⟨_, (t.span (d + 1) _).stop⟩ _) from ?_)
      rw [hstop]
      exact hnode

theorem suffix_moves (hg : g.Takes t) {start e : Node} {a : Nat}
    (hstart : start.span.start = (t i).place) (he : FillsOrResumes t .expression i a e) :
    Moves t a (suffix g start e) fun j x => FillsOrResumes t .expression i j x.value := by
  have hle := he.takes.le
  refine .accept (by decide) (fun hdot => ?_) fun _ => ?_
  · exact (memberAccess_moves hstart he.takes (he.fills_of_kind hdot rfl) hdot).bind
      fun j n _ hn => .pure hn
  refine .accept (by decide) (fun _ => ?_) fun _ => ?_
  · refine (hg.expression _).bind fun j index haj hindex => .expect (by decide) fun k hjk => ?_
    refine .sinceNode hstart (by omega) fun span hspan => .pure ⟨?_, .inl ⟨by omega, hspan.eq⟩⟩
    refine Tokens.Lays.takes ?_ hspan.on ⟨rfl, nofun⟩ trivial trivial
    exact .cons (Nat.le_refl i) rfl he.takes (.cons (Nat.le_succ a) rfl hindex (.nil hjk))
  refine .accept (by decide) (fun _ => ?_) fun _ => .pure he
  refine (arguments_lines hg _).bind fun j args haj hargs => .expect (by decide) fun k hjk => ?_
  refine .sinceNode hstart (by omega) fun span hspan => .pure ⟨?_, .inl ⟨by omega, hspan.eq⟩⟩
  refine Tokens.Lays.takes ?_ hspan.on ⟨rfl, nofun⟩ trivial trivial
  exact (Tokens.Lays.one (Nat.le_refl i) rfl he.takes).append
    (.several rfl (hargs.mono (Nat.le_succ a) hjk))

theorem cast_takes (hg : g.Takes t) : Read.Takes t .expression (cast g) := by
  have hsuffixed (i : Nat) : Moves t i (suffixed g) (FillsOrResumes t .expression i) := by
    refine (primary_moves hg).bind fun j start _ hstart => .iterate _ hstart fun k e _ he => ?_
    exact suffix_moves hg hstart.takes.on.span_on.start_eq he
  refine fun i => (hsuffixed i).bind fun j e _ he => .iterate _ he.takes fun k e _ he => ?_
  refine .accept (by decide) (fun _ => ?_) fun _ => .pure he
  refine (typeAtom_takes hg _).bind fun l type _ htype => .pure ?_
  exact .pair (Nat.le_succ k) rfl he rfl htype ⟨rfl, nofun⟩ trivial trivial

theorem unary_takes (hg : g.Takes t) : Read.Takes t .expression (unary g) := by
  refine fun i => .current ?_
  split
  case _ h | _ h | _ h =>
    refine .advance (by rw [h]; decide) ((hg.unary _).bind fun j operand hij hoperand => ?_)
    exact .node (.one (Nat.le_succ i) rfl hoperand) ⟨rfl, nofun⟩ trivial trivial
  · exact cast_takes hg i

theorem binaryAfter_moves (hg : g.Takes t) {left : Node} {op : Token.Kind} {j : Nat}
    (hleft : left.Takes t .expression i j) :
    Moves t (j + 1) (binaryAfter g left op) fun k n => n.Takes t .expression i k := by
  rw [binaryAfter]
  split
  · refine (typeAtom_takes hg _).bind fun k type _ htype => .pure ?_
    exact .pair (Nat.le_succ j) rfl hleft rfl htype ⟨rfl, nofun⟩ trivial trivial
  · refine (hg.binary _ _).bind fun k right _ hright => ?_
    split <;> exact .pure (.pair (Nat.le_succ j) rfl hleft rfl hright ⟨rfl, nofun⟩ trivial trivial)

theorem binary_takes (hg : g.Takes t) (least : Nat) :
    Read.Takes t .expression (binary g least) := by
  refine fun i => (unary_takes hg i).bind fun j left _ hleft => ?_
  refine .iterate _ hleft fun k left _ hleft => .current ?_
  extract_lets op
  split
  · exact .pure hleft
  · next h =>
      refine .advance (fun heof => h (.inl ?_)) ?_
      · rw [show op = .eof from heof]
        rfl
      · exact (binaryAfter_moves hg hleft).bind fun l n _ hn => .pure hn

theorem ternary_takes (hg : g.Takes t) : Read.Takes t .expression (ternary g) := by
  refine fun i => (binary_takes hg 1 i).bind fun j condition hij hcondition => ?_
  refine .accept (by decide) (fun _ => ?_) fun _ => .pure hcondition
  refine (hg.ternary _).bind fun k yes hjk hyes => .expect (by decide) fun l hkl => ?_
  refine (hg.ternary l).bind fun m no hlm hno => .pure (Tokens.Lays.takes ?_
    (.between hcondition.on.span_on hno.on.span_on (by omega)) ⟨rfl, nofun⟩ trivial trivial)
  exact .cons (Nat.le_refl i) rfl hcondition (.cons (Nat.le_succ j) rfl hyes (.one hkl rfl hno))

theorem expression_takes (hg : g.Takes t) : Read.Takes t .expression (expression g) := by
  refine fun i => (ternary_takes hg i).bind fun j left _ hleft => .current ?_
  extract_lets op
  split
  · next h =>
      refine .advance (fun heof => ?_) ((hg.expression _).bind fun k right _ hright => ?_)
      · rw [show op = .eof from heof] at h
        cases h
      · exact .pure (.pair (Nat.le_succ j) rfl hleft rfl hright ⟨rfl, nofun⟩ trivial trivial)
  · exact .pure hleft

/-! ## Statements and declarations -/

theorem badStatement_moves {a : Nat} (h : i ≤ a) (hc : Form.badStmt.BelongsTo c) :
    Moves t a (badStatement (t i)) fun j n => n.Takes t c i j :=
  .leaf h hc trivial trivial

theorem importDecl_takes : Read.Takes t .importing importDecl := by
  have hpath (i : Nat) : Moves t i importPath fun _ _ => True := by
    refine .expect (by decide) fun j _ => ?_
    split
    · refine iterate_moves fun k path => ?_
      refine .accept (by decide) (fun _ => ?_) fun _ => .pure trivial
      exact memberName_moves.bind fun _ _ _ _ => .pure trivial
    · exact .pure trivial
  refine fun i => .expect (by decide) fun j hij => (hpath j).bind fun k path hjk _ => ?_
  refine (behind_moves (by decide) identifier_takes).bind fun l name hkl hname => ?_
  refine .expect (by decide) fun m hlm => .node ?_ ⟨path, rfl⟩ trivial trivial
  exact .optional rfl (hname.mono (by omega) hlm)

/-- Variables are statements, and fields of classes. -/
theorem varDecl_moves (hg : g.Takes t) (hi : (t i).kind ≠ .eof)
    (hc : ∀ keyword, (Form.varDecl keyword).BelongsTo c) :
    Moves t i (varDecl g) fun j n => n.Takes t c i j := by
  refine .advance hi ((identifier_takes _).bind fun j name hij hname => ?_)
  refine (asType_moves hg).bind fun k type hjk htype => ?_
  refine (behind_moves (by decide) (expression_takes hg)).bind fun l value hkl hvalue => ?_
  refine .expect (by decide) fun m hlm => .node (Tokens.Lays.mono ?_ hlm) (hc _) trivial trivial
  exact ((Tokens.Lays.one (Nat.le_succ i) rfl hname).append (.optional rfl htype)).append
    (.optional rfl hvalue)

theorem optionalBody_moves (hg : g.Takes t) :
    Moves t i (optionalBody g) fun j n => t.Row .block i j n.toList := by
  refine .check ?_
  split
  · exact (block_takes hg i).bind fun j n _ hn => .pure (.one hn (Nat.le_refl i))
  · exact .expect (by decide) fun j hij => .pure (.nil hij)

/-- The parts that all declared functions have in common. -/
theorem executable_moves (hg : g.Takes t) (form : Form) (hparam : form.admits .param = true)
    (hresult : form.admits .result = true) (hbody : form.admits .body = true)
    (hexpects : form.expects .param = .param) :
    Moves t i (executable g) fun j parts => t.Lays form i j parts := by
  refine (paramList_lines hg i).bind fun j ps _ hps => ?_
  refine (asType_moves hg).bind fun k result _ hresults => ?_
  refine (optionalBody_moves hg).bind fun l body _ hbodies => .pure ?_
  rw [← hexpects] at hps
  exact ((Tokens.Lays.several hparam hps).append (.optional hresult hresults)).append
    (.optional hbody hbodies)

theorem funcDecl_moves (hg : g.Takes t) (hc : ∀ isStatic, (Form.funcDecl isStatic).BelongsTo c) :
    Moves t i (funcDecl g) fun j n => n.Takes t c i j := by
  refine .current (.accepting (by decide) fun j isStatic hij => ?_)
  refine .expect (by decide) fun k hjk => (identifier_takes k).bind fun l name hkl hname => ?_
  refine (executable_moves hg (.funcDecl isStatic) rfl rfl rfl rfl).bind fun m rest hlm hrest => ?_
  exact .node (.cons (by omega) rfl hname hrest) (hc isStatic) trivial trivial

theorem expandFuncDecl_takes (hg : g.Takes t) : Read.Takes t .statement (expandFuncDecl g) := by
  refine fun i => .expect (by decide) fun j hij => .accept (by decide) (fun _ => ?_) fun _ => ?_
  · refine (type_takes hg _).bind fun k target hjk htarget => .expect (by decide) fun l hkl => ?_
    refine (identifier_takes l).bind fun m name hlm hname => ?_
    refine (executable_moves hg .expandFuncDecl rfl rfl rfl rfl).bind fun q rest hmq hrest => ?_
    refine .node ?_ rfl ⟨target, _, rfl, htarget.isA.belongs⟩ trivial
    exact .cons (by omega) rfl htarget (.cons hkl rfl hname hrest)
  · refine .current (.fail (.synchronize fun k hjk => ?_))
    exact badStatement_moves (Nat.le_trans hij hjk) rfl

theorem constructorDecl_takes (hg : g.Takes t) : Read.Takes t .member (constructorDecl g) := by
  refine fun i => .expect (by decide) fun j hij => ?_
  refine (paramList_lines hg j).bind fun k ps hjk hps => ?_
  refine (optionalBody_moves hg).bind fun l body hkl hbody => .node ?_ rfl trivial trivial
  exact (Tokens.Lays.several rfl (hps.mono hij (Nat.le_refl k))).append (.optional rfl hbody)

theorem operatorSign_moves : Moves t i operatorSign fun _ _ => True := by
  refine .current ?_
  split
  · next h =>
      refine .advance (by rw [h]; decide) (.expect (by decide) fun j _ => ?_)
      exact .accepting (by decide) fun _ b _ => by cases b <;> exact .pure trivial
  · split
    · next h =>
        refine .advance (by rw [h]; decide) (.accepting (by decide) fun _ b _ => ?_)
        cases b <;> exact .pure trivial
    · split
      · next h =>
          refine .advance (fun heof => ?_) (.pure trivial)
          rw [heof] at h
          cases h
      · exact .fail (.pure trivial)

theorem operatorDecl_takes (hg : g.Takes t) : Read.Takes t .member (operatorDecl g) := by
  refine fun i => .expect (by decide) fun j hij => operatorSign_moves.bind fun k sign hjk _ => ?_
  refine (executable_moves hg (.operatorDecl sign) rfl rfl rfl rfl).bind fun l rest hkl hrest => ?_
  exact .node (Runs.mono hrest (by omega) (Nat.le_refl l)) rfl trivial trivial

/-- A rule that always gives a node. -/
theorem some_moves {m : Read Node} {a : Nat} (h : Moves t a m fun j n => n.Takes t c i j) :
    Moves t a (do return some (← m)) fun j n => ∀ x ∈ n, x.Takes t c i j :=
  h.bind fun _ _ _ hn => .pure (by simpa using hn)

theorem classMember_mayTake (hg : g.Takes t) : MayTake t .member (classMember g) := by
  refine fun i => .current ?_
  split
  · next h => exact some_moves (varDecl_moves hg (by rw [h]; decide) fun _ => rfl)
  · next h => exact some_moves (varDecl_moves hg (by rw [h]; decide) fun _ => rfl)
  · next h =>
      refine .peek ?_
      split
      · exact some_moves (funcDecl_moves hg fun _ => rfl)
      · exact some_moves (varDecl_moves hg (by rw [h]; decide) fun _ => rfl)
  · exact some_moves (funcDecl_moves hg fun _ => rfl)
  · exact some_moves (constructorDecl_takes hg i)
  · exact some_moves (operatorDecl_takes hg i)
  · next h => exact .advance (by rw [h]; decide) (.pure (by simp))
  · exact .fail (.synchronize fun j hij => some_moves (badStatement_moves hij rfl))

theorem className_takes : Read.Takes t .className className := by
  refine fun i => .current ?_
  split
  · next h =>
      have hfixed := Token.Kind.isFixed_of_isKeyword (Token.Kind.isKeyword_of_isPrimitive h)
      have hi := Token.Kind.ne_eof_of_isFixed hfixed
      exact .advance hi (.leaf (Nat.le_succ i)
        ⟨_, rfl, .inr ⟨_, h, (Tokens.spells rfl hi).fixed hfixed⟩⟩ trivial trivial)
  · refine (identifier_takes i).mono fun j n _ hn => ?_
    obtain ⟨w, hw, hgiven⟩ := hn.isA.belongs
    exact ⟨hn.on, { hn.isA with belongs := ⟨w, hw, .inl hgiven⟩ }⟩

theorem superTypes_lines : Lines t .type superTypes := by
  refine fun i => .accept (by decide) (fun _ => ?_) fun _ => .pure (.nil (Nat.le_refl i))
  refine (namedType_takes _).bind fun j head _ hhead => ?_
  refine (separated_moves (by decide) namedType_takes hhead).mono fun k ns _ h => ?_
  exact h.1.mono (Nat.le_succ i) (Nat.le_refl k)

theorem classDecl_takes (hg : g.Takes t) : Read.Takes t .statement (classDecl g) := by
  refine fun i => .expect (by decide) fun j hij => ?_
  refine (className_takes j).bind fun k name hjk hname => ?_
  refine (superTypes_lines k).bind fun l supers hkl hsupers => .expect (by decide) fun m hlm => ?_
  refine (untilBrace_lines (classMember_mayTake hg) m).bind fun q members hmq hmembers => ?_
  refine .expect (by decide) fun r hqr => .node ?_ rfl trivial trivial
  exact ((Tokens.Lays.one hij rfl hname).append (.several rfl hsupers)).append
    (.several rfl (hmembers.mono hlm hqr))

theorem returnStmt_takes (hg : g.Takes t) : Read.Takes t .statement (returnStmt g) := by
  have hvalue (i : Nat) : Moves t i (returnValue g) fun j n => t.Row .expression i j n.toList := by
    refine .check (.check ?_)
    split
    · exact .pure (.nil (Nat.le_refl i))
    · exact (expression_takes hg i).bind fun j n _ hn => .pure (.one hn (Nat.le_refl i))
  refine fun i => .expect (by decide) fun j hij => (hvalue j).bind fun k value hjk hvalue => ?_
  refine .expect (by decide) fun l hkl => .node ?_ rfl trivial trivial
  exact .optional rfl (hvalue.mono hij hkl)

theorem branch_takes (hg : g.Takes t) : Read.Takes t .statement (branch g) := by
  refine fun i => .current ((hg.statement i).bind fun j n hij hn => ?_)
  split
  · next s => exact .pure (hn s rfl)
  · exact .leaf hij rfl trivial trivial

theorem ifStmt_takes (hg : g.Takes t) : Read.Takes t .statement (ifStmt g) := by
  refine fun i => .expect (by decide) fun j hij => ?_
  refine (expression_takes hg j).bind fun k condition hjk hcondition => ?_
  refine (branch_takes hg k).bind fun l yes hkl hyes => ?_
  refine (behind_moves (by decide) (branch_takes hg)).bind fun m no hlm hno => ?_
  refine .node ?_ rfl trivial trivial
  exact .cons hij rfl hcondition (.cons (Nat.le_refl k) rfl hyes (.optional rfl hno))

theorem foreachStmt_takes (hg : g.Takes t) : Read.Takes t .statement (foreachStmt g) := by
  refine fun i => .expect (by decide) fun j hij => ?_
  refine (identifier_takes j).bind fun k head hjk hhead => ?_
  refine (separated_moves (by decide) identifier_takes hhead).bind fun l vars hkl hvars => ?_
  refine .expect (by decide) fun m hlm => ?_
  refine (expression_takes hg m).bind fun q iterated hmq hiterated => ?_
  refine (block_takes hg q).bind fun r body hqr hbody => ?_
  have hparts : t.Lays .foreachStmt i r
      (several .loopVar vars ++ [(.iterated, iterated), (.body, body)]) :=
    .append (.several rfl (hvars.1.mono hij (Nat.le_refl l)))
      (.cons hlm rfl hiterated (.one (Nat.le_refl q) rfl hbody))
  refine .node hparts rfl (fun var hvar => ?_) trivial
  obtain ⟨w, hw, -⟩ := (hparts.filling _ hvar).2.belongs
  exact ⟨w, hw⟩

theorem whileStmt_takes (hg : g.Takes t) : Read.Takes t .statement (whileStmt g) := by
  refine fun i => .expect (by decide) fun j hij => ?_
  refine (expression_takes hg j).bind fun k condition hjk hcondition => ?_
  refine (block_takes hg k).bind fun l body hkl hbody => .node ?_ rfl trivial trivial
  exact .cons hij rfl hcondition (.one (Nat.le_refl k) rfl hbody)

theorem exprStmt_takes (hg : g.Takes t) : Read.Takes t .statement (exprStmt g) := by
  refine fun i => .current ((expression_takes hg i).bind fun j e hij he => ?_)
  refine .expect (by decide) fun k hjk => .node ?_ rfl trivial trivial
  exact (Tokens.Lays.one (Nat.le_refl i) rfl he).mono hjk

theorem keywordStmt_moves {form : Form} (hi : (t i).kind ≠ .eof)
    (hform : form.BelongsTo .statement) (hrequires : form.Requires [])
    (hjoins : ∀ j, form.Joins t i j .nil) :
    Moves t i (keywordStmt form) fun j n => n.Takes t .statement i j :=
  .advance hi (.expect (by decide) fun _ hij =>
    .leaf (Nat.le_of_succ_le hij) hform hrequires (hjoins _))

theorem statement_mayTake (hg : g.Takes t) : MayTake t .statement (statement g) := by
  have hbreak (i j : Nat) : Form.breakStmt.Joins t i j .nil := trivial
  have hcontinue (i j : Nat) : Form.continueStmt.Joins t i j .nil := trivial
  refine fun i => .current ?_
  split
  case _ h | _ h | _ h => exact some_moves (varDecl_moves hg (by rw [h]; decide) fun _ => rfl)
  · next h =>
      refine .peek ?_
      split
      · exact some_moves (funcDecl_moves hg fun _ => rfl)
      · exact some_moves (varDecl_moves hg (by rw [h]; decide) fun _ => rfl)
  · refine .peek ?_
    split
    · exact some_moves (funcDecl_moves hg fun _ => rfl)
    · exact some_moves (exprStmt_takes hg i)
  · exact some_moves (expandFuncDecl_takes hg i)
  · exact some_moves (classDecl_takes hg i)
  · refine some_moves ((block_takes hg i).mono fun j n _ hn =>
      ⟨hn.on, { hn.isA with belongs := ?_ }⟩)
    rw [show n.form = .block from hn.isA.belongs]
    rfl
  · exact some_moves (returnStmt_takes hg i)
  · exact some_moves (ifStmt_takes hg i)
  · exact some_moves (foreachStmt_takes hg i)
  · exact some_moves (whileStmt_takes hg i)
  · next h => exact some_moves (keywordStmt_moves (by rw [h]; decide) rfl trivial (hbreak i))
  · next h => exact some_moves (keywordStmt_moves (by rw [h]; decide) rfl trivial (hcontinue i))
  · next h => exact .advance (by rw [h]; decide) (.pure (by simp))
  · refine .fail ((importDecl_takes i).bind fun j _ hij _ => ?_)
    exact some_moves (badStatement_moves hij rfl)
  case _ h | _ h =>
    refine .fail (.advance (by rw [h]; decide) (.synchronize fun j hij => ?_))
    exact some_moves (badStatement_moves (Nat.le_of_succ_le hij) rfl)
  · exact some_moves (exprStmt_takes hg i)

end Rule

namespace Grammar

variable {t : Tokens}

theorem unfold_takes {g : Grammar} (hg : g.Takes t) : g.unfold.Takes t where
  type := Rule.type_takes hg
  typeAtom := Rule.typeAtom_moves hg
  expression := Rule.expression_takes hg
  ternary := Rule.ternary_takes hg
  binary := Rule.binary_takes hg
  unary := Rule.unary_takes hg
  statement := Rule.statement_mayTake hg

theorem upTo_takes (n : Nat) : (upTo n).Takes t := by
  induction n with
  | zero =>
      exact ⟨fun _ => .failure, fun _ => .failure, fun _ => .failure, fun _ => .failure,
        fun _ _ => .failure, fun _ => .failure, fun _ => .failure⟩
  | succ n ih => exact unfold_takes ih

end Grammar

end Zensight
