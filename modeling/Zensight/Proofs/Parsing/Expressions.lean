import Zensight.Proofs.Parsing.Types

/-!
# What the rules for expressions read
-/

namespace Zensight.Rule

open Read

variable {r : Reader} {g : Grammar} {n : Nat}

/-! ## Parameters and blocks -/

theorem param_sound (hg : g.Sound n) : Sound (n + 1) (param g) Phrase.param.One := by
  intro r ho hlen
  refine (Ends.current ?_).bind
  refine (identifier_ends ho).reads fun name s₁ ts h₁ hle₁ => ?_
  refine (asType_sound hg s₁ h₁.isOpen (by omega)).reads fun t s₂ us h₂ hle₂ => ?_
  refine (behind_ends rfl h₂.isOpen (by omega) hg.ternary).reads fun fallback s₃ vs h₃ _ => ?_
  refine .spanned ((h₁.trans h₂).trans h₃) ?_
  rintro ⟨⟨hname, ht⟩, hfallback⟩
  cases hname with | name hkind =>
  rw [optional_eq, optional_eq]
  exact ⟨by simp, .param hkind ht hfallback⟩

theorem paramList_sound (hg : g.Sound n) : Sound (n + 1) (paramList g) (Reads .params) := by
  intro r ho hlen
  refine (Ends.expectOpen ho (by decide) fun s₁ ts h₁ hle₁ _ => ?_).bind
  refine (commaList_sound (param_sound hg) s₁ h₁.isOpen (by omega)).reads
    fun params s₂ us h₂ _ => ?_
  refine (Ends.expectOpen h₂.isOpen (by decide) fun s₃ vs h₃ _ _ => ?_).bind
  refine .pure ⟨_, ((h₁.trans h₂).trans h₃).imp ?_⟩
  rintro ⟨⟨⟨rfl, hlp⟩, hparams⟩, rfl, hrp⟩
  exact .params hlp hparams hrp

/-- A block refers back to statements at once if its brace is missing, so it
takes one token less than other rules unless the brace is there. -/
theorem block_ends (hg : g.Sound n) (ho : r.Open)
    (hlen : r.ahead.length ≤ n ∨ r.current.kind = .lbrace ∧ r.ahead.length ≤ n + 1) :
    Ends (block g) r (Yields Phrase.block.One r) := by
  refine (Ends.expectOpen ho (by decide) fun s₁ ts h₁ hle₁ hbrace => ?_).bind
  have hlen₁ : s₁.ahead.length ≤ n := by
    rcases hlen with hlen | ⟨hkind, hlen⟩
    · omega
    · have hlt := hbrace hkind
      omega
  refine (untilBrace_sound (.inl rfl) hg.statement s₁ h₁.isOpen hlen₁).reads
    fun stmts s₂ us h₂ _ => ?_
  refine (Ends.expectOpen h₂.isOpen (by decide) fun s₃ vs h₃ _ _ => ?_).bind
  refine .spanned ((h₁.trans h₂).trans h₃) ?_
  rintro ⟨⟨⟨rfl, hlb⟩, hstmts⟩, rfl, hrb⟩
  exact ⟨by simp, .block hlb hstmts hrb⟩

/-! ## Expressions that no operator takes apart -/

theorem arrayElements_sound (hg : g.Sound n) :
    Sound n (arrayElements g) (Reads (.commas .expression)) := by
  intro r ho hlen
  refine (Ends.check ?_).bind
  split
  next => exact .pure ⟨[], (Reader.Leads.refl ho).imp fun _ => .commasNone⟩
  next =>
    refine (hg.expression r ho hlen).reads fun head s₁ ts h₁ _ => ?_
    refine Ends.iterate (Yields (Reads (.separated .comma .expression)) r)
      ⟨ts, h₁.imp .separatedOne⟩ ?_
    rintro elements s ⟨us, hus⟩
    have hle := hus.ahead_le
    refine (Ends.acceptOpen hus.isOpen (by decide) (fun comma s₂ h₂ hlt₂ => ?_) fun _ => ?_).bind
    · refine (Ends.check ?_).bind
      split
      next => exact .pure ⟨_, (hus.trans h₂).imp fun h => .commasTrailing h.1 h.2⟩
      next =>
        refine (hg.expression s₂ h₂.isOpen (by omega)).reads fun e s₃ vs h₃ hle₃ => ?_
        refine .pure ⟨⟨_, (hus.trans (h₂.trans h₃)).imp ?_⟩, by omega⟩
        exact fun h => .separatedMore h.1 h.2.1 rfl h.2.2
    · exact .pure ⟨us, hus.imp .commasSome⟩

theorem arrayLit_ends (hg : g.Sound n) (ho : r.Open) (hlen : r.ahead.length ≤ n + 1)
    (hkind : r.current.kind = .lbracket) : Ends (arrayLit g) r (Yields Phrase.primary.One r) := by
  refine (Ends.expectNext ho (by decide) hkind fun s₁ h₁ hlt₁ => ?_).bind
  refine (arrayElements_sound hg s₁ h₁.isOpen (by omega)).reads fun elements s₂ us h₂ _ => ?_
  refine (Ends.expectOpen h₂.isOpen (by decide) fun s₃ vs h₃ _ _ => ?_).bind
  refine .spanned ((h₁.trans h₂).trans h₃) ?_
  rintro ⟨⟨-, helements⟩, rfl, hrb⟩
  exact ⟨by simp, .arrayLit hkind helements hrb⟩

theorem mapEntry_sound (hg : g.Sound n) : Sound n (mapEntry g) Phrase.entry.One := by
  intro r ho hlen
  refine (hg.ternary r ho hlen).reads fun key s₁ ts h₁ hle₁ => ?_
  refine (Ends.expectOpen h₁.isOpen (by decide) fun s₂ us h₂ hle₂ _ => ?_).bind
  refine (hg.ternary s₂ h₂.isOpen (by omega)).reads fun value s₃ vs h₃ _ => ?_
  refine .pure ⟨_, (h₁.trans (h₂.trans h₃)).imp ?_⟩
  rintro ⟨hkey, ⟨rfl, hcolon⟩, hvalue⟩
  exact .entry hkey hcolon hvalue

theorem mapLit_ends (hg : g.Sound n) (ho : r.Open) (hlen : r.ahead.length ≤ n + 1)
    (hkind : r.current.kind = .lbrace) : Ends (mapLit g) r (Yields Phrase.primary.One r) := by
  refine (Ends.expectNext ho (by decide) hkind fun s₁ h₁ hlt₁ => ?_).bind
  refine (commaList_sound (mapEntry_sound hg) s₁ h₁.isOpen (by omega)).reads
    fun entries s₂ us h₂ _ => ?_
  refine (Ends.expectOpen h₂.isOpen (by decide) fun s₃ vs h₃ _ _ => ?_).bind
  refine .spanned ((h₁.trans h₂).trans h₃) ?_
  rintro ⟨⟨-, hentries⟩, rfl, hrb⟩
  exact ⟨by simp, .mapLit hkind hentries hrb⟩

theorem funcLit_ends (hg : g.Sound n) (ho : r.Open) (hlen : r.ahead.length ≤ n + 1)
    (hkind : r.current.kind = .kwFunction) :
    Ends (funcLit g) r (Yields Phrase.primary.One r) := by
  refine (Ends.expectNext ho (by decide) hkind fun s₁ h₁ hlt₁ => ?_).bind
  refine (paramList_sound hg s₁ h₁.isOpen (by omega)).reads fun params s₂ ts h₂ hle₂ => ?_
  refine (asType_sound hg s₂ h₂.isOpen (by omega)).reads fun result s₃ us h₃ hle₃ => ?_
  refine (block_ends hg h₃.isOpen (.inl (by omega))).reads fun body s₄ vs h₄ _ => ?_
  refine .spanned (((h₁.trans h₂).trans h₃).trans h₄) ?_
  rintro ⟨⟨⟨-, hparams⟩, hresult⟩, hbody⟩
  rw [optional_eq]
  exact ⟨by simp, .funcLit hkind hparams hresult hbody⟩

theorem bracketHandler_ends (ho : r.Open) (hkind : r.current.kind = .less) :
    Ends bracketHandler r (Yields Phrase.primary.One r) := by
  refine (Ends.expectNext ho (by decide) hkind fun s₁ h₁ _ => ?_).bind
  let raw (ts : List Token) (text : Text) : Prop :=
    text = ts.flatMap (·.literal) ∧ ∀ t ∈ ts, t.kind.endsHandler = false
  refine (Ends.iterate (Q := Yields raw s₁) (Yields raw s₁)
    ⟨[], (Reader.Leads.refl h₁.isOpen).imp fun _ => ⟨rfl, by simp⟩⟩ ?_).andThen ?_
  · rintro text s ⟨ts, hs⟩
    refine (Ends.check ?_).bind
    refine (Ends.check ?_).bind
    refine (Ends.check ?_).bind
    split
    next => exact .pure ⟨ts, hs⟩
    next hgo =>
      simp only [Bool.or_eq_true, beq_iff_eq, not_or] at hgo
      obtain ⟨⟨hgreater, heof⟩, hsemi⟩ := hgo
      refine (Ends.pass hs.isOpen heof fun s₂ h₂ _ => ?_).bind
      refine .pure ⟨⟨_, (hs.trans h₂).imp ?_⟩, h₂.ahead_lt⟩
      rintro ⟨⟨rfl, hts⟩, -⟩
      refine ⟨by simp, fun t ht => ?_⟩
      rcases List.mem_append.mp ht with ht | ht
      · exact hts t ht
      · rw [List.mem_singleton.mp ht]
        exact Token.Kind.endsHandler_eq_false hgreater heof hsemi
  · rintro text s₂ ⟨ts, h₂⟩
    refine (Ends.expectOpen h₂.isOpen (by decide) fun s₃ vs h₃ _ _ => ?_).bind
    refine .spanned ((h₁.trans h₂).trans h₃) ?_
    rintro ⟨⟨-, rfl, hts⟩, rfl, hgreater⟩
    exact ⟨by simp, .handler hkind hts hgreater⟩

theorem primary_sound (hg : g.Sound n) : Sound (n + 1) (primary g) Phrase.primary.One := by
  intro r ho hlen
  refine (Ends.current ?_).bind
  split
  iterate 8
    next hkind =>
      refine (Ends.pass ho (by rw [hkind]; decide) fun s hs _ => ?_).bind
      exact .spanned hs fun _ => ⟨by simp, .literal (by rw [hkind]; rfl)⟩
  next hkind =>
    refine (Ends.pass ho (by rw [hkind]; decide) fun s hs _ => ?_).bind
    exact .spanned hs fun _ => ⟨by simp, .ident hkind⟩
  next hkind =>
    refine (Ends.pass ho (by rw [hkind]; decide) fun s hs _ => ?_).bind
    exact .spanned hs fun _ => ⟨by simp, .this hkind⟩
  next hkind =>
    refine (Ends.pass ho (by rw [hkind]; decide) fun s₁ h₁ hlt₁ => ?_).bind
    refine (hg.expression s₁ h₁.isOpen (by omega)).reads fun inner s₂ us h₂ _ => ?_
    refine (Ends.expectOpen h₂.isOpen (by decide) fun s₃ vs h₃ _ _ => ?_).bind
    refine .spanned ((h₁.trans h₂).trans h₃) ?_
    rintro ⟨⟨-, hinner⟩, rfl, hrp⟩
    exact ⟨by simp, .paren hkind hinner hrp⟩
  next hkind => exact arrayLit_ends hg ho hlen hkind
  next hkind => exact mapLit_ends hg ho hlen hkind
  next hkind => exact funcLit_ends hg ho hlen hkind
  next hkind => exact bracketHandler_ends ho hkind
  next => exact placeholder_ends ho

/-! ## Expressions that operators build -/

theorem arguments_ends (hg : g.Sound n) (ho : r.Open) (hlen : r.ahead.length ≤ n) :
    Ends (arguments g) r (Yields (fun ts args => ts = [] ∧ args = [] ∨
      Reads (.separated .comma .expression) ts args) r) := by
  refine (Ends.check ?_).bind
  split
  next => exact .pure ⟨[], (Reader.Leads.refl ho).imp fun _ => .inl ⟨rfl, rfl⟩⟩
  next =>
    refine (hg.expression r ho hlen).reads fun head s ts hs hle => ?_
    refine (separated_ends rfl hg.expression hs (by omega)).mono ?_
    rintro args s' ⟨⟨us, hus⟩, -⟩
    exact ⟨us, hus.imp .inr⟩

/-- An access, right after its dot. -/
theorem memberAccess_ends {start e : Node} (ho : r.Open) :
    Ends (memberAccess start e) r (Yields (fun ts n => ∃ t : Token, ts = [t] ∧
      t.IsNameAfter r.previous ∧ n = .of .memberExpr ⟨start.span.start, t.nameNode.span.stop⟩
        [(.operand, e), (.name, t.nameNode)]) r) := by
  refine (memberName_ends ho).reads fun name s ts hs _ => ?_
  split
  next =>
    refine (Ends.previous ?_).bind
    refine .pure ⟨ts, hs.imp ?_⟩
    rintro ⟨t, rfl, hname, rfl⟩
    rw [hs.previous_eq, ← t.stop_nameNode]
    exact ⟨t, rfl, hname, rfl⟩
  next =>
    refine .pure ⟨ts, hs.imp ?_⟩
    rintro ⟨t, rfl, hname, rfl⟩
    exact ⟨t, rfl, hname, rfl⟩

/-- The loop keeps the place where the expression starts, which is what spans are
measured from. -/
theorem suffixed_sound (hg : g.Sound n) : Sound (n + 1) (suffixed g) Phrase.suffixed.One := by
  intro r ho hlen
  refine (primary_sound hg r ho hlen).reads fun start s ts hs _ => ?_
  let inv (ts : List Token) (e : Node) : Prop :=
    Reads .suffixed ts [e] ∧ e.span.start = start.span.start
  refine Ends.iterate (Yields inv r) ⟨ts, hs.imp fun h => ⟨.suffixedNone h, rfl⟩⟩ ?_
  rintro e s ⟨ts, hs⟩
  have hle := hs.ahead_le
  refine (Ends.acceptOpen hs.isOpen (by decide) (fun dot s₁ h₁ hlt₁ => ?_) fun _ => ?_).bind
  · refine (memberAccess_ends h₁.isOpen).reads fun e' s₂ us h₂ hle₂ => ?_
    refine .pure ⟨⟨_, (hs.trans (h₁.trans h₂)).imp ?_⟩, by omega⟩
    rintro ⟨⟨he, hstart⟩, hdot, t, rfl, hname, rfl⟩
    rw [h₁.previous_eq] at hname
    rw [← hstart]
    exact ⟨.access he hdot hname, hstart⟩
  refine (Ends.acceptOpen hs.isOpen (by decide) (fun lb s₁ h₁ hlt₁ => ?_) fun _ => ?_).bind
  · refine (hg.expression s₁ h₁.isOpen (by omega)).reads fun index s₂ us h₂ hle₂ => ?_
    refine (Ends.expectOpen h₂.isOpen (by decide) fun s₃ vs h₃ hle₃ _ => ?_).bind
    refine (Ends.spanFrom ?_).bind
    refine .pure ⟨⟨_, ((hs.trans (h₁.trans h₂)).trans h₃).imp ?_⟩, by omega⟩
    rintro ⟨⟨⟨he, hstart⟩, hlb, hindex⟩, rfl, hrb⟩
    rw [h₃.previous_eq, ← hstart]
    exact ⟨.index he hlb hindex hrb, (Span.start_reaching ..).trans hstart⟩
  refine (Ends.acceptOpen hs.isOpen (by decide) (fun lp s₁ h₁ hlt₁ => ?_) fun _ => ?_).bind
  · refine (arguments_ends hg h₁.isOpen (by omega)).reads fun args s₂ us h₂ hle₂ => ?_
    refine (Ends.expectOpen h₂.isOpen (by decide) fun s₃ vs h₃ hle₃ _ => ?_).bind
    refine (Ends.spanFrom ?_).bind
    refine .pure ⟨⟨_, ((hs.trans (h₁.trans h₂)).trans h₃).imp ?_⟩, by omega⟩
    rintro ⟨⟨⟨he, hstart⟩, hlp, hargs⟩, rfl, hrp⟩
    rw [h₃.previous_eq, ← hstart]
    refine ⟨?_, (Span.start_reaching ..).trans hstart⟩
    rcases hargs with ⟨rfl, rfl⟩ | hargs
    · rw [List.append_assoc]
      exact .call he hlp hrp
    · exact .callWith he hlp hargs hrp
  exact .pure ⟨ts, hs.imp And.left⟩

theorem cast_sound (hg : g.Sound n) : Sound (n + 1) (cast g) Phrase.cast.One := by
  intro r ho hlen
  refine (suffixed_sound hg r ho hlen).reads fun e s ts hs _ => ?_
  refine Ends.iterate (Yields Phrase.cast.One r) ⟨ts, hs.imp .castNone⟩ ?_
  rintro e s ⟨ts, hs⟩
  have hle := hs.ahead_le
  refine (Ends.acceptOpen hs.isOpen (by decide) (fun as s₁ h₁ hlt₁ => ?_) fun _ => ?_).bind
  · refine (typeAtom_sound hg s₁ h₁.isOpen (by omega)).reads fun t s₂ us h₂ hle₂ => ?_
    refine .pure ⟨⟨_, (hs.trans (h₁.trans h₂)).imp ?_⟩, by omega⟩
    rintro ⟨he, has, ht⟩
    exact .cast he has ht
  · exact .pure ⟨ts, hs⟩

theorem unary_sound (hg : g.Sound n) : Sound (n + 1) (unary g) Phrase.unary.One := by
  intro r ho hlen
  refine (Ends.current ?_).bind
  split
  iterate 3
    next hkind =>
      refine (Ends.pass ho (by rw [hkind]; decide) fun s₁ h₁ hlt₁ => ?_).bind
      refine (hg.unary s₁ h₁.isOpen (by omega)).reads fun e s₂ us h₂ _ => ?_
      refine .spanned (h₁.trans h₂) fun h => ⟨by simp, ?_⟩
      exact .unary (by rw [hkind]; rfl) h.2
  next =>
    refine (cast_sound hg r ho hlen).mono ?_
    rintro e s ⟨ts, hs⟩
    exact ⟨ts, hs.imp .unaryNone⟩

/-- One more operator. Behind it no operator is next that binds as tightly, so
whatever is next may take the whole as its left operand. -/
theorem binaryAfter_ends {s : Reader} {least : Nat} {left : Node} {ts : List Token}
    (hg : g.Sound n) (hs : r.Leads ts (Reads (.binary least) ts [left] ∧
      left.Admits s.current.kind.level) s) {s₁ : Reader} (h₁ : s.Leads [s.current] True s₁)
    (hlen : s₁.ahead.length ≤ n) (hpos : 0 < s.current.kind.level)
    (hleast : least ≤ s.current.kind.level) :
    Ends (binaryAfter g left s.current.kind) s₁ fun e s' =>
      (∃ us, r.Leads us (Reads (.binary least) us [e] ∧ e.Admits s'.current.kind.level) s') ∧
        s'.ahead.length ≤ s₁.ahead.length := by
  unfold binaryAfter
  split
  next hop =>
    refine (typeAtom_sound hg s₁ h₁.isOpen (by omega)).reads fun t s₂ us h₂ _ => ?_
    refine .pure ⟨⟨_, (hs.trans (h₁.trans h₂)).imp ?_⟩, h₂.ahead_le⟩
    rintro ⟨⟨hleft, hadmits⟩, -, ht⟩
    rw [hop] at hleast
    exact ⟨.instanceOf hleft hadmits hop hleast ht, .inl rfl⟩
  next hop =>
    refine (hg.binary _ (Nat.succ_pos _) s₁ h₁.isOpen (by omega)).andThen ?_
    rintro right s₂ ⟨⟨us, h₂⟩, hnext⟩
    split
    next hrange =>
      have hlevel : s.current.kind.level = 7 := by
        rcases hrange with hkind | hkind <;> rw [hkind] <;> rfl
      refine .pure ⟨⟨_, (hs.trans (h₁.trans h₂)).imp ?_⟩, h₂.ahead_le⟩
      rintro ⟨⟨hleft, hadmits⟩, -, hright⟩
      rw [hlevel] at hright hleast hnext
      exact ⟨.range hleft hadmits hrange hleast hright, .inr hnext⟩
    next hrange =>
      refine .pure ⟨⟨_, (hs.trans (h₁.trans h₂)).imp ?_⟩, h₂.ahead_le⟩
      rintro ⟨⟨hleft, hadmits⟩, -, hright⟩
      rw [not_or] at hrange
      exact ⟨.binary hleft hadmits hpos hleast hop hrange.1 hrange.2 hright, .inr hnext⟩

theorem binary_ends (hg : g.Sound n) {least : Nat} (hleast : 0 < least) (ho : r.Open)
    (hlen : r.ahead.length ≤ n + 1) :
    Ends (binary g least) r fun e s =>
      Yields (Phrase.binary least).One r e s ∧ s.current.kind.level < least := by
  refine (unary_sound hg r ho hlen).reads fun left s ts hs _ => ?_
  refine Ends.iterate (fun left s => ∃ ts, r.Leads ts (Reads (.binary least) ts [left] ∧
    left.Admits s.current.kind.level) s) ⟨ts, hs.imp fun h => ⟨.binaryNone h, .inr ?_⟩⟩ ?_
  · have htight := h.tightness_le left (List.mem_singleton_self left)
    exact Nat.lt_of_lt_of_le (Nat.lt_of_le_of_lt (Token.Kind.level_le _) (by decide)) htight
  rintro left s ⟨ts, hs⟩
  have hle := hs.ahead_le
  refine (Ends.current ?_).bind
  dsimp only
  split
  next hdone => exact .pure ⟨⟨ts, hs.imp And.left⟩, by omega⟩
  next hgo =>
    have hne : s.current.kind ≠ .eof := fun heof => hgo (.inl (by rw [heof]; rfl))
    refine (Ends.pass hs.isOpen hne fun s₁ h₁ hlt₁ => ?_).bind
    refine (binaryAfter_ends hg hs h₁ (by omega) (by omega) (by omega)).andThen ?_
    rintro e s₂ ⟨he, hle₂⟩
    exact .pure ⟨he, by omega⟩

theorem ternary_sound (hg : g.Sound n) : Sound (n + 1) (ternary g) Phrase.ternary.One := by
  intro r ho hlen
  refine (binary_ends hg Nat.one_pos ho hlen).andThen ?_
  rintro condition s ⟨⟨ts, hs⟩, -⟩
  have hle := hs.ahead_le
  refine (Ends.acceptOpen hs.isOpen (by decide) (fun mark s₁ h₁ hlt₁ => ?_) fun _ => ?_).bind
  · refine (hg.ternary s₁ h₁.isOpen (by omega)).reads fun yes s₂ us h₂ hle₂ => ?_
    refine (Ends.expectOpen h₂.isOpen (by decide) fun s₃ vs h₃ hle₃ _ => ?_).bind
    refine (hg.ternary s₃ h₃.isOpen (by omega)).reads fun no s₄ ws h₄ _ => ?_
    refine .pure ⟨_, ((hs.trans (h₁.trans h₂)).trans (h₃.trans h₄)).imp ?_⟩
    rintro ⟨⟨hcondition, hmark, hyes⟩, ⟨rfl, hcolon⟩, hno⟩
    exact .ternary hcondition hmark hyes hcolon hno
  · exact .pure ⟨ts, hs.imp .ternaryNone⟩

theorem expression_sound (hg : g.Sound n) :
    Sound (n + 1) (expression g) Phrase.expression.One := by
  intro r ho hlen
  refine (ternary_sound hg r ho hlen).reads fun left s ts hs hle => ?_
  refine (Ends.current ?_).bind
  dsimp only
  split
  next hop =>
    have hne : s.current.kind ≠ .eof := fun heof => by rw [heof] at hop; cases hop
    refine (Ends.pass hs.isOpen hne fun s₁ h₁ hlt₁ => ?_).bind
    refine (hg.expression s₁ h₁.isOpen (by omega)).reads fun right s₂ us h₂ _ => ?_
    refine .pure ⟨_, (hs.trans (h₁.trans h₂)).imp ?_⟩
    rintro ⟨hleft, -, hright⟩
    exact .assign hleft hop hright
  next => exact .pure ⟨ts, hs.imp .expressionNone⟩

end Zensight.Rule
