import Zensight.Proofs.Parsing.Expressions

/-!
# What the rules for statements and declarations read
-/

namespace Zensight.Rule

open Read

variable {r : Reader} {g : Grammar} {n : Nat}

/-! ## After a fault -/

theorem synchronize_ends (ho : r.Open) :
    Ends Read.synchronize r fun _ s => ∃ ts, r.Leads ts True s := by
  refine Ends.iterate (fun _ s => ∃ ts, r.Leads ts True s) ⟨[], .refl ho⟩ ?_
  rintro - s ⟨ts, hs⟩
  refine (Ends.current ?_).bind
  split
  next => exact .pure ⟨ts, hs⟩
  next hne =>
    split
    next =>
      refine (Ends.pass hs.isOpen hne fun s₁ h₁ _ => ?_).bind
      exact .pure ⟨_, (hs.trans h₁).imp fun _ => trivial⟩
    next =>
      split
      next => exact .pure ⟨ts, hs⟩
      next =>
        refine (Ends.pass hs.isOpen hne fun s₁ h₁ _ => ?_).bind
        exact .pure ⟨⟨_, (hs.trans h₁).imp fun _ => trivial⟩, h₁.ahead_lt⟩

theorem badStatement_ends {s : Reader} {ts : List Token} {D : List Token → Node → Prop}
    (hs : r.Leads ts False s) : Ends (badStatement r.current) s (Yields D r) :=
  .spanned hs False.elim

theorem some_ends {m : Read Node} {p : Phrase} (h : Ends m r (Yields p.One r)) :
    Ends (do return some (← m)) r (Yields p.Maybe r) :=
  h.andThen fun _ _ hn => .pure hn

/-! ## Imports -/

theorem importPath_ends (ho : r.Open) : Ends importPath r (Yields ImportPath r) := by
  refine (Ends.expectOpen ho (by decide) fun s ts hs _ _ => ?_).bind
  split
  next hkind =>
    refine Ends.iterate (Yields ImportPath r) ⟨ts, hs.imp ?_⟩ ?_
    · rintro ⟨rfl, hkind⟩
      exact .one hkind
    rintro path s ⟨ts, hs⟩
    refine (Ends.acceptOpen hs.isOpen (by decide) (fun dot s₁ h₁ hlt₁ => ?_) fun _ => ?_).bind
    · refine (memberName_ends h₁.isOpen).reads fun part s₂ us h₂ hle₂ => ?_
      refine .pure ⟨⟨_, (hs.trans (h₁.trans h₂)).imp ?_⟩, by omega⟩
      rintro ⟨hpath, hdot, t, rfl, hname, rfl⟩
      rw [h₁.previous_eq] at hname
      exact .more hpath hdot hname
    · exact .pure ⟨ts, hs⟩
  next hkind => exact .pure ⟨ts, hs.imp fun h => absurd h.2 hkind⟩

theorem importDecl_ends (ho : r.Open) : Ends importDecl r (Yields Phrase.importing.One r) := by
  refine (Ends.expectOpen ho (by decide) fun s₁ ts h₁ _ _ => ?_).bind
  refine (importPath_ends h₁.isOpen).reads fun path s₂ us h₂ _ => ?_
  refine (behind_ends rfl h₂.isOpen (Nat.le_succ _)
    fun s hs _ => identifier_ends hs).andThen ?_
  rintro localName s₃ ⟨vs, h₃⟩
  refine (Ends.expectOpen h₃.isOpen (by decide) fun s₄ ws h₄ _ _ => ?_).bind
  refine .spanned (((h₁.trans h₂).trans h₃).trans h₄) ?_
  rintro ⟨⟨⟨⟨rfl, hkw⟩, hpath⟩, hlocal⟩, rfl, hsemi⟩
  rw [optional_eq]
  exact ⟨by simp, .importing hkw hpath hlocal hsemi⟩

/-! ## Declarations -/

/-- Variables and functions are what a class may have in common with a script. -/
def IsMember (ts : List Token) (n : Node) : Prop :=
  Reads .statement ts [n] ∧ n.form.isMember = true

theorem varDecl_ends (hg : g.Sound n) (ho : r.Open) (hlen : r.ahead.length ≤ n + 1)
    (hkind : r.current.kind.declaresVar = true) : Ends (varDecl g) r (Yields IsMember r) := by
  have hne : r.current.kind ≠ .eof := fun heof => by rw [heof] at hkind; cases hkind
  refine (Ends.pass ho hne fun s₁ h₁ hlt₁ => ?_).bind
  refine (identifier_ends h₁.isOpen).reads fun name s₂ ts h₂ hle₂ => ?_
  refine (asType_sound hg s₂ h₂.isOpen (by omega)).reads fun t s₃ us h₃ hle₃ => ?_
  refine (behind_ends rfl h₃.isOpen (by omega) (expression_sound hg)).reads
    fun value s₄ vs h₄ _ => ?_
  refine (Ends.expectOpen h₄.isOpen (by decide) fun s₅ ws h₅ _ _ => ?_).bind
  refine .spanned ((((h₁.trans h₂).trans h₃).trans h₄).trans h₅) ?_
  rintro ⟨⟨⟨⟨-, hname⟩, ht⟩, hvalue⟩, rfl, hsemi⟩
  cases hname with | name hident =>
  rw [optional_eq, optional_eq]
  exact ⟨by simp, .varDecl hkind hident ht hvalue hsemi, rfl⟩

theorem optionalBody_sound (hg : g.Sound n) :
    Sound (n + 1) (optionalBody g) Phrase.body.Maybe := by
  intro r ho hlen
  refine (Ends.check ?_).bind
  split
  next hbrace =>
    refine (block_ends hg ho (.inr ⟨by simpa using hbrace, hlen⟩)).reads fun body s ts hs _ => ?_
    exact .pure ⟨ts, hs.imp .bodySome⟩
  next =>
    refine (Ends.expectOpen ho (by decide) fun s ts hs _ _ => ?_).bind
    refine .pure ⟨ts, hs.imp ?_⟩
    rintro ⟨rfl, hsemi⟩
    exact .bodyNone hsemi

/-- What follows the name of a function. -/
inductive IsExecutable : List Token → List (Role × Node) → Prop where
  | intro {ps as bs : List Token} {params result body : List Node} : Reads .params ps params →
      Reads (.behind .kwAs .type) as result → Reads .body bs body →
      IsExecutable (ps ++ as ++ bs)
        (several .param params ++ several .result result ++ several .body body)

theorem executable_sound (hg : g.Sound n) : Sound (n + 1) (executable g) IsExecutable := by
  intro r ho hlen
  refine (paramList_sound hg r ho hlen).reads fun params s₁ ts h₁ hle₁ => ?_
  refine (asType_sound hg s₁ h₁.isOpen (by omega)).reads fun result s₂ us h₂ hle₂ => ?_
  refine (optionalBody_sound hg s₂ h₂.isOpen (by omega)).reads fun body s₃ vs h₃ _ => ?_
  refine .pure ⟨_, ((h₁.trans h₂).trans h₃).imp fun h => ?_⟩
  rw [optional_eq, optional_eq]
  exact .intro h.1.1 h.1.2 h.2

theorem funcDecl_sound (hg : g.Sound n) : Sound (n + 1) (funcDecl g) IsMember := by
  intro r ho hlen
  refine (Ends.current ?_).bind
  refine (Ends.acceptOpen ho (by decide) (fun st s₁ h₁ hlt₁ => ?_) fun _ => ?_).bind
  · refine (Ends.expectOpen h₁.isOpen (by decide) fun s₂ ts h₂ hle₂ _ => ?_).bind
    refine (identifier_ends h₂.isOpen).reads fun name s₃ us h₃ hle₃ => ?_
    refine (executable_sound hg s₃ h₃.isOpen (by omega)).reads fun rest s₄ vs h₄ _ => ?_
    refine .spanned (((h₁.trans h₂).trans h₃).trans h₄) ?_
    rintro ⟨⟨⟨hstatic, rfl, hfn⟩, hname⟩, hrest⟩
    cases hname with | name hident =>
    cases hrest with | intro hparams hresult hbody =>
    rw [← List.append_assoc, ← List.append_assoc]
    exact ⟨by simp, .staticFuncDecl hstatic hfn hident hparams hresult hbody, rfl⟩
  · refine (Ends.expectOpen ho (by decide) fun s₂ ts h₂ hle₂ _ => ?_).bind
    refine (identifier_ends h₂.isOpen).reads fun name s₃ us h₃ hle₃ => ?_
    refine (executable_sound hg s₃ h₃.isOpen (by omega)).reads fun rest s₄ vs h₄ _ => ?_
    refine .spanned ((h₂.trans h₃).trans h₄) ?_
    rintro ⟨⟨⟨rfl, hfn⟩, hname⟩, hrest⟩
    cases hname with | name hident =>
    cases hrest with | intro hparams hresult hbody =>
    rw [← List.append_assoc, ← List.append_assoc]
    exact ⟨by simp, .funcDecl hfn hident hparams hresult hbody, rfl⟩

theorem expandFuncDecl_sound (hg : g.Sound n) :
    Sound (n + 1) (expandFuncDecl g) Phrase.statement.One := by
  intro r ho hlen
  refine (Ends.expectOpen ho (by decide) fun s₁ ts h₁ hle₁ _ => ?_).bind
  refine (Ends.acceptOpen h₁.isOpen (by decide) (fun ex s₂ h₂ hlt₂ => ?_) fun _ => ?_).bind
  · refine (type_sound hg s₂ h₂.isOpen (by omega)).reads fun target s₃ us h₃ hle₃ => ?_
    refine (Ends.expectOpen h₃.isOpen (by decide) fun s₄ vs h₄ hle₄ _ => ?_).bind
    refine (identifier_ends h₄.isOpen).reads fun name s₅ ws h₅ hle₅ => ?_
    refine (executable_sound hg s₅ h₅.isOpen (by omega)).reads fun rest s₆ xs h₆ _ => ?_
    refine .spanned (((h₁.trans h₂).trans h₃).trans ((h₄.trans h₅).trans h₆)) ?_
    rintro ⟨⟨⟨⟨rfl, hdollar⟩, hexpand⟩, htarget⟩, ⟨⟨rfl, hdollar'⟩, hname⟩, hrest⟩
    cases hname with | name hident =>
    cases hrest with | intro hparams hresult hbody =>
    refine ⟨by simp, ?_⟩
    have hread := Reads.expandFuncDecl hdollar hexpand htarget hdollar' hident hparams hresult hbody
    simp only [List.append_assoc, List.cons_append, List.nil_append] at hread ⊢
    exact hread
  · refine (Ends.current ?_).bind
    refine (Ends.fail ?_).bind
    have hfault := h₁.faulted (Q := False) r.current
      (txt "expected expand after '$', got " ++ s₁.current.describe) []
    refine (synchronize_ends hfault.isOpen).reads fun _ s₂ us h₂ _ => ?_
    exact badStatement_ends ((hfault.trans h₂).imp And.left)

theorem constructorDecl_sound (hg : g.Sound n) :
    Sound (n + 1) (constructorDecl g) Phrase.member.One := by
  intro r ho hlen
  refine (Ends.expectOpen ho (by decide) fun s₁ ts h₁ hle₁ _ => ?_).bind
  refine (paramList_sound hg s₁ h₁.isOpen (by omega)).reads fun params s₂ us h₂ hle₂ => ?_
  refine (optionalBody_sound hg s₂ h₂.isOpen (by omega)).reads fun body s₃ vs h₃ _ => ?_
  refine .spanned ((h₁.trans h₂).trans h₃) ?_
  rintro ⟨⟨⟨rfl, hkw⟩, hparams⟩, hbody⟩
  rw [optional_eq]
  exact ⟨by simp, .constructorDecl hkw hparams hbody⟩

theorem operatorSign_ends (ho : r.Open) : Ends operatorSign r (Yields OperatorSign r) := by
  refine (Ends.current ?_).bind
  split
  next hlb =>
    refine (Ends.pass ho (by rw [hlb]; decide) fun s₁ h₁ _ => ?_).bind
    refine (Ends.expectOpen h₁.isOpen (by decide) fun s₂ ts h₂ _ _ => ?_).bind
    refine (Ends.acceptOpen h₂.isOpen (by decide) (fun eq s₃ h₃ _ => ?_) fun _ => ?_).bind
    · refine .pure ⟨_, ((h₁.trans h₂).trans h₃).imp ?_⟩
      rintro ⟨⟨-, rfl, hrb⟩, heq⟩
      exact .indexSet hlb hrb heq
    · refine .pure ⟨_, (h₁.trans h₂).imp ?_⟩
      rintro ⟨-, rfl, hrb⟩
      exact .index hlb hrb
  next =>
    split
    next hdot =>
      refine (Ends.pass ho (by rw [hdot]; decide) fun s₁ h₁ _ => ?_).bind
      refine (Ends.acceptOpen h₁.isOpen (by decide) (fun eq s₂ h₂ _ => ?_) fun _ => ?_).bind
      · exact .pure ⟨_, (h₁.trans h₂).imp fun h => .memberSet hdot h.2⟩
      · exact .pure ⟨_, h₁.imp fun _ => .member hdot⟩
    next =>
      split
      next hsign =>
        have hne : r.current.kind ≠ .eof := fun heof => by rw [heof] at hsign; cases hsign
        refine (Ends.pass ho hne fun s₁ h₁ _ => ?_).bind
        exact .pure ⟨_, h₁.imp fun _ => .plain hsign⟩
      next =>
        refine (Ends.fail ?_).bind
        exact .pure ⟨[], (Reader.Leads.refl ho).faulted ..⟩

theorem operatorDecl_sound (hg : g.Sound n) :
    Sound (n + 1) (operatorDecl g) Phrase.member.One := by
  intro r ho hlen
  refine (Ends.expectOpen ho (by decide) fun s₁ ts h₁ hle₁ _ => ?_).bind
  refine (operatorSign_ends h₁.isOpen).reads fun sign s₂ us h₂ hle₂ => ?_
  refine (executable_sound hg s₂ h₂.isOpen (by omega)).reads fun rest s₃ vs h₃ _ => ?_
  refine .spanned ((h₁.trans h₂).trans h₃) ?_
  rintro ⟨⟨⟨rfl, hkw⟩, hsign⟩, hrest⟩
  cases hrest with | intro hparams hresult hbody =>
  rw [← List.append_assoc, ← List.append_assoc]
  exact ⟨by simp, .operatorDecl hkw hsign hparams hresult hbody⟩

/-! ## Classes -/

theorem classMember_sound (hg : g.Sound n) :
    Sound (n + 1) (classMember g) Phrase.member.Maybe := by
  intro r ho hlen
  have hmember : ∀ {m : Read Node}, Ends m r (Yields IsMember r) →
      Ends m r (Yields Phrase.member.One r) := by
    intro m hm
    refine hm.mono ?_
    rintro n s ⟨ts, hs⟩
    exact ⟨ts, hs.imp fun h => .memberStatement h.1 (by simpa using h.2)⟩
  refine (Ends.current ?_).bind
  split
  iterate 2
    next hkind =>
      exact some_ends (hmember (varDecl_ends hg ho hlen (by rw [hkind]; rfl)))
  next hkind =>
    refine (Ends.peek ?_).bind
    split
    next => exact some_ends (hmember (funcDecl_sound hg r ho hlen))
    next => exact some_ends (hmember (varDecl_ends hg ho hlen (by rw [hkind]; rfl)))
  next => exact some_ends (hmember (funcDecl_sound hg r ho hlen))
  next => exact some_ends (constructorDecl_sound hg r ho hlen)
  next => exact some_ends (operatorDecl_sound hg r ho hlen)
  next hkind =>
    refine (Ends.pass ho (by rw [hkind]; decide) fun s hs _ => ?_).bind
    exact .pure ⟨_, hs.imp fun _ => .memberStatement (.stray hkind) (by simp)⟩
  next =>
    refine (Ends.fail ?_).bind
    have hfault : r.Leads [] False (r.faulted r.current
      (txt "unexpected " ++ r.current.describe ++ txt " in zenClass body") []) :=
      (Reader.Leads.refl ho).faulted ..
    refine (synchronize_ends hfault.isOpen).reads fun _ s ts hs _ => ?_
    exact (badStatement_ends ((hfault.trans hs).imp And.left)).andThen fun _ _ h => .pure h

theorem className_ends (ho : r.Open) :
    Ends className r (Yields (fun ts n => ∃ t : Token, ts = [t] ∧
      (t.kind = .ident ∨ t.kind.isPrimitive = true) ∧ n = t.nameNode) r) := by
  refine (Ends.current ?_).bind
  split
  next hprim =>
    have hne : r.current.kind ≠ .eof := fun heof => by rw [heof] at hprim; cases hprim
    refine (Ends.pass ho hne fun s hs _ => ?_).bind
    exact .spanned hs fun _ => ⟨by simp, _, rfl, .inr hprim, rfl⟩
  next =>
    refine (identifier_ends ho).mono ?_
    rintro name s ⟨ts, hs⟩
    refine ⟨ts, hs.imp fun hname => ?_⟩
    cases hname with | name hkind => exact ⟨_, rfl, .inl hkind, rfl⟩

theorem superTypes_ends (ho : r.Open) : Ends superTypes r (Yields (Reads .supers) r) := by
  refine (Ends.acceptOpen ho (by decide) (fun kw s₁ h₁ _ => ?_) fun _ => ?_).bind
  · refine (namedType_ends h₁.isOpen).reads fun head s₂ ts h₂ _ => ?_
    refine (separated_ends rfl (fun s hs _ => namedType_ends hs) h₂ (Nat.le_refl _)).mono ?_
    rintro supers s₃ ⟨⟨us, h₃⟩, -⟩
    exact ⟨_, (h₁.trans h₃).imp fun h => .supersSome h.1 h.2⟩
  · exact .pure ⟨[], (Reader.Leads.refl ho).imp fun _ => .supersNone⟩

theorem classDecl_sound (hg : g.Sound n) :
    Sound (n + 1) (classDecl g) Phrase.statement.One := by
  intro r ho hlen
  refine (Ends.expectOpen ho (by decide) fun s₁ ts h₁ hle₁ _ => ?_).bind
  refine (className_ends h₁.isOpen).reads fun name s₂ us h₂ hle₂ => ?_
  refine (superTypes_ends h₂.isOpen).reads fun supers s₃ vs h₃ hle₃ => ?_
  refine (Ends.expectOpen h₃.isOpen (by decide) fun s₄ ws h₄ hle₄ _ => ?_).bind
  refine (untilBrace_sound (.inr rfl) (classMember_sound hg) s₄ h₄.isOpen (by omega)).reads
    fun members s₅ xs h₅ _ => ?_
  refine (Ends.expectOpen h₅.isOpen (by decide) fun s₆ ys h₆ _ _ => ?_).bind
  refine .spanned ((((h₁.trans h₂).trans h₃).trans (h₄.trans h₅)).trans h₆) ?_
  rintro ⟨⟨⟨⟨⟨rfl, hkw⟩, t, rfl, hname, rfl⟩, hsupers⟩, ⟨rfl, hlb⟩, hmembers⟩, rfl, hrb⟩
  exact ⟨by simp, .classDecl hkw hname hsupers hlb hmembers hrb⟩

/-! ## Statements -/

theorem returnStmt_sound (hg : g.Sound n) :
    Sound (n + 1) (returnStmt g) Phrase.statement.One := by
  intro r ho hlen
  refine (Ends.expectOpen ho (by decide) fun s₁ ts h₁ hle₁ _ => ?_).bind
  have hvalue : Ends (returnValue g) s₁ (Yields Phrase.value.Maybe s₁) := by
    refine (Ends.check ?_).bind
    refine (Ends.check ?_).bind
    split
    next => exact .pure ⟨[], (Reader.Leads.refl h₁.isOpen).imp fun _ => .valueNone⟩
    next =>
      refine (expression_sound hg s₁ h₁.isOpen (by omega)).reads fun e s₂ us h₂ _ => ?_
      exact .pure ⟨us, h₂.imp .valueSome⟩
  refine hvalue.andThen ?_
  rintro value s₂ ⟨us, h₂⟩
  refine (Ends.expectOpen h₂.isOpen (by decide) fun s₃ vs h₃ _ _ => ?_).bind
  refine .spanned ((h₁.trans h₂).trans h₃) ?_
  rintro ⟨⟨⟨rfl, hkw⟩, hvalue⟩, rfl, hsemi⟩
  rw [optional_eq]
  exact ⟨by simp, .returnStmt hkw hvalue hsemi⟩

theorem branch_sound (hg : g.Sound n) : Sound n (branch g) Phrase.branch.One := by
  intro r ho hlen
  refine (Ends.current ?_).bind
  refine (hg.statement r ho hlen).andThen ?_
  rintro (_ | stmt) s ⟨ts, hs⟩
  · refine .spanned hs fun hnone => ?_
    exact ⟨hnone.ne_nil rfl, .branchNone hnone⟩
  · exact .pure ⟨ts, hs.imp .branchSome⟩

theorem ifStmt_ends (hg : g.Sound n) (ho : r.Open) (hlen : r.ahead.length ≤ n + 1)
    (hkind : r.current.kind = .kwIf) : Ends (ifStmt g) r (Yields Phrase.statement.One r) := by
  refine (Ends.expectNext ho (by decide) hkind fun s₁ h₁ hlt₁ => ?_).bind
  refine (expression_sound hg s₁ h₁.isOpen (by omega)).reads fun condition s₂ ts h₂ hle₂ => ?_
  refine (branch_sound hg s₂ h₂.isOpen (by omega)).reads fun yes s₃ us h₃ hle₃ => ?_
  refine (behind_ends rfl h₃.isOpen (by omega) (branch_sound hg)).reads fun no s₄ vs h₄ _ => ?_
  refine .spanned (((h₁.trans h₂).trans h₃).trans h₄) ?_
  rintro ⟨⟨⟨-, hcondition⟩, hyes⟩, hno⟩
  rw [optional_eq]
  exact ⟨by simp, .ifStmt hkind hcondition hyes hno⟩

theorem foreachStmt_ends (hg : g.Sound n) (ho : r.Open) (hlen : r.ahead.length ≤ n + 1)
    (hkind : r.current.kind = .kwFor) :
    Ends (foreachStmt g) r (Yields Phrase.statement.One r) := by
  refine (Ends.expectNext ho (by decide) hkind fun s₁ h₁ hlt₁ => ?_).bind
  refine (identifier_ends h₁.isOpen).reads fun head s₂ ts h₂ _ => ?_
  refine (separated_ends rfl (fun s hs _ => identifier_ends hs) h₂
    (Nat.le_refl _)).andThen ?_
  rintro vars s₃ ⟨⟨us, h₃⟩, -⟩
  have hle₃ := h₃.ahead_le
  refine (Ends.expectOpen h₃.isOpen (by decide) fun s₄ vs h₄ hle₄ _ => ?_).bind
  refine (expression_sound hg s₄ h₄.isOpen (by omega)).reads fun iterated s₅ ws h₅ hle₅ => ?_
  refine (block_ends hg h₅.isOpen (.inl (by omega))).reads fun body s₆ xs h₆ _ => ?_
  refine .spanned (((h₁.trans h₃).trans (h₄.trans h₅)).trans h₆) ?_
  rintro ⟨⟨⟨-, hvars⟩, ⟨rfl, hin⟩, hiterated⟩, hbody⟩
  exact ⟨by simp, .foreachStmt hkind hvars hin hiterated hbody⟩

theorem whileStmt_ends (hg : g.Sound n) (ho : r.Open) (hlen : r.ahead.length ≤ n + 1)
    (hkind : r.current.kind = .kwWhile) :
    Ends (whileStmt g) r (Yields Phrase.statement.One r) := by
  refine (Ends.expectNext ho (by decide) hkind fun s₁ h₁ hlt₁ => ?_).bind
  refine (expression_sound hg s₁ h₁.isOpen (by omega)).reads fun condition s₂ ts h₂ hle₂ => ?_
  refine (block_ends hg h₂.isOpen (.inl (by omega))).reads fun body s₃ us h₃ _ => ?_
  refine .spanned ((h₁.trans h₂).trans h₃) ?_
  rintro ⟨⟨-, hcondition⟩, hbody⟩
  exact ⟨by simp, .whileStmt hkind hcondition hbody⟩

theorem exprStmt_sound (hg : g.Sound n) : Sound (n + 1) (exprStmt g) Phrase.statement.One := by
  intro r ho hlen
  refine (Ends.current ?_).bind
  refine (expression_sound hg r ho hlen).reads fun e s₁ ts h₁ _ => ?_
  refine (Ends.expectOpen h₁.isOpen (by decide) fun s₂ us h₂ _ _ => ?_).bind
  refine .spanned (h₁.trans h₂) ?_
  rintro ⟨he, rfl, hsemi⟩
  exact ⟨by simp, .exprStmt he hsemi⟩

/-- A keyword and a semicolon, for a form that such a pair stands for. -/
theorem keywordStmt_ends {form : Form} (ho : r.Open) (hne : r.current.kind ≠ .eof)
    (hread : ∀ semi : Token, semi.kind = .semicolon → Reads .statement [r.current, semi]
      [.leaf form (.ofTokens [r.current, semi])]) :
    Ends (keywordStmt form) r (Yields Phrase.statement.One r) := by
  refine (Ends.pass ho hne fun s₁ h₁ _ => ?_).bind
  refine (Ends.expectOpen h₁.isOpen (by decide) fun s₂ us h₂ _ _ => ?_).bind
  refine .spanned (h₁.trans h₂) ?_
  rintro ⟨-, rfl, hsemi⟩
  exact ⟨by simp, hread _ hsemi⟩

theorem statement_sound (hg : g.Sound n) :
    Sound (n + 1) (statement g) Phrase.statement.Maybe := by
  intro r ho hlen
  have hmember : ∀ {m : Read Node}, Ends m r (Yields IsMember r) →
      Ends m r (Yields Phrase.statement.One r) := by
    intro m hm
    refine hm.mono ?_
    rintro n s ⟨ts, hs⟩
    exact ⟨ts, hs.imp And.left⟩
  refine (Ends.current ?_).bind
  split
  iterate 3
    next hkind => exact some_ends (hmember (varDecl_ends hg ho hlen (by rw [hkind]; rfl)))
  next hkind =>
    refine (Ends.peek ?_).bind
    split
    next => exact some_ends (hmember (funcDecl_sound hg r ho hlen))
    next => exact some_ends (hmember (varDecl_ends hg ho hlen (by rw [hkind]; rfl)))
  next =>
    refine (Ends.peek ?_).bind
    split
    next => exact some_ends (hmember (funcDecl_sound hg r ho hlen))
    next => exact some_ends (exprStmt_sound hg r ho hlen)
  next => exact some_ends (expandFuncDecl_sound hg r ho hlen)
  next => exact some_ends (classDecl_sound hg r ho hlen)
  next hkind =>
    refine (block_ends hg ho (.inr ⟨hkind, hlen⟩)).reads fun b s ts hs _ => ?_
    exact .pure ⟨ts, hs.imp .blockStmt⟩
  next => exact some_ends (returnStmt_sound hg r ho hlen)
  next hkind => exact some_ends (ifStmt_ends hg ho hlen hkind)
  next hkind => exact some_ends (foreachStmt_ends hg ho hlen hkind)
  next hkind => exact some_ends (whileStmt_ends hg ho hlen hkind)
  next hkind =>
    exact some_ends (keywordStmt_ends ho (by rw [hkind]; decide) fun _ => .breakStmt hkind)
  next hkind =>
    exact some_ends (keywordStmt_ends ho (by rw [hkind]; decide) fun _ => .continueStmt hkind)
  next hkind =>
    refine (Ends.pass ho (by rw [hkind]; decide) fun s hs _ => ?_).bind
    exact .pure ⟨_, hs.imp fun _ => .stray hkind⟩
  next =>
    refine (Ends.fail ?_).bind
    have hfault : r.Leads [] False (r.faulted r.current
      (txt "imports must appear at the top level") []) := (Reader.Leads.refl ho).faulted ..
    refine (importDecl_ends hfault.isOpen).reads fun _ s ts hs _ => ?_
    exact (badStatement_ends ((hfault.trans hs).imp And.left)).andThen fun _ _ h => .pure h
  iterate 2
    next hkind =>
      refine (Ends.fail ?_).bind
      have hfault : r.Leads [] False (r.faulted r.current
        (r.current.describe ++ txt " is only allowed inside a zenClass") []) :=
        (Reader.Leads.refl ho).faulted ..
      refine (Ends.pass hfault.isOpen
        (by rw [show (r.faulted _ _ _).current = r.current from rfl, hkind]; decide)
        fun s₁ h₁ _ => ?_).bind
      refine (synchronize_ends h₁.isOpen).reads fun _ s₂ ts h₂ _ => ?_
      exact (badStatement_ends ((hfault.trans (h₁.trans h₂)).imp And.left)).andThen
        fun _ _ h => .pure h
  next => exact some_ends (exprStmt_sound hg r ho hlen)

end Zensight.Rule
