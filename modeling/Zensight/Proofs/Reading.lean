import Mathlib.Data.List.Induction
import Zensight.Proofs.Phrases

/-!
# What a step of reading does to the tokens

A rule of the grammar is a program over a `Reader`, and what matters about it is
not only the reader it ends with but every reader on the way. `Read.Run` is the
execution of such a program with the list of the readers it goes through: one
entry each time a token is passed or a fault is reported, and nothing else ever
changes a reader.

`Read.Ends m r Q` says that `m` started at `r` has an execution, so no bound of
its own cuts it short, and that the outcome satisfies `Q`. The lemmas about
`Ends` follow the ways in which rules are put together; with them a rule is
proved about without its executions being looked at.

`Reader.Passes` is what an execution amounts to: the tokens passed move from
those ahead to those behind, and the faults reported before are kept.
`Reader.Leads` adds what is known when no fault was reported on the way, and
composes: the rules are chains of such steps.
-/

namespace Zensight

namespace Read

/-- The execution of a step of reading: where it starts, the readers it goes
through, what it returns and where it ends. -/
inductive Run : {α : Type} → Read α → Reader → List Reader → α → Reader → Prop where
  | pure {α : Type} (a : α) (r : Reader) : Run (pure a) r [] a r
  | get (r : Reader) : Run get r [] r r
  | advance (r : Reader) : Run (modify Reader.advance) r [r.advance] ⟨⟩ r.advance
  | fail (t : Token) (message hint : Text) (r : Reader) :
      Run (Read.fail t message hint) r
        [{ r with report := r.report.addError t.place.line t.place.column message hint }] ()
        { r with report := r.report.addError t.place.line t.place.column message hint }
  | bind {α β : Type} {m : Read α} {f : α → Read β} {r r' r'' : Reader}
      {moments moments' : List Reader} {a : α} {b : β} :
      Run m r moments a r' → Run (f a) r' moments' b r'' →
      Run (m >>= f) r (moments ++ moments') b r''

/-- An execution is what the step computes. -/
theorem Run.eq_some {α : Type} {m : Read α} {r r' : Reader} {moments : List Reader} {a : α}
    (h : Run m r moments a r') : m r = some (a, r') := by
  induction h with
  | pure | get | advance | fail => rfl
  | bind _ _ ih₁ ih₂ =>
      simp only [Bind.bind, StateT.bind, ih₁]
      exact ih₂

/-- The step has an execution from here, and its outcome is as wanted. -/
def Ends {α : Type} (m : Read α) (r : Reader) (Q : α → Reader → Prop) : Prop :=
  ∃ moments a r', Run m r moments a r' ∧ Q a r'

section

variable {α β : Type} {m : Read α} {f : α → Read β} {r : Reader}

theorem Ends.mono {P Q : α → Reader → Prop} (h : Ends m r P) (hPQ : ∀ a s, P a s → Q a s) :
    Ends m r Q := by
  obtain ⟨moments, a, r', hrun, hp⟩ := h
  exact ⟨moments, a, r', hrun, hPQ a r' hp⟩

theorem Ends.pure {a : α} {Q : α → Reader → Prop} (h : Q a r) : Ends (pure a) r Q :=
  ⟨[], a, r, .pure a r, h⟩

theorem Ends.bind {Q : β → Reader → Prop} (h : Ends m r fun a s => Ends (f a) s Q) :
    Ends (m >>= f) r Q := by
  obtain ⟨moments, a, r', hrun, moments', b, r'', hrun', hq⟩ := h
  exact ⟨moments ++ moments', b, r'', .bind hrun hrun', hq⟩

/-- A step followed by another, by what is known of the first. -/
theorem Ends.andThen {P : α → Reader → Prop} {Q : β → Reader → Prop} (h : Ends m r P)
    (hf : ∀ a s, P a s → Ends (f a) s Q) : Ends (m >>= f) r Q :=
  (h.mono hf).bind

theorem Ends.get {Q : Reader → Reader → Prop} (h : Q r r) : Ends get r Q :=
  ⟨[], r, r, .get r, h⟩

theorem Ends.current {Q : Token → Reader → Prop} (h : Q r.current r) :
    Ends Read.current r Q :=
  (Ends.get (.pure h)).bind

theorem Ends.peek {Q : Token → Reader → Prop} (h : Q r.peek r) : Ends Read.peek r Q :=
  (Ends.get (.pure h)).bind

theorem Ends.previous {Q : Token → Reader → Prop} (h : Q r.previous r) :
    Ends Read.previous r Q :=
  (Ends.get (.pure h)).bind

theorem Ends.advance {Q : Token → Reader → Prop} (h : Q r.current r.advance) :
    Ends Read.advance r Q := by
  refine (Ends.current ?_).bind
  refine Ends.bind ⟨[r.advance], ⟨⟩, r.advance, .advance r, ?_⟩
  exact .pure h

theorem Ends.check {kind : Token.Kind} {Q : Bool → Reader → Prop}
    (h : Q (r.current.kind == kind) r) : Ends (check kind) r Q :=
  (Ends.current (.pure h)).bind

theorem Ends.accept {kind : Token.Kind} {Q : Bool → Reader → Prop}
    (hyes : r.current.kind = kind → Q true r.advance)
    (hno : r.current.kind ≠ kind → Q false r) : Ends (accept kind) r Q := by
  refine (Ends.check ?_).bind
  by_cases h : r.current.kind = kind
  · rw [if_pos (by simpa using h)]
    exact (Ends.advance (.pure (hyes h))).bind
  · rw [if_neg (by simpa using h)]
    exact .pure (hno h)

end

end Read

namespace Reader

/-- The number of errors reported so far. -/
def faults (r : Reader) : Nat := r.report.errors.length

/-- The reader after a fault at a token. -/
def faulted (r : Reader) (t : Token) (message hint : Text) : Reader :=
  { r with report := r.report.addError t.place.line t.place.column message hint }

theorem faults_faulted (r : Reader) (t : Token) (message hint : Text) :
    (r.faulted t message hint).faults = r.faults + 1 := by
  simp only [faults, faulted, Report.errors, Report.ofSeverity, Report.addError, Report.add,
    List.filter_append, List.length_append]
  rfl

/-- The end of the script is still ahead, and nothing before it ends one. -/
structure Open (r : Reader) : Prop where
  ahead_eq : ∃ body, r.ahead = body ++ [r.final] ∧ ∀ t ∈ body, t.kind ≠ .eof
  final_eof : r.final.kind = .eof

/-- From one reader to another by passing tokens and reporting faults. -/
structure Passes (r : Reader) (ts : List Token) (r' : Reader) : Prop where
  ahead_eq : r.ahead = ts ++ r'.ahead
  passed_eq : r'.passed = ts.reverse ++ r.passed
  final_eq : r'.final = r.final
  faults_le : r.faults ≤ r'.faults

variable {r r' r'' : Reader} {ts us : List Token}

theorem Passes.refl (r : Reader) : r.Passes [] r := ⟨rfl, rfl, rfl, Nat.le_refl _⟩

theorem Passes.trans (h₁ : r.Passes ts r') (h₂ : r'.Passes us r'') :
    r.Passes (ts ++ us) r'' where
  ahead_eq := by rw [h₁.ahead_eq, h₂.ahead_eq, List.append_assoc]
  passed_eq := by
    rw [h₂.passed_eq, h₁.passed_eq, List.reverse_append, List.append_assoc]
  final_eq := h₂.final_eq.trans h₁.final_eq
  faults_le := Nat.le_trans h₁.faults_le h₂.faults_le

theorem Passes.length_eq (h : r.Passes ts r') :
    r.ahead.length = ts.length + r'.ahead.length := by
  rw [h.ahead_eq, List.length_append]

theorem Passes.position_eq (h : r.Passes ts r') :
    r'.position = r.position + ts.length := by
  rw [position, position, h.passed_eq, List.length_append, List.length_reverse,
    Nat.add_comm]

theorem passes_faulted (r : Reader) (t : Token) (message hint : Text) :
    r.Passes [] (r.faulted t message hint) :=
  ⟨rfl, rfl, rfl, by rw [faults_faulted]; exact Nat.le_succ _⟩

theorem Open.faulted (h : r.Open) (t : Token) (message hint : Text) :
    (r.faulted t message hint).Open := ⟨h.ahead_eq, h.final_eof⟩

theorem Open.ahead_ne_nil (h : r.Open) : r.ahead ≠ [] := by
  obtain ⟨body, hbody, -⟩ := h.ahead_eq
  rw [hbody]
  simp

/-- A token that does not end the script can be passed. -/
theorem Open.advance (h : r.Open) (hne : r.current.kind ≠ .eof) :
    r.Passes [r.current] r.advance ∧ r.advance.Open := by
  obtain ⟨body, hbody, hkinds⟩ := h.ahead_eq
  cases body with
  | nil =>
      refine absurd ?_ hne
      rw [current, hbody]
      exact h.final_eof
  | cons t body =>
      have hcur : r.current = t := by rw [current, hbody]; rfl
      have hadv : r.advance = { r with passed := t :: r.passed, ahead := body ++ [r.final] } := by
        rw [Reader.advance, hbody]; rfl
      rw [hcur, hadv]
      refine ⟨⟨hbody, rfl, rfl, Nat.le_refl _⟩, ⟨⟨body, rfl, ?_⟩, h.final_eof⟩⟩
      intro u hu
      exact hkinds u (List.mem_cons_of_mem _ hu)

/-- An open reader at the end of the script has nothing else ahead. -/
theorem Open.ahead_of_eof (h : r.Open) (heof : r.current.kind = .eof) :
    r.ahead = [r.final] := by
  obtain ⟨body, hbody, hkinds⟩ := h.ahead_eq
  cases body with
  | nil => exact hbody
  | cons t body =>
      have hcur : r.current = t := by rw [current, hbody]; rfl
      exact absurd (hcur ▸ heof) (hkinds t (by simp))

/-- The span from where tokens have been passed is the span of these tokens. -/
theorem Passes.reaching_eq (h : r.Passes ts r') (hne : ts ≠ []) :
    Span.reaching r.current.place r.current.stop r'.previous.stop = .ofTokens ts := by
  obtain ⟨t, ts, rfl⟩ := List.exists_cons_of_ne_nil hne
  have hcur : r.current = t := by rw [current, h.ahead_eq]; rfl
  rw [hcur, Span.ofTokens, previous, h.passed_eq]
  cases ts using List.reverseRecOn with
  | nil => rfl
  | append_singleton us u => simp

/-- From one reader to another by passing `ts`, with the end of the script still
ahead; and if no fault has been reported on the way, `ok` holds. -/
structure Leads (r : Reader) (ts : List Token) (ok : Prop) (r' : Reader) : Prop where
  passes : r.Passes ts r'
  isOpen : r'.Open
  sound : r'.faults = r.faults → ok

variable {P Q : Prop}

theorem Leads.refl (ho : r.Open) : r.Leads [] True r := ⟨.refl r, ho, fun _ => trivial⟩

theorem Leads.trans (h₁ : r.Leads ts P r') (h₂ : r'.Leads us Q r'') :
    r.Leads (ts ++ us) (P ∧ Q) r'' where
  passes := h₁.passes.trans h₂.passes
  isOpen := h₂.isOpen
  sound hf := by
    have hle₁ := h₁.passes.faults_le
    have hle₂ := h₂.passes.faults_le
    exact ⟨h₁.sound (by omega), h₂.sound (by omega)⟩

theorem Leads.imp (h : r.Leads ts P r') (hPQ : P → Q) : r.Leads ts Q r' :=
  ⟨h.passes, h.isOpen, fun hf => hPQ (h.sound hf)⟩

/-- Once a fault has been reported nothing is left to show. -/
theorem Leads.faulted (h : r.Leads ts P r') (t : Token) (message hint : Text) :
    r.Leads ts Q (r'.faulted t message hint) where
  passes := by
    have hp := h.passes.trans (r'.passes_faulted t message hint)
    rwa [List.append_nil] at hp
  isOpen := h.isOpen.faulted t message hint
  sound hf := by
    have hle := h.passes.faults_le
    rw [faults_faulted] at hf
    omega

theorem Leads.ahead_le (h : r.Leads ts P r') : r'.ahead.length ≤ r.ahead.length := by
  rw [h.passes.length_eq]
  exact Nat.le_add_left _ _

theorem Leads.ahead_lt {t : Token} (h : r.Leads (t :: ts) P r') :
    r'.ahead.length < r.ahead.length := by
  rw [h.passes.length_eq, List.length_cons]
  omega

/-- A step that leaves as many tokens ahead as before has passed none. -/
theorem Leads.of_stuck (h : r.Leads ts P r') (hlen : r'.ahead.length = r.ahead.length) :
    ts = [] ∧ r'.current = r.current := by
  have hts : ts = [] := by
    have hsum := h.passes.length_eq
    exact List.length_eq_zero_iff.mp (by omega)
  subst hts
  refine ⟨rfl, ?_⟩
  rw [current, current, h.passes.ahead_eq, h.passes.final_eq]
  rfl

/-- Once a token is passed, it is the one passed last. -/
theorem Leads.previous_eq {t : Token} (h : r.Leads [t] P r') : r'.previous = t := by
  rw [previous, h.passes.passed_eq]
  rfl

/-- Once a token is passed, the one after it is next. -/
theorem Leads.current_eq_peek {t : Token} (h : r.Leads [t] P r') : r'.current = r.peek := by
  rw [current, peek, h.passes.ahead_eq, h.passes.final_eq]
  rfl

theorem Open.leads_advance (h : r.Open) (hne : r.current.kind ≠ .eof) :
    r.Leads [r.current] True r.advance :=
  ⟨(h.advance hne).1, (h.advance hne).2, fun _ => trivial⟩

end Reader

namespace Read

/-- What a rule comes to: it passes tokens, and if it has reported no fault, the
tokens and what it returns are related by `D`. -/
def Yields {α : Type} (D : List Token → α → Prop) (r : Reader) (a : α) (r' : Reader) : Prop :=
  ∃ ts, r.Leads ts (D ts a) r'

/-- A rule that ends wherever at most `n` tokens are ahead, and comes to `D`. -/
def Sound {α : Type} (n : Nat) (m : Read α) (D : List Token → α → Prop) : Prop :=
  ∀ r : Reader, r.Open → r.ahead.length ≤ n → Ends m r (Yields D r)

theorem Sound.mono {α : Type} {n k : Nat} {m : Read α} {D : List Token → α → Prop}
    (h : Sound n m D) (hk : k ≤ n) : Sound k m D :=
  fun r ho hlen => h r ho (Nat.le_trans hlen hk)

section

variable {α β : Type} {r : Reader}

/-- A rule followed by a step, by what the rule comes to. -/
theorem Ends.reads {m : Read α} {f : α → Read β} {D : List Token → α → Prop}
    {Q : β → Reader → Prop} (h : Ends m r (Yields D r))
    (hf : ∀ a s ts, r.Leads ts (D ts a) s → s.ahead.length ≤ r.ahead.length → Ends (f a) s Q) :
    Ends (m >>= f) r Q :=
  h.andThen fun a s ⟨ts, hs⟩ => hf a s ts hs hs.ahead_le

theorem Ends.fail {t : Token} {message hint : Text} {Q : Unit → Reader → Prop}
    (h : Q () (r.faulted t message hint)) : Ends (Read.fail t message hint) r Q :=
  ⟨_, (), _, .fail t message hint r, h⟩

/-- Expecting a token either passes it or reports a fault and stays. -/
theorem Ends.expect {kind : Token.Kind} {Q : Token → Reader → Prop}
    (hyes : r.current.kind = kind → Q r.current r.advance)
    (hno : ∀ message hint, r.current.kind ≠ kind →
      Q r.current (r.faulted r.current message hint)) : Ends (expect kind) r Q := by
  refine (Ends.current ?_).bind
  by_cases h : r.current.kind = kind
  · rw [if_pos h]
    exact .advance (hyes h)
  · rw [if_neg h]
    exact (Ends.fail (.pure (hno _ _ h))).bind

theorem Ends.spanFrom {start stop : Place} {Q : Span → Reader → Prop}
    (h : Q (.reaching start stop r.previous.stop) r) : Ends (Read.spanFrom start stop) r Q :=
  (Ends.previous (.pure h)).bind

/-- A loop that keeps `inv` and passes a token each time it goes on. -/
theorem Ends.iterate {step : α → Read (ForInStep α)} {a : α} {Q : α → Reader → Prop}
    (inv : α → Reader → Prop) (hstart : inv a r)
    (hstep : ∀ b s, inv b s → Ends (step b) s fun x s' =>
      match x with
      | .done c => Q c s'
      | .yield c => inv c s' ∧ s'.ahead.length < s.ahead.length) :
    Ends (Read.iterate step a) r Q := by
  have hloop : ∀ (fuel : Nat) (b : α) (s : Reader), inv b s → s.ahead.length < fuel →
      Ends (Read.iterate.loop step fuel b) s Q := by
    intro fuel
    induction fuel with
    | zero => intro b s _ hlen; omega
    | succ fuel ih =>
        intro b s hinv hlen
        rw [Read.iterate.loop]
        refine Ends.andThen (hstep b s hinv) fun x s' hx => ?_
        cases x with
        | done c => exact .pure hx
        | yield c => exact ih c s' hx.1 (by omega)
  refine (Ends.get ?_).bind
  exact hloop _ a r hstart (Nat.lt_succ_self _)

/-! Steps of an open reader. The end of the script is not among the kinds that
are passed or wanted. -/

/-- The next token is passed. -/
theorem Ends.pass {Q : Token → Reader → Prop} (ho : r.Open) (hne : r.current.kind ≠ .eof)
    (h : ∀ s, r.Leads [r.current] True s → s.ahead.length < r.ahead.length → Q r.current s) :
    Ends Read.advance r Q :=
  .advance (h _ (ho.leads_advance hne) (ho.leads_advance hne).ahead_lt)

theorem Ends.acceptOpen {kind : Token.Kind} {Q : Bool → Reader → Prop} (ho : r.Open)
    (hkind : kind ≠ .eof)
    (hyes : ∀ t s, r.Leads [t] (t.kind = kind) s → s.ahead.length < r.ahead.length → Q true s)
    (hno : r.current.kind ≠ kind → Q false r) : Ends (Read.accept kind) r Q := by
  refine .accept (fun hcur => ?_) hno
  have hstep := ho.leads_advance (hcur ▸ hkind)
  exact hyes _ _ (hstep.imp fun _ => hcur) hstep.ahead_lt

/-- After expecting a token: without a new fault it has been passed, and if it
was next it has been passed in any case. -/
theorem Ends.expectOpen {kind : Token.Kind} {Q : Token → Reader → Prop} (ho : r.Open)
    (hkind : kind ≠ .eof)
    (h : ∀ s ts, r.Leads ts (ts = [r.current] ∧ r.current.kind = kind) s →
      s.ahead.length ≤ r.ahead.length →
      (r.current.kind = kind → s.ahead.length < r.ahead.length) → Q r.current s) :
    Ends (Read.expect kind) r Q := by
  refine .expect (fun hcur => ?_) fun message hint hcur => ?_
  · have hstep := ho.leads_advance (hcur ▸ hkind)
    exact h _ _ (hstep.imp fun _ => ⟨rfl, hcur⟩) hstep.ahead_le fun _ => hstep.ahead_lt
  · exact h _ [] ((Reader.Leads.refl ho).faulted _ message hint) (Nat.le_refl _) fun hnext =>
      absurd hnext hcur

/-- A token that is next is passed when it is expected. -/
theorem Ends.expectNext {kind : Token.Kind} {Q : Token → Reader → Prop} (ho : r.Open)
    (hkind : kind ≠ .eof) (hcur : r.current.kind = kind)
    (h : ∀ s, r.Leads [r.current] True s → s.ahead.length < r.ahead.length → Q r.current s) :
    Ends (Read.expect kind) r Q := by
  have hstep := ho.leads_advance (hcur ▸ hkind)
  exact .expect (fun _ => h _ hstep hstep.ahead_lt) fun _ _ hne => absurd hcur hne

/-- The span from where a rule started is that of the tokens it has passed. -/
theorem Ends.span {s : Reader} {ts : List Token} {ok : Prop} {Q : Span → Reader → Prop}
    (h : r.Leads ts ok s) (hQ : ∀ span, (ts ≠ [] → span = .ofTokens ts) → Q span s) :
    Ends (Read.spanSince r.current) s Q :=
  .spanFrom (hQ _ h.passes.reaching_eq)

/-- A result that carries the span from where its rule started. -/
theorem Ends.spanned {s : Reader} {ts : List Token} {ok : Prop} {mk : Span → α}
    {D : List Token → α → Prop} (h : r.Leads ts ok s)
    (hD : ok → ts ≠ [] ∧ D ts (mk (.ofTokens ts))) :
    Ends (do return mk (← Read.spanSince r.current)) s (Yields D r) := by
  refine (Ends.span h fun span hspan => ?_).bind
  refine .pure ⟨ts, h.imp fun hok => ?_⟩
  rw [hspan (hD hok).1]
  exact (hD hok).2

end

/-! ## Whole executions -/

/-- Every reader on the way has been reached from the start and reaches the
end. -/
theorem Run.between {α : Type} {m : Read α} {r r' : Reader} {moments : List Reader} {a : α}
    (h : Run m r moments a r') :
    (∃ ts, r.Passes ts r') ∧
      ∀ s ∈ moments, (∃ ts, r.Passes ts s) ∧ ∃ ts, s.Passes ts r' := by
  have hadvance : ∀ s : Reader, ∃ ts, s.Passes ts s.advance := by
    intro s
    cases hs : s.ahead with
    | nil => exact ⟨[], by rw [Reader.advance, hs]; exact .refl s⟩
    | cons t rest =>
        refine ⟨[t], ?_⟩
        rw [Reader.advance, hs]
        exact ⟨hs, rfl, rfl, Nat.le_refl _⟩
  induction h with
  | pure a r => exact ⟨⟨[], .refl r⟩, fun s hs => by cases hs⟩
  | get r => exact ⟨⟨[], .refl r⟩, fun s hs => by cases hs⟩
  | advance r =>
      refine ⟨hadvance r, fun s hs => ?_⟩
      obtain rfl := List.mem_singleton.mp hs
      exact ⟨hadvance r, [], .refl _⟩
  | fail t message hint r =>
      refine ⟨⟨[], r.passes_faulted t message hint⟩, fun s hs => ?_⟩
      obtain rfl := List.mem_singleton.mp hs
      exact ⟨⟨[], r.passes_faulted t message hint⟩, [], .refl _⟩
  | bind _ _ ih₁ ih₂ =>
      obtain ⟨⟨ts, hts⟩, hfirst⟩ := ih₁
      obtain ⟨⟨us, hus⟩, hsecond⟩ := ih₂
      refine ⟨⟨ts ++ us, hts.trans hus⟩, fun s hs => ?_⟩
      rcases List.mem_append.mp hs with hs | hs
      · obtain ⟨hfrom, vs, hvs⟩ := hfirst s hs
        exact ⟨hfrom, vs ++ us, hvs.trans hus⟩
      · obtain ⟨⟨vs, hvs⟩, hto⟩ := hsecond s hs
        exact ⟨⟨ts ++ vs, hts.trans hvs⟩, hto⟩

/-- The number of tokens passed never falls in the course of an execution. -/
theorem Run.pairwise_position {α : Type} {m : Read α} {r r' : Reader}
    {moments : List Reader} {a : α} (h : Run m r moments a r') :
    (r :: moments).Pairwise fun s s' => s.position ≤ s'.position := by
  have hle : ∀ {s s' : Reader}, (∃ ts, s.Passes ts s') → s.position ≤ s'.position := by
    rintro s s' ⟨ts, hts⟩
    rw [hts.position_eq]
    exact Nat.le_add_right _ _
  induction h with
  | pure | get => exact List.pairwise_singleton _ _
  | advance r =>
      have hb := (Run.advance r).between.1
      simpa using hle hb
  | fail t message hint r => simp [Reader.position]
  | bind h₁ h₂ ih₁ ih₂ =>
      have hb₁ := h₁.between
      have hb₂ := h₂.between
      rw [List.pairwise_cons] at ih₁ ih₂ ⊢
      refine ⟨fun s hs => ?_, List.pairwise_append.mpr ⟨ih₁.2, ih₂.2, fun s hs s' hs' => ?_⟩⟩
      · rcases List.mem_append.mp hs with hs | hs
        · exact ih₁.1 s hs
        · exact Nat.le_trans (hle hb₁.1) (ih₂.1 s hs)
      · exact Nat.le_trans (hle (hb₁.2 s hs).2) (ih₂.1 s' hs')

end Read

end Zensight
