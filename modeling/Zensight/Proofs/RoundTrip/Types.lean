import Zensight.Proofs.RoundTrip.Lists

/-!
# Reading types back

The suffixes of a type are read in a loop, each taking all that was read before
it as its element. So the tree of a type is followed from its innermost type
outwards: `typeAtom_gives` says that reading a type comes to going on with the
loop behind it, and the step for one more suffix is one round of that loop.
-/

namespace Zensight

open Piece Read Written

/-- Can a type begin with the token? -/
def Token.Kind.beginsType (kind : Token.Kind) : Bool :=
  kind.isPrimitive || kind == .ident || kind == .lbracket || kind == .kwFunction

theorem begins_path {path : List Text} (hne : path ≠ [])
    (hwords : ∀ segment ∈ path, Token.Kind.ofWord segment = .ident) :
    Begins (joined .dot (path.map word)) (· = .ident) := by
  obtain ⟨w, ws, rfl⟩ := List.exists_cons_of_ne_nil hne
  rw [List.map_cons, joined_cons]
  exact .append (.token (hwords w List.mem_cons_self))

theorem IsType.begins {t : Node} (h : IsType t) : Begins t.written (·.beginsType = true) := by
  induction h with
  | primitive hk => exact .token (by simp [Token.Kind.beginsType, hk])
  | named hne hwords =>
      refine (begins_path hne hwords).mono ?_
      rintro k rfl
      rfl
  | list =>
      rw [Node.written_listType]
      exact .append (.token rfl)
  | func =>
      rw [Node.written_funcType]
      exact .append (.token rfl)
  | array _ _ ih =>
      rw [Node.written_arrayType]
      exact .append ih
  | map _ _ _ ih =>
      rw [Node.written_mapType]
      exact .append ih
  | intersection _ _ ih =>
      rw [Node.written_intersectionType]
      exact .append (ih _ List.mem_cons_self)

namespace Rule

variable {g : Grammar} {n : Nat} {ts more : List Token} {next : Token} {r : Reader}
  {report : Report}

/-! ## Qualified names -/

theorem path_loop (hnext : next.kind ≠ .dot) :
    ∀ {segments path : List Text} {ts : List Token} {r : Reader},
      (∀ segment ∈ segments, Token.Kind.ofWord segment = .ident) →
      Fits ((segments.map word).flatMap (sign .dot ++ ·)) ts →
      r.At (ts ++ next :: more) report →
      Gives (iterate pathSegment path) r fun path' s =>
        path' = path ++ segments ∧ s.At (next :: more) report := by
  intro segments
  induction segments with
  | nil =>
      intro path ts r _ hfits hr
      cases hfits
      refine .iterate ((Gives.check hr ((Gives.peekAny fun t => ?_).bind)).bind)
      rw [if_neg (by simp [hnext]), List.append_nil]
      exact .pure ⟨rfl, hr⟩
  | cons w segments ih =>
      intro path ts r hwords hfits hr
      rw [List.map_cons, List.flatMap_cons, List.append_assoc] at hfits
      obtain ⟨dot, us, rfl, hdot, hfits⟩ := hfits.of_sign
      obtain ⟨vs, us, rfl, hvs, hus⟩ := hfits.of_append
      obtain ⟨t, rfl, hk, hw⟩ := hvs.of_token
      rw [hwords w List.mem_cons_self] at hk
      refine .iterate ((Gives.check hr ((Gives.peek hr ?_).bind)).bind)
      rw [if_pos (by simp [hdot, hk])]
      refine (Gives.advance hr fun s hs => ?_).bind
      refine (Gives.advance hs fun s' (hs' : s'.At (us ++ next :: more) report) => ?_).bind
      rw [hw, List.append_cons path w segments]
      refine .pure ⟨?_, ih (fun x hx => hwords x (List.mem_cons_of_mem w hx)) hus hs'⟩
      have hboth : r.At (dot :: ([t] ++ (us ++ next :: more))) report := hr
      exact hboth.ahead_lt hs'

theorem namedType_gives {path : List Text} {span : Span} (hne : path ≠ [])
    (hwords : ∀ segment ∈ path, Token.Kind.ofWord segment = .ident)
    (hfits : Fits (Node.leaf (.namedType path) span).written ts) (hnext : next.kind ≠ .dot)
    (hr : r.At (ts ++ next :: more) report) :
    Regains namedType r (.leaf (.namedType path) span) (next :: more) report := by
  obtain ⟨w, segments, rfl⟩ := List.exists_cons_of_ne_nil hne
  rw [Node.written_leaf, Form.write, List.map_cons, joined_cons] at hfits
  obtain ⟨us, vs, rfl, hus, hvs⟩ := hfits.of_append
  obtain ⟨t, rfl, hk, hw⟩ := hus.of_token
  rw [hwords w List.mem_cons_self] at hk
  refine (Gives.expect hr hk fun s hs => ?_).bind
  rw [if_neg (by simp [hk]), hw]
  refine (path_loop hnext (fun x hx => hwords x (List.mem_cons_of_mem w hx)) hvs hs).andThen ?_
  rintro path' s' ⟨rfl, hs'⟩
  exact (Gives.spanFrom fun _ => .pure ⟨rfl, hs'⟩).bind

/-! ## Types without suffixes -/

/-- Is it the form of a type that begins with its own token? -/
def isStem : Form → Bool
  | .primitiveType _ | .namedType _ | .listType | .funcType => true
  | _ => false

/-- What the loop of suffixes starts from. -/
theorem typeStem_gives {t : Node} (hg : g.Complete n) (ht : IsType t)
    (hstem : isStem t.form = true)
    (hnext : next.kind ≠ .dot ∧ (t.form = .funcType → next.kind.endsAtom = true))
    (hfits : Fits t.written ts) (hr : r.At (ts ++ next :: more) report)
    (hlen : (ts ++ next :: more).length ≤ n + 1) :
    Gives (typeStem g r.current) r fun stem s =>
      ∃ t', stem = some t' ∧ t'.bare = t.bare ∧ s.At (next :: more) report := by
  cases ht with
  | @primitive kind span hk =>
      obtain ⟨u, rfl, rfl⟩ := Fits.of_lastSign hfits
      rw [hr.current_eq, typeStem, if_pos hk]
      refine (Gives.advance hr fun s hs => ?_).bind
      exact (Gives.spanFrom fun _ => .pure ⟨_, rfl, rfl, hs⟩).bind
  | @named path span hne hwords =>
      obtain ⟨u, us, rfl, hu⟩ := begins_path hne hwords ts hfits
      rw [hr.current_eq, typeStem, hu, if_neg (by decide)]
      refine (namedType_gives hne hwords hfits hnext.1 hr).andThen ?_
      rintro t' s ⟨ht', hs⟩
      exact .pure ⟨t', rfl, ht', hs⟩
  | @list e span he =>
      rw [Node.written_listType] at hfits
      obtain ⟨lb, us, rb, hlb, hus, hrb, hts⟩ := hfits.of_bracketed
      rw [hts] at hr hlen
      rw [hr.current_eq, typeStem, hlb, if_neg (by decide)]
      refine (Gives.advance hr fun s hs => ?_).bind
      refine (hg.type.regains he hus (by rw [hrb]; rfl) hs (Nat.le_of_succ_le_succ hlen)).andThen ?_
      rintro e' s₁ ⟨he', hs₁⟩
      refine (Gives.expect hs₁ hrb fun s₂ hs₂ => ?_).bind
      refine (Gives.spanFrom fun _ => .pure ⟨_, rfl, ?_, hs₂⟩).bind
      simp [he']
  | @func params result span hparams hresult hatom =>
      rw [Node.written_funcType] at hfits
      obtain ⟨fn, us, rfl, hfn, hfits⟩ := hfits.of_sign
      obtain ⟨lp, us, rfl, hlp, hfits⟩ := hfits.of_sign
      obtain ⟨us, vs, rfl, hus, hfits⟩ := hfits.of_append
      obtain ⟨rp, vs, rfl, hrp, hvs⟩ := hfits.of_sign
      have hall : fn :: lp :: (us ++ rp :: vs) ++ next :: more =
          fn :: lp :: (us ++ rp :: (vs ++ next :: more)) := by simp
      rw [hall] at hr hlen
      rw [hr.current_eq, typeStem, hfn, if_neg (by decide)]
      refine (Gives.advance hr fun s hs => ?_).bind
      refine (Gives.expect hs hlp fun s₁ hs₁ => ?_).bind
      have hlen₁ : (us ++ rp :: (vs ++ next :: more)).length ≤ n := by
        simp only [List.length_cons, List.length_append] at hlen ⊢
        omega
      have hbegins : ∀ {p : Node}, IsType p → Begins p.written fun k => k ≠ .rparen ∧ k ≠ .eof := by
        intro p hp
        refine hp.begins.mono fun k hk => ⟨?_, ?_⟩ <;> rintro rfl <;> exact absurd hk (by decide)
      refine (commaList_loop hrp hg.type hbegins rfl rfl (by decide) hparams rfl hus hs₁
        hlen₁).andThen ?_
      rintro params' s₂ ⟨hparams', hs₂⟩
      refine (Gives.expect hs₂ hrp fun s₃ hs₃ => ?_).bind
      refine (hg.typeAtom.regains ⟨hresult, hatom⟩ hvs (hnext.2 rfl) hs₃ ?_).andThen ?_
      · simp only [List.length_cons, List.length_append] at hlen ⊢
        omega
      rintro result' s₄ ⟨hresult', hs₄⟩
      refine (Gives.spanFrom fun _ => .pure ⟨_, rfl, ?_, hs₄⟩).bind
      simp [hresult', hparams']
  | array | map | intersection => cases hstem

/-! ## Types with suffixes -/

theorem typeAtom_of_stem {t : Node} {Q : Node → Reader → Prop} (hg : g.Complete n)
    (ht : IsType t)
    (hstem : isStem t.form = true)
    (hfits : Fits t.written ts)
    (hnext : next.kind ≠ .dot ∧ (t.form = .funcType → next.kind.endsAtom = true))
    (hr : r.At (ts ++ next :: more) report) (hlen : (ts ++ next :: more).length ≤ n + 1)
    (hQ : ∀ first t' s, t'.bare = t.bare → s.At (next :: more) report →
      Gives (iterate (typeSuffix g first) t') s Q) :
    Gives (typeAtom g) r Q := by
  obtain ⟨u, us, rfl, -⟩ := ht.begins ts hfits
  have hread := typeStem_gives hg ht hstem hnext hfits hr hlen
  rw [hr.current_eq] at hread
  refine (Gives.current hr ?_).bind
  refine hread.andThen ?_
  rintro stem s ⟨t', rfl, ht', hs⟩
  exact hQ u t' s ht' hs

/-- Reading a type comes to going on with the loop of suffixes behind it. -/
theorem typeAtom_gives {t : Node} (hg : g.Complete n) (ht : IsType t) :
    ∀ {ts more : List Token} {next : Token} {r : Reader} {Q : Node → Reader → Prop},
      t.form.isAtom = true → Fits t.written ts →
      next.kind ≠ .dot ∧ (t.form = .funcType → next.kind.endsAtom = true) →
      r.At (ts ++ next :: more) report → (ts ++ next :: more).length ≤ n + 1 →
      (∀ first t' s, t'.bare = t.bare → s.At (next :: more) report →
        Gives (iterate (typeSuffix g first) t') s Q) →
      Gives (typeAtom g) r Q := by
  induction ht with
  | primitive hk =>
      intro ts more next r Q _ hfits hnext hr hlen hQ
      exact typeAtom_of_stem hg (.primitive hk) rfl hfits hnext hr hlen hQ
  | named hne hwords =>
      intro ts more next r Q _ hfits hnext hr hlen hQ
      exact typeAtom_of_stem hg (.named hne hwords) rfl hfits hnext hr hlen hQ
  | list he =>
      intro ts more next r Q _ hfits hnext hr hlen hQ
      exact typeAtom_of_stem hg (.list he) rfl hfits hnext hr hlen hQ
  | func hparams hresult hatom =>
      intro ts more next r Q _ hfits hnext hr hlen hQ
      exact typeAtom_of_stem hg (.func hparams hresult hatom) rfl hfits hnext hr hlen hQ
  | @array e span _ hsuffix ih =>
      intro ts more next r Q _ hfits _ hr hlen hQ
      obtain ⟨hatom, hfunc⟩ := Form.atom_of_takesSuffix hsuffix
      rw [Node.written_arrayType] at hfits
      obtain ⟨us, vs, rfl, hus, hfits⟩ := hfits.of_append
      obtain ⟨lb, vs, rfl, hlb, hvs⟩ := hfits.of_sign
      obtain ⟨rb, rfl, hrb⟩ := hvs.of_lastSign
      rw [List.append_assoc] at hr hlen
      refine ih hatom hus ⟨by rw [hlb]; decide, fun h => absurd h hfunc⟩ hr hlen ?_
      intro first e' s he' hs
      refine .iterate ((Gives.accept hs hlb fun s₁ hs₁ => ?_).bind)
      refine (Gives.accept hs₁ hrb fun s₂ hs₂ => ?_).bind
      refine (Gives.spanFrom fun span' => .pure ⟨?_, hQ first _ s₂ ?_ hs₂⟩).bind
      · rw [hs.ahead_eq, hs₂.ahead_eq]
        simp
      · simp [he']
  | @map v k span _ hsuffix hk ih =>
      intro ts more next r Q _ hfits _ hr hlen hQ
      obtain ⟨hatom, hfunc⟩ := Form.atom_of_takesSuffix hsuffix
      rw [Node.written_mapType] at hfits
      obtain ⟨us, vs, rfl, hus, hfits⟩ := hfits.of_append
      obtain ⟨lb, ks, rb, hlb, hks, hrb, hts⟩ := hfits.of_bracketed
      rw [List.append_assoc, hts] at hr hlen
      refine ih hatom hus ⟨by rw [hlb]; decide, fun h => absurd h hfunc⟩ hr hlen ?_
      intro first v' s hv' hs
      -- The key begins like a type, so the brackets are not empty.
      obtain ⟨u, ks, rfl, hu⟩ := hk.begins ks hks
      have hne : u.kind ≠ .rbracket := by
        intro h
        rw [h] at hu
        cases hu
      refine .iterate ((Gives.accept hs hlb fun s₁ hs₁ => ?_).bind)
      refine (Gives.decline hs₁ hne ?_).bind
      refine (hg.type.regains hk hks (by rw [hrb]; rfl) hs₁ (length_behind hlen)).andThen ?_
      rintro k' s₂ ⟨hk', hs₂⟩
      refine (Gives.expect hs₂ hrb fun s₃ hs₃ => ?_).bind
      refine (Gives.spanFrom fun span' => .pure ⟨?_, hQ first _ s₃ ?_ hs₃⟩).bind
      · rw [hs.ahead_eq, hs₃.ahead_eq]
        simp only [List.length_cons, List.length_append]
        omega
      · simp [hv', hk']
  | intersection => intro ts more next r Q hatom; cases hatom

theorem typeAtom_complete (hg : g.Complete n) :
    Read.Complete (n + 1) (typeAtom g) (fun t => IsType t ∧ t.form.isAtom = true)
      (·.endsAtom = true) := by
  constructor
  rintro t ts more next r report ⟨ht, hatom⟩ hfits hstop hr hlen
  have hne : next.kind ≠ .dot ∧ next.kind ≠ .lbracket := by
    constructor <;> intro h <;> rw [h] at hstop <;> cases hstop
  refine typeAtom_gives hg ht hatom hfits ⟨hne.1, fun _ => hstop⟩ hr hlen ?_
  intro first t' s ht' hs
  exact .iterate ((Gives.decline hs hne.2 (.pure ⟨ht', hs⟩)).bind)

theorem type_complete (hg : g.Complete n) :
    Read.Complete (n + 1) (type g) IsType (·.endsType = true) := by
  constructor
  intro t ts more next r report ht hfits hstop hr hlen
  have hends := Token.Kind.endsAtom_of_endsType hstop
  by_cases hatom : t.form.isAtom = true
  · refine ((typeAtom_complete hg).regains ⟨ht, hatom⟩ hfits hends.1 hr hlen).andThen ?_
    rintro t' s ⟨ht', hs⟩
    refine (Gives.check hs ?_).bind
    rw [if_neg (by simp [hends.2])]
    exact .pure ⟨ht', hs⟩
  · cases ht with
    | @intersection first second rest span htypes hatoms =>
        rw [Node.written_intersectionType] at hfits
        obtain ⟨us, vs, rfl, hus, hvs⟩ := hfits.of_append
        have htail := hvs
        rw [List.map_cons, List.flatMap_cons, List.append_assoc] at htail
        obtain ⟨amp, ws, rfl, hamp, -⟩ := htail.of_sign
        rw [List.append_assoc] at hr hlen
        have hfirst : IsType first ∧ first.form.isAtom = true :=
          ⟨htypes first List.mem_cons_self, hatoms first List.mem_cons_self⟩
        have hrest : ∀ t ∈ second :: rest, IsType t ∧ t.form.isAtom = true := fun t ht =>
          ⟨htypes t (List.mem_cons_of_mem first ht), hatoms t (List.mem_cons_of_mem first ht)⟩
        refine ((typeAtom_complete hg).regains hfirst hus (by rw [hamp]; rfl) hr hlen).andThen ?_
        rintro first' s ⟨hfirst', hs⟩
        refine (Gives.check hs ?_).bind
        rw [if_pos (by simp [hamp])]
        refine (separated_gives (typeAtom_complete hg) (by rfl) hends.1 hends.2 hfirst' hrest hvs hs
          ?_).andThen ?_
        · simp only [List.length_append] at hlen ⊢
          omega
        rintro types s' ⟨htypes', hs'⟩
        refine .pure ⟨?_, hs'⟩
        simp [htypes']
    | _ => exact absurd rfl hatom

end Rule

end Zensight
