import Zensight.Proofs.Pending
import Zensight.Proofs.Reports

/-!
# What the report calls unresolved has no type

The report on a script names identifiers that mean nothing and accesses to members that do not
exist. For both the type is `any`.

For an identifier the check and the rule of typing ask the same question. For an access `a.b` the
check asks three questions one after the other, each on its own: for the type of `a`, for members
named `b`, and for an operator that takes the name. The rule asks them while the access is being
typed, and a call `a.b(..)` asks them while the call is. That these have the same answers does not
follow from the guard being transparent, for `a` may well depend on the access, as in a variable
that is declared by it. But then the access is `any` all the same when `a` is being typed: it is
silent about its receiver (`silent_member`), and so is the call (`silent_call`).
-/

namespace Zensight

namespace View

variable {v : View} {pending : List NodeRef} {m x call : NodeRef} {t : Ty}

theorem memberNamed?_any (name : Text) : v.memberNamed? .any name = pure none := by
  rw [memberNamed?, memberCandidates]
  split <;> rfl

theorem memberCandidates_any (name : Text) : v.memberCandidates .any name = pure [] := by
  rw [memberCandidates]
  split <;> rfl

theorem Told.of_partType {role : Role} (h : v.Told pending (v.partType m role) t)
    (hx : v.part? m role = some x) : Resolves v pending x t := by
  rw [partType, hx] at h
  exact h.of_typeOf

/-! ## Accesses and calls are silent about the receiver -/

section

variable (hmember : (v.entry m).form = .memberExpr) (hx : v.part? m .operand = some x)

include hmember hx

/-- An access is `any` if its receiver is. -/
theorem silent_member : v.Silent x m := by
  intro pending t hpending h
  by_cases hm : m ∈ pending
  · exact h.eq_any hm
  · have hrule := h.told hm
    rw [rule, hmember] at hrule
    obtain ⟨r, hr, hrule⟩ := hrule.of_bind
    cases (hr.of_partType hx).eq_any (List.mem_cons_of_mem _ hpending)
    rw [memberNamed?_any] at hrule
    exact hrule.of_pure

/-- So is a call of the access. -/
theorem silent_call (hcall : (v.entry call).form = .callExpr)
    (hcallee : v.part? call .callee = some m) : v.Silent x call := by
  intro pending t hpending h
  by_cases hm : call ∈ pending
  · exact h.eq_any hm
  · have hin : x ∈ call :: pending := List.mem_cons_of_mem _ hpending
    have hrule := h.told hm
    rw [rule, hcall] at hrule
    obtain ⟨candidates, hcandidates, hrule⟩ := hrule.of_bind
    simp only [callCandidates, hcallee, hmember] at hcandidates
    obtain ⟨r, hr, hcandidates⟩ := hcandidates.of_bind
    cases (hr.of_partType hx).eq_any hin
    rw [memberCandidates_any] at hcandidates
    cases hcandidates.of_pure
    obtain ⟨u, hu, hrule⟩ := hrule.of_bind
    cases silent_member hmember hx _ _ hin (hu.of_partType hcallee)
    exact hrule.of_pure

end

/-! ## Accesses to what is not there -/

/-- The receiver is a class with neither a member of the name that is accessed nor an operator
that takes it, each asked for on its own. -/
structure Lacks (v : View) (m x : NodeRef) (c : ClassType) : Prop where
  form_eq : (v.entry m).form = .memberExpr
  operand_eq : v.part? m .operand = some x
  typeOf_eq : v.typeOf x = .classType c
  members : v.answer (v.memberCandidates (.classType c)
    ((v.script m.script).partName m.node .name)) = []
  operators : v.answer (v.operatorCandidates (.classType c) .memberGet) = []

theorem lt_of_part? (hv : ∀ id, (v.script id).Parsed) {role : Role} (h : v.part? m role = some x) :
    m.node < x.node := by
  obtain ⟨hscript, hpart⟩ := mem_parts_of_part? h
  exact ((hv m.script).isOutlined.mem_parts_iff.mp hpart).part.1

namespace Lacks

variable {c : ClassType} (h : v.Lacks m x c)

include h

/-- The receiver is that class also to those that are silent about it. -/
theorem receiver_eq (hx : x ∉ pending) (hsilent : ∀ k ∈ pending, v.Silent x k)
    (hr : v.Told pending (v.partType m .operand) t) : t = .classType c := by
  rw [← h.typeOf_eq]
  exact (resolves_of_silent hx hsilent).unique (hr.of_partType h.operand_eq)

variable (hv : ∀ id, (v.script id).Parsed) (hplain : v.Plain)

include hv hplain

/-- The access is `any`, whatever else is silent about the receiver and pending. -/
theorem member_any (hsilent : ∀ k ∈ pending, v.Silent x k) (hx : x ∉ pending)
    (htypes : ∀ k ∈ pending, ¬ v.TypeLike k) (ht : Resolves v pending m t) : t = .any := by
  by_cases hm : m ∈ pending
  · exact ht.eq_any hm
  · have hne : x ≠ m := fun heq => Nat.lt_irrefl _ (heq ▸ lt_of_part? hv h.operand_eq)
    have hsilent' : ∀ k ∈ m :: pending, v.Silent x k :=
      List.forall_mem_cons.mpr ⟨silent_member h.form_eq h.operand_eq, hsilent⟩
    have htypes' : ∀ k ∈ m :: pending, ¬ v.TypeLike k :=
      List.forall_mem_cons.mpr ⟨not_typeLike h.form_eq rfl (fun _ h => by cases h), htypes⟩
    have hx' : x ∉ m :: pending := by simp [hne, hx]
    have hrule := ht.told hm
    rw [rule, h.form_eq] at hrule
    obtain ⟨r, hr, hrule⟩ := hrule.of_bind
    cases h.receiver_eq hx' hsilent' hr
    obtain ⟨s, hs, hrule⟩ := hrule.of_bind
    obtain ⟨members, hmembers, hs⟩ := hs.of_bind
    cases (hmembers.eq_answer (typeLike_closed hv) (asksOnly_memberCandidates hv hplain c _)
      htypes').trans h.members
    cases hs.of_pure
    obtain ⟨operators, hoperators, hrule⟩ := hrule.of_bind
    cases (hoperators.eq_answer (typeLike_closed hv) (asksOnly_operatorCandidates hv hplain c _)
      htypes').trans h.operators
    exact hrule.of_pure

theorem typeOf_member : v.typeOf m = .any :=
  h.member_any hv hplain (List.forall_mem_nil _) List.not_mem_nil (List.forall_mem_nil _)
    (v.typeOf_resolves m)

/-- So is a call of it. -/
theorem typeOf_call (hcall : (v.entry call).form = .callExpr)
    (hcallee : v.part? call .callee = some m) : v.typeOf call = .any := by
  have hne : x ≠ call := by
    rintro rfl
    exact Nat.lt_asymm (lt_of_part? hv h.operand_eq) (lt_of_part? hv hcallee)
  have hsilent : ∀ k ∈ [call], v.Silent x k :=
    List.forall_mem_singleton.mpr (silent_call h.form_eq h.operand_eq hcall hcallee)
  have htypes : ∀ k ∈ [call], ¬ v.TypeLike k := by
    exact List.forall_mem_singleton.mpr (not_typeLike hcall rfl fun _ h => by cases h)
  have hx : x ∉ [call] := by simpa using hne
  have hrule := (v.typeOf_resolves call).told List.not_mem_nil
  rw [rule, hcall] at hrule
  obtain ⟨candidates, hcandidates, hrule⟩ := hrule.of_bind
  simp only [callCandidates, hcallee, h.form_eq] at hcandidates
  obtain ⟨r, hr, hcandidates⟩ := hcandidates.of_bind
  cases h.receiver_eq hx hsilent hr
  cases (hcandidates.eq_answer (typeLike_closed hv) (asksOnly_memberCandidates hv hplain c _)
    htypes).trans h.members
  obtain ⟨u, hu, hrule⟩ := hrule.of_bind
  cases h.member_any hv hplain hsilent hx htypes (hu.of_partType hcallee)
  exact hrule.of_pure

end Lacks

/-! ## Identifiers that mean nothing -/

/-- An identifier that refers to something does not stand as a name. -/
theorem identType_of_reference {n : NodeRef} {name : Text}
    (hreference : Lint.reference? v n = some name) :
    (v.entry n).form = .ident name ∧ v.identType n name = v.symbolType? (v.lookup? n name) := by
  rw [Lint.reference?] at hreference
  split at hreference
  · next name' hform =>
      split at hreference
      · next hrefers =>
          cases hreference
          simp only [Lint.isReference, Lint.isNaming, Rule.isPlaceholder, Bool.and_eq_true,
            Bool.not_eq_true', Bool.or_eq_false_iff, beq_eq_false_iff_ne] at hrefers
          obtain ⟨⟨⟨hname, -⟩, -⟩, hnaming⟩ := hrefers
          refine ⟨hform, ?_⟩
          rw [identType]
          cases hparent : v.parent? n with
          | none => simp only [if_neg hname]
          | some p =>
              simp only [hparent, Bool.or_eq_false_iff, beq_eq_false_iff_ne] at hnaming
              obtain ⟨⟨⟨hnot, hlocal⟩, hloop⟩, -⟩ := hnaming
              have hindex : (v.partsOf p .loopVar).idxOf? n = none := by
                simpa using hloop
              simp only [hnot, hlocal, hindex, if_neg hname, or_self, if_false]
      · cases hreference
  · cases hreference

/-- An identifier that refers to nothing is `any`. -/
theorem typeOf_unresolved {n : NodeRef} {name : Text} (hreference : Lint.reference? v n = some name)
    (hlookup : v.lookup? n name = none) : v.typeOf n = .any := by
  obtain ⟨hform, htype⟩ := identType_of_reference hreference
  have hrule := (v.typeOf_resolves n).told List.not_mem_nil
  rw [rule, hform] at hrule
  simp only [htype, hlookup] at hrule
  exact hrule.of_pure

end View

namespace Environment

variable {e : Environment} {id : ScriptId}

theorem Reports.reference {n : NodeId} {d : Diagnostic}
    (h : e.Reports id .unresolvedName n d) : ∃ name,
      Lint.reference? e.view ⟨id, n⟩ = some name ∧ e.view.lookup? ⟨id, n⟩ name = none ∧
      d.line = (e.view.entry ⟨id, n⟩).span.start.line ∧
      d.column = (e.view.entry ⟨id, n⟩).span.start.column := by
  obtain ⟨-, f, hf, rfl⟩ := h
  rw [Lint.check, Lint.unresolvedName] at hf
  split at hf
  · next name hreference =>
      split at hf
      · next hlookup =>
          cases List.mem_singleton.mp hf
          exact ⟨name, hreference, Option.isNone_iff_eq_none.mp hlookup, rfl, rfl⟩
      · cases hf
  · cases hf

theorem Reports.lacks {m : NodeId} {d : Diagnostic} (h : e.Reports id .unknownMember m d) :
    ∃ x c name, e.view.Lacks ⟨id, m⟩ x c ∧ e.view.part? ⟨id, m⟩ .name = some name ∧
      d.line = (e.view.entry name).span.start.line ∧
      d.column = (e.view.entry name).span.start.column := by
  obtain ⟨-, f, hf, rfl⟩ := h
  rw [Lint.check, Lint.unknownMember] at hf
  split at hf
  · next x name hform hoperand hname =>
      have hpart : (Lint.scriptOf e.view ⟨id, m⟩).identName name.node =
          (e.view.script id).partName m .name := by
        obtain ⟨n, hn, rfl⟩ := Option.map_eq_some_iff.mp hname
        rw [Script.partName, show ((e.view.script id).entry m).get? .name = some n from hn]
        rfl
      dsimp only at hf
      split at hf
      · cases hf
      · split at hf
        · next c hc =>
            split at hf
            · next hlacks =>
                cases List.mem_singleton.mp hf
                simp only [Bool.and_eq_true, List.isEmpty_iff, hpart] at hlacks
                exact ⟨x, c, name, ⟨hform, hoperand, hc, hlacks.1.2, hlacks.2⟩, hname, rfl, rfl⟩
            · cases hf
        · cases hf
  · cases hf

/-- What the report calls unresolved is `any`: an identifier that means nothing, an access to a
member that is not there, and a call of it, also where they depend on each other. -/
theorem unresolved_any (he : e.Reachable) (id : ScriptId) :
    (∀ t d, (d ∈ (e.lint id).items ∧ d.code = Lint.Topic.code t) ↔ ∃ n, e.Reports id t n d) ∧
    (∀ n d, e.Reports id .unresolvedName n d →
      (∃ name, (e.view.entry ⟨id, n⟩).form = .ident name) ∧
      d.line = (e.view.entry ⟨id, n⟩).span.start.line ∧
      d.column = (e.view.entry ⟨id, n⟩).span.start.column ∧
      e.view.typeOf ⟨id, n⟩ = .any) ∧
    ∀ m d, e.Reports id .unknownMember m d →
      (e.view.entry ⟨id, m⟩).form = .memberExpr ∧
      (∃ name, e.view.part? ⟨id, m⟩ .name = some name ∧
        d.line = (e.view.entry name).span.start.line ∧
        d.column = (e.view.entry name).span.start.column) ∧
      e.view.typeOf ⟨id, m⟩ = .any ∧
      ∀ call, (e.view.entry call).form = .callExpr → e.view.part? call .callee = some ⟨id, m⟩ →
        e.view.typeOf call = .any := by
  have hv : ∀ id, (e.view.script id).Parsed := he.script_parsed
  have hplain := View.plain_view he
  refine ⟨fun t d => e.mem_lint_iff id, fun n d h => ?_, fun m d h => ?_⟩
  · obtain ⟨name, hreference, hlookup, hline, hcolumn⟩ := h.reference
    exact ⟨⟨name, (View.identType_of_reference hreference).1⟩, hline, hcolumn,
      View.typeOf_unresolved hreference hlookup⟩
  · obtain ⟨x, c, name, hlacks, hname, hplace⟩ := h.lacks
    exact ⟨hlacks.form_eq, ⟨name, hname, hplace⟩, hlacks.typeOf_member hv hplain,
      fun call hcall hcallee => hlacks.typeOf_call hv hplain hcall hcallee⟩

/-- A variable that an access to itself is an argument for, and names that mean nothing. -/
def cyclicAccess : Environment :=
  ((({ root := txt "scripts" } : Environment).intern
    (Script.parse (txt "a") (txt "scripts.a")
      (txt "zenClass A\x7b\x7d" ++ txt "function g(x as int)as A\x7b\x7d" ++
        txt "function g(x as string)as A\x7b\x7d" ++ txt "var a=g(a.b);a.b();z;"))).2).replace 0

theorem cyclicAccess_unresolved_any :
    cyclicAccess.Reachable ∧ (∃ d, cyclicAccess.Reports 0 .unresolvedName 30 d) ∧
    (∃ d, cyclicAccess.Reports 0 .unknownMember 21 d) ∧
    (∃ d, cyclicAccess.Reports 0 .unknownMember 26 d) ∧
    cyclicAccess.view.typeOf ⟨0, 30⟩ = .any ∧ cyclicAccess.view.typeOf ⟨0, 21⟩ = .any ∧
    cyclicAccess.view.typeOf ⟨0, 25⟩ = .any := by
  have he : cyclicAccess.Reachable := .replace (.read _ _ _ (.new _)) (by decide)
  have hreports {t : Lint.Topic} {n : NodeId} (hn : n ∈ (cyclicAccess.script 0).nodes)
      (hfound : 0 < (Lint.check cyclicAccess.view ⟨0, n⟩ (cyclicAccess.referents 0) t).length) :
      ∃ d, cyclicAccess.Reports 0 t n d := by
    obtain ⟨f, hf⟩ := List.exists_mem_of_length_pos hfound
    exact ⟨_, hn, f, hf, rfl⟩
  -- All that is computed about the script is computed at once.
  obtain ⟨⟨hname, hfirst, hsecond⟩, hname', hfirst', hsecond', hcall, hcallee⟩ :
      (30 ∈ (cyclicAccess.script 0).nodes ∧ 21 ∈ (cyclicAccess.script 0).nodes ∧
        26 ∈ (cyclicAccess.script 0).nodes) ∧
      0 < (Lint.unresolvedName cyclicAccess.view ⟨0, 30⟩).length ∧
      0 < (Lint.unknownMember cyclicAccess.view ⟨0, 21⟩).length ∧
      0 < (Lint.unknownMember cyclicAccess.view ⟨0, 26⟩).length ∧
      (cyclicAccess.view.entry ⟨0, 25⟩).form = .callExpr ∧
      cyclicAccess.view.part? ⟨0, 25⟩ .callee = some ⟨0, 26⟩ := by
    decide +kernel
  obtain ⟨d, hd⟩ := hreports (t := .unresolvedName) hname hname'
  obtain ⟨d', hd'⟩ := hreports (t := .unknownMember) hfirst hfirst'
  obtain ⟨d'', hd''⟩ := hreports (t := .unknownMember) hsecond hsecond'
  obtain ⟨-, hnames, hmembers⟩ := unresolved_any he 0
  exact ⟨he, ⟨d, hd⟩, ⟨d', hd'⟩, ⟨d'', hd''⟩, (hnames 30 d hd).2.2.2, (hmembers 21 d' hd').2.2.1,
    (hmembers 26 d'' hd'').2.2.2 ⟨0, 25⟩ hcall hcallee⟩

end Environment

end Zensight
