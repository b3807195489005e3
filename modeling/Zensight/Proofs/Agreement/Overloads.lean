import Zensight.Proofs.Agreement.Members

/-!
# Overloads in views that agree

Choosing among overloads, by call or by operator, ranks the arguments against each
candidate in turn. Two views that agree on the scripts of the candidates and of the
arguments make the same choice, and it is one of the candidates.
-/

namespace Zensight.View.Agrees

open Inquiry (Same)

variable {P : ScriptId → Prop} {v v' : View}

theorem rankArguments (hv : v.Agrees P v') (args params : List Ty) (hargs : TypesWithin P args) :
    ∀ worst, Same P (fun _ => True) (v.rankArguments worst args params)
      (v'.rankArguments worst args params) := by
  induction args generalizing params with
  | nil => intro worst; cases params <;> exact .pure trivial
  | cons a args ih =>
      intro worst
      cases params with
      | nil => exact .pure trivial
      | cons p params =>
          unfold View.rankArguments
          refine (hv.rank a p (hargs a List.mem_cons_self)).bind fun r _ => ?_
          dsimp only
          split
          · exact .pure trivial
          · exact ih params (fun b hb => hargs b (List.mem_cons_of_mem _ hb)) _

theorem rankExecutable (hv : v.Agrees P v') {s : Symbol} (hs : s.Within P) {args : List Ty}
    (hargs : TypesWithin P args) :
    Same P (fun _ => True) (v.rankExecutable s args) (v'.rankExecutable s args) := by
  unfold View.rankExecutable
  refine (hv.symbolType hs).bind fun t _ => ?_
  split
  · dsimp only
    split
    · exact .pure trivial
    · exact hv.rankArguments args _ hargs _
  · exact .pure trivial

theorem findBestFrom (hv : v.Agrees P v') {args : List Ty} (hargs : TypesWithin P args)
    (ss : List Symbol) (hss : SymbolsWithin P ss) : ∀ best bestRank, (∀ s ∈ best, s.Within P) →
    Same P (fun s => ∀ u ∈ s, u.Within P) (v.findBestFrom args best bestRank ss)
      (v'.findBestFrom args best bestRank ss) := by
  induction ss with
  | nil => intro best bestRank hbest; exact .pure hbest
  | cons s ss ih =>
      intro best bestRank hbest
      have hs := hss s List.mem_cons_self
      have hrest := ih fun u hu => hss u (List.mem_cons_of_mem _ hu)
      unfold View.findBestFrom
      refine (hv.rankExecutable hs hargs).bind fun r _ => ?_
      split
      · exact hrest (some s) r (by simpa using hs)
      · exact hrest best bestRank hbest

theorem findBest (hv : v.Agrees P v') {ss : List Symbol} {args : List Ty}
    (hss : SymbolsWithin P ss) (hargs : TypesWithin P args) :
    Same P (fun s => ∀ u ∈ s, u.Within P) (v.findBest ss args) (v'.findBest ss args) :=
  hv.findBestFrom hargs ss hss none .mismatch (by simp)

theorem argumentsFit (hv : v.Agrees P v') (args params : List Ty) (hargs : TypesWithin P args) :
    Same P (fun _ => True) (v.argumentsFit args params) (v'.argumentsFit args params) := by
  induction args generalizing params with
  | nil => cases params <;> exact .pure trivial
  | cons a args ih =>
      cases params with
      | nil => exact .pure trivial
      | cons p params =>
          unfold View.argumentsFit
          refine (hv.rank a p (hargs a List.mem_cons_self)).bind fun r _ => ?_
          split
          · exact ih params fun b hb => hargs b (List.mem_cons_of_mem _ hb)
          · exact .pure trivial

theorem predictFrom (hv : v.Agrees P v') {known : List Ty} (hknown : TypesWithin P known)
    (ss : List Symbol) (hss : SymbolsWithin P ss) : ∀ predicted, (∀ t ∈ predicted, t.Within P) →
    Same P (Ty.Within P) (v.predictFrom known predicted ss)
      (v'.predictFrom known predicted ss) := by
  induction ss with
  | nil =>
      intro predicted hpredicted
      refine .pure ?_
      cases predicted with
      | none => exact .basic
      | some t => exact hpredicted t rfl
  | cons s ss ih =>
      intro predicted hpredicted
      have hrest := ih fun u hu => hss u (List.mem_cons_of_mem _ hu)
      unfold View.predictFrom
      refine (hv.symbolType (hss s List.mem_cons_self)).bind fun t ht => ?_
      cases ht with
      | @function params result hparams hresult =>
          dsimp only
          split
          · exact hrest predicted hpredicted
          · next next hnext =>
              refine (hv.argumentsFit known params hknown).bind fun b _ => ?_
              split
              · split
                · refine hrest (some next) fun u hu => ?_
                  cases hu
                  exact hparams next (List.mem_of_getElem? hnext)
                · split
                  · exact hrest _ hpredicted
                  · exact .pure .basic
              · exact hrest predicted hpredicted
      | _ => exact hrest predicted hpredicted

theorem predictNext (hv : v.Agrees P v') {ss : List Symbol} {known : List Ty}
    (hss : SymbolsWithin P ss) (hknown : TypesWithin P known) :
    Same P (Ty.Within P) (v.predictNext ss known) (v'.predictNext ss known) :=
  hv.predictFrom hknown ss hss none (by simp)

theorem lambdaForm? (hv : v.Agrees P v') {c : ClassType} (hc : c.Within P) :
    Same P (fun t => ∀ u ∈ t, u.Within P) (v.lambdaForm? c) (v'.lambdaForm? c) := by
  unfold View.lambdaForm?
  rw [hv.hierarchy.members_eq c hc]
  split
  · next f hf =>
      have hmem : f ∈ v.hierarchy.members c :=
        (List.mem_filter.mp (hf ▸ List.mem_singleton_self f)).1
      refine (hv.symbolType (hv.hierarchy.members_within c hc f hmem)).bind fun t ht => ?_
      split
      · exact .pure (by simpa using ht)
      · exact .pure (by simp)
  · exact .pure (by simp)

theorem functionShape? (hv : v.Agrees P v') {t : Ty} (ht : t.Within P) :
    Same P (fun u => ∀ w ∈ u, w.Within P) (v.functionShape? t) (v'.functionShape? t) := by
  cases ht with
  | function hps hr => exact .pure (by simpa using ⟨hps, hr⟩)
  | classType hc => exact hv.lambdaForm? hc
  | _ => exact .pure (by simp)

theorem rankOperands (hv : v.Agrees P v') (operands params : List Ty)
    (hoperands : TypesWithin P operands) :
    ∀ worst, Same P (fun _ => True) (v.rankOperands worst operands params)
      (v'.rankOperands worst operands params) := by
  induction operands generalizing params with
  | nil => intro worst; exact .pure trivial
  | cons o operands ih =>
      intro worst
      cases params with
      | nil => exact .pure trivial
      | cons p params =>
          refine (hv.rank o p (hoperands o List.mem_cons_self)).bind fun r _ => ?_
          exact ih params (fun b hb => hoperands b (List.mem_cons_of_mem _ hb)) _

theorem bestOperatorFrom (hv : v.Agrees P v') {operands : List Ty}
    (hoperands : TypesWithin P operands) (ss : List Symbol) (hss : SymbolsWithin P ss) :
    ∀ best, (∀ b ∈ best, b.1.Within P) →
      Same P (Ty.Within P) (v.bestOperatorFrom operands best ss)
        (v'.bestOperatorFrom operands best ss) := by
  induction ss with
  | nil =>
      intro best hbest
      refine .pure ?_
      cases best with
      | none => exact .basic
      | some b => exact (hbest b rfl).resultType
  | cons s ss ih =>
      intro best hbest
      have hrest := ih fun u hu => hss u (List.mem_cons_of_mem _ hu)
      unfold View.bestOperatorFrom
      refine (hv.symbolType (hss s List.mem_cons_self)).bind fun t ht => ?_
      cases ht with
      | @function params result hparams hresult =>
          refine (hv.rankOperands operands params hoperands .self).bind fun r _ => ?_
          refine hrest _ fun b hb => ?_
          split at hb
          · cases hb
            exact .function hparams hresult
          · split at hb
            · cases hb
              exact .function hparams hresult
            · exact hbest b hb
      | _ => exact hrest best hbest

theorem bestOperator (hv : v.Agrees P v') {ss : List Symbol} {operands : List Ty}
    (hss : SymbolsWithin P ss) (hoperands : TypesWithin P operands) :
    Same P (Ty.Within P) (v.bestOperator ss operands) (v'.bestOperator ss operands) :=
  hv.bestOperatorFrom hoperands ss hss none (by simp)

theorem unaryResult (hv : v.Agrees P v') {t : Ty} (ht : t.Within P) (op : Operator) :
    Same P (Ty.Within P) (v.unaryResult t op) (v'.unaryResult t op) := by
  refine (hv.operatorCandidates ht op).bind fun ss hss => ?_
  split
  · exact .pure .basic
  · exact (hv.symbolType (hss _ List.mem_cons_self)).bind fun t ht => .pure ht.resultType

theorem binaryResult (hv : v.Agrees P v') {t right : Ty} (ht : t.Within P) (op : Operator)
    (hright : right.Within P) :
    Same P (Ty.Within P) (v.binaryResult t op right) (v'.binaryResult t op right) :=
  (hv.operatorCandidates ht op).bind fun _ hss =>
    hv.bestOperator hss (List.forall_mem_singleton.mpr hright)

theorem trinaryResult (hv : v.Agrees P v') {t first second : Ty} (ht : t.Within P)
    (op : Operator) (hfirst : first.Within P) (hsecond : second.Within P) :
    Same P (Ty.Within P) (v.trinaryResult t op first second)
      (v'.trinaryResult t op first second) :=
  (hv.operatorCandidates ht op).bind fun _ hss =>
    hv.bestOperator hss
      (List.forall_mem_cons.mpr ⟨hfirst, List.forall_mem_singleton.mpr hsecond⟩)

end Zensight.View.Agrees
