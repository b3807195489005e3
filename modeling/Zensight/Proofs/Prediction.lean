import Zensight.Proofs.Equivalence
import Zensight.Proofs.Selection

/-!
# What an argument is predicted to be

The search for the type of the next argument keeps the type that the candidates so far agree on,
and gives up at the first that has another one. What it searches for is told here without the
search: the candidates that the known arguments fit so far have certain types for the next
parameter (`View.expected`), and the prediction is what these agree on (`Ty.consensus`).

The candidate that a whole call takes fits every argument, so it fits the first few of them, and
its parameter is among those that are expected. And types agree or do not agree in whatever
order they are listed, because counting as equal is an equivalence.
-/

namespace Zensight

/-! ## What types agree on -/

namespace Ty

/-- All the types count as equal. -/
def Agreed (ts : List Ty) : Prop := ∀ t ∈ ts, ∀ u ∈ ts, t.equal u = true

/-- What types agree on: the first of them if all are equal to it, and `any` if not or if there
is none. -/
def consensus : List Ty → Ty
  | [] => .any
  | t :: ts => if ts.all t.equal then t else .any

/-- A type that is equal to the first one changes nothing, and one that is not settles it. -/
theorem consensus_cons_cons (t u : Ty) (ts : List Ty) :
    consensus (t :: u :: ts) = if t.equal u then consensus (t :: ts) else .any := by
  rw [consensus, consensus, List.all_cons]
  cases t.equal u <;> rfl

theorem agreed_cons_iff {t : Ty} {ts : List Ty} :
    Agreed (t :: ts) ↔ ts.all t.equal = true := by
  rw [List.all_eq_true]
  constructor
  · intro h u hu
    exact h t List.mem_cons_self u (List.mem_cons_of_mem t hu)
  · intro h
    have hfirst : ∀ u ∈ t :: ts, t.equal u = true :=
      List.forall_mem_cons.mpr ⟨equal_refl t, h⟩
    exact fun u hu w hw => equal_trans (equal_symm (hfirst u hu)) (hfirst w hw)

theorem consensus_of_not_agreed {ts : List Ty} (h : ¬ Agreed ts) : consensus ts = .any := by
  cases ts with
  | nil => rfl
  | cons t ts => rw [consensus, if_neg (mt agreed_cons_iff.mpr h)]

/-- Types that agree have any of them for their consensus. -/
theorem consensus_equal {ts : List Ty} (h : Agreed ts) {t : Ty} (ht : t ∈ ts) :
    (consensus ts).equal t = true := by
  cases ts with
  | nil => cases ht
  | cons u ts =>
      rw [consensus, if_pos (agreed_cons_iff.mp h)]
      exact h u List.mem_cons_self t ht

theorem Agreed.perm {ts us : List Ty} (h : Agreed ts) (hperm : ts.Perm us) : Agreed us :=
  fun t ht u hu => h t (hperm.mem_iff.mpr ht) u (hperm.mem_iff.mpr hu)

/-- The order of the types makes no difference. -/
theorem consensus_perm {ts us : List Ty} (hperm : ts.Perm us) :
    (consensus ts).equal (consensus us) = true := by
  by_cases h : Agreed ts
  · have h' : Agreed us := h.perm hperm
    cases us with
    | nil =>
        rw [hperm.eq_nil]
        exact equal_refl _
    | cons u us =>
        have hu : u ∈ ts := hperm.mem_iff.mpr List.mem_cons_self
        exact equal_trans (consensus_equal h hu)
          (equal_symm (consensus_equal h' List.mem_cons_self))
  · have h' : ¬ Agreed us := fun h' => h (h'.perm hperm.symm)
    rw [consensus_of_not_agreed h, consensus_of_not_agreed h']
    exact equal_refl _

end Ty

theorem Rank.worst_ne_mismatch_iff {ranks : List Rank} :
    worst ranks ≠ .mismatch ↔ .mismatch ∉ ranks := by
  unfold worst
  split
  · simp [*]
  · split <;> simp [*]

/-! ## What the search for a prediction finds -/

namespace View

variable (v : View)

/-- The type of the parameter behind the known arguments, in a candidate that has one and that
they fit. -/
def nextParam? (known : List Ty) (c : Symbol) : Option Ty :=
  match v.answer (v.symbolType c) with
  | .function params _ =>
    if .mismatch ∈ v.fits known params then none else params[known.length]?
  | _ => none

/-- The types that the candidates have for the next argument. -/
def expected (known : List Ty) (candidates : List Symbol) : List Ty :=
  candidates.filterMap (v.nextParam? known)

theorem answer_argumentsFit (known params : List Ty) :
    v.answer (v.argumentsFit known params) = true ↔ .mismatch ∉ v.fits known params := by
  induction known generalizing params with
  | nil => simp [fits, argumentsFit, answer]
  | cons a known ih =>
      cases params with
      | nil => simp [fits, argumentsFit, answer]
      | cons p params =>
          have hfits : v.fits (a :: known) (p :: params) =
              v.answer (v.rank a p) :: v.fits known params := rfl
          rw [argumentsFit, answer_bind, hfits, List.mem_cons, not_or]
          cases hrank : v.answer (v.rank a p) with
          | mismatch => exact iff_of_false Bool.false_ne_true (fun h => h.1 rfl)
          | self | inherit => exact (ih params).trans (by simp)

/-- One round of the search: a candidate without a next parameter is passed over. -/
theorem answer_predictFrom_cons (known : List Ty) (predicted : Option Ty) (c : Symbol)
    (candidates : List Symbol) :
    v.answer (v.predictFrom known predicted (c :: candidates)) =
      match v.nextParam? known c, predicted with
      | none, _ => v.answer (v.predictFrom known predicted candidates)
      | some next, none => v.answer (v.predictFrom known (some next) candidates)
      | some next, some t =>
        if t.equal next then v.answer (v.predictFrom known predicted candidates) else .any := by
  rw [predictFrom, answer_bind, nextParam?]
  cases v.answer (v.symbolType c) with
  | function params result =>
      dsimp only
      cases hnext : params[known.length]? with
      | none => simp
      | some next =>
          have hfit := v.answer_argumentsFit known params
          dsimp only
          rw [answer_bind]
          by_cases hmis : .mismatch ∈ v.fits known params
          · rw [if_pos hmis, if_neg fun h => hfit.mp h hmis]
          · rw [if_neg hmis, if_pos (hfit.mpr hmis)]
            cases predicted with
            | none => rfl
            | some t => exact apply_ite v.answer _ _ _
  | _ => rfl

theorem answer_predictFrom (known : List Ty) (predicted : Option Ty) (candidates : List Symbol) :
    v.answer (v.predictFrom known predicted candidates) =
      .consensus (predicted.toList ++ v.expected known candidates) := by
  induction candidates generalizing predicted with
  | nil => cases predicted <;> rfl
  | cons c candidates ih =>
      rw [answer_predictFrom_cons, expected, List.filterMap_cons]
      cases v.nextParam? known c with
      | none => exact ih predicted
      | some next =>
          cases predicted with
          | none => exact ih (some next)
          | some t =>
              rw [Option.toList_some, List.cons_append, List.nil_append,
                Ty.consensus_cons_cons]
              exact if_congr Iff.rfl (ih (some t)) rfl

theorem answer_predictNext (candidates : List Symbol) (known : List Ty) :
    v.answer (v.predictNext candidates known) = .consensus (v.expected known candidates) :=
  v.answer_predictFrom known none candidates

/-! ## The candidate that a call takes -/

variable {v}

/-- A candidate that is found is among those that were searched, and fits. -/
theorem answer_findBestFrom_eq_some {args : List Ty} {candidates : List Symbol}
    {best : Option Symbol} {r : Rank} {c : Symbol}
    (h : v.answer (v.findBestFrom args best r candidates) = some c) :
    best = some c ∨ c ∈ candidates ∧ v.answer (v.rankExecutable c args) ≠ .mismatch := by
  induction candidates generalizing best r with
  | nil => exact .inl h
  | cons d candidates ih =>
      rw [findBestFrom, answer_bind, apply_ite v.answer] at h
      split at h
      · next hbetter =>
          rcases ih h with hd | ⟨hc, hrank⟩
          · cases hd
            refine .inr ⟨List.mem_cons_self, fun hmis => ?_⟩
            rw [hmis] at hbetter
            cases r <;> cases hbetter
          · exact .inr ⟨List.mem_cons_of_mem d hc, hrank⟩
      · exact (ih h).imp_right fun hc => ⟨List.mem_cons_of_mem d hc.1, hc.2⟩

/-- A candidate that fits has a parameter for every argument, which the argument fits. -/
theorem fits_of_rankExecutable {args : List Ty} {c : Symbol}
    (h : v.answer (v.rankExecutable c args) ≠ .mismatch) :
    ∃ params result, v.answer (v.symbolType c) = .function params result ∧
      args.length ≤ params.length ∧ .mismatch ∉ v.fits args params := by
  rw [rankExecutable, answer_bind] at h
  cases htype : v.answer (v.symbolType c) with
  | function params result =>
      rw [htype] at h
      dsimp only at h
      split at h
      · exact absurd rfl h
      · next hcount =>
          rw [answer_rankArguments, Rank.self_worse, Rank.worst_ne_mismatch_iff] at h
          exact ⟨params, result, rfl, by omega, h⟩
  | _ =>
      rw [htype] at h
      exact absurd rfl h

theorem fits_take (args params : List Ty) (k : Nat) :
    v.fits (args.take k) params = (v.fits args params).take k := by
  induction args generalizing params k with
  | nil => simp [fits]
  | cons a args ih =>
      cases k with
      | zero => rfl
      | succ k =>
          cases params with
          | nil => rfl
          | cons p params => exact congrArg (_ :: ·) (ih params k)

/-- What fits all arguments fits the first few, so its next parameter is expected. -/
theorem mem_expected {args params : List Ty} {result : Ty} {c : Symbol}
    {candidates : List Symbol} (hc : c ∈ candidates)
    (htype : v.answer (v.symbolType c) = .function params result)
    (hfits : .mismatch ∉ v.fits args params) {k : Nat} (hk : k < args.length) {p : Ty}
    (hp : params[k]? = some p) : p ∈ v.expected (args.take k) candidates := by
  have hfew : .mismatch ∉ v.fits (args.take k) params := by
    rw [fits_take]
    exact fun hmem => hfits (List.mem_of_mem_take hmem)
  refine List.mem_filterMap.mpr ⟨c, hc, ?_⟩
  rw [nextParam?, htype]
  dsimp only
  rw [if_neg hfew, List.length_take, Nat.min_eq_left (Nat.le_of_lt hk), hp]

end View

namespace Environment

/-- A prediction never contradicts the choice of an overload. If a call takes a candidate, then
the type predicted for each argument from those before it is `any` or equal to that of the
candidate's parameter there, which the candidate has. And but for types that count as equal the
prediction does not depend on the order of the candidates. -/
theorem prediction_suits_choice (e : Environment) (candidates : List Symbol) :
    (∀ args c, e.view.answer (e.view.findBest candidates args) = some c →
      ∃ params result, e.view.answer (e.view.symbolType c) = .function params result ∧
        ∀ k < args.length, ∃ p, params[k]? = some p ∧
          (e.view.answer (e.view.predictNext candidates (args.take k)) = .any ∨
            (e.view.answer (e.view.predictNext candidates (args.take k))).equal p = true)) ∧
    ∀ others known, candidates.Perm others →
      (e.view.answer (e.view.predictNext candidates known)).equal
        (e.view.answer (e.view.predictNext others known)) = true := by
  constructor
  · intro args c hbest
    rcases View.answer_findBestFrom_eq_some hbest with hnone | ⟨hc, hrank⟩
    · cases hnone
    obtain ⟨params, result, htype, hcount, hfits⟩ := View.fits_of_rankExecutable hrank
    refine ⟨params, result, htype, fun k hk => ?_⟩
    have hparam : params[k]? = some params[k] :=
      List.getElem?_eq_getElem (Nat.lt_of_lt_of_le hk hcount)
    have hexpected := View.mem_expected hc htype hfits hk hparam
    refine ⟨params[k], hparam, ?_⟩
    rw [View.answer_predictNext]
    by_cases hagreed : Ty.Agreed (e.view.expected (args.take k) candidates)
    · exact .inr (Ty.consensus_equal hagreed hexpected)
    · exact .inl (Ty.consensus_of_not_agreed hagreed)
  · intro others known hperm
    rw [View.answer_predictNext, View.answer_predictNext]
    exact Ty.consensus_perm (hperm.filterMap _)

/-- Three functions of one name, one of them with values to fall back on, and a call that leaves
these out. -/
def offering : Environment :=
  ((({ root := txt "scripts" } : Environment).intern
    (Script.parse (txt "a") (txt "scripts.a")
      (txt "function f(a as int,b as string,c as bool=true)\x7b\x7d" ++
        txt "function f(a as int,b as string)\x7b\x7d" ++ txt "function f(a as string)\x7b\x7d" ++
        txt "f(1,null);"))).2).replace 0

/-- What the call chooses from. -/
def offered : List Symbol := offering.view.answer (offering.view.callCandidates ⟨0, 30⟩)

theorem offered_fits : offered.length = 3 ∧
    (offering.view.answer (offering.view.findBest offered [.int, .any])).isSome = true ∧
    (offering.view.answer (offering.view.predictNext offered [])).isAny = true ∧
    (offering.view.answer (offering.view.predictNext offered [.int])).isAny = false := by
  decide +kernel

theorem offered_prediction_suits_choice :
    (∃ c params result p,
      offering.view.answer (offering.view.findBest offered [.int, .any]) = some c ∧
      offering.view.answer (offering.view.symbolType c) = .function params result ∧
      params[1]? = some p ∧
      (offering.view.answer (offering.view.predictNext offered [.int])).equal p = true) ∧
    (offering.view.answer (offering.view.predictNext offered [.int])).equal
      (offering.view.answer (offering.view.predictNext offered.reverse [.int])) = true := by
  obtain ⟨hchoice, horder⟩ := prediction_suits_choice offering offered
  obtain ⟨-, hsome, -, hany⟩ := offered_fits
  obtain ⟨c, hbest⟩ := Option.isSome_iff_exists.mp hsome
  obtain ⟨params, result, htype, hparams⟩ := hchoice [.int, .any] c hbest
  obtain ⟨p, hp, hpredicted⟩ := hparams 1 (by decide)
  refine ⟨⟨c, params, result, p, hbest, htype, hp, hpredicted.resolve_left fun h => ?_⟩,
    horder _ _ (List.reverse_perm offered).symm⟩
  have hnot : (offering.view.answer (offering.view.predictNext offered [.int])).isAny = true := by
    rw [show [Ty.int] = List.take 1 [.int, .any] from rfl, h]
    rfl
  rw [hany] at hnot
  cases hnot

end Environment

end Zensight
