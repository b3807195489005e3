import Zensight.Proofs.Candidates
import Zensight.Proofs.Reports

/-!
# Overloads are chosen by rank, and the first one wins

Three searches go through candidates from left to right with the best rank so far: the one for
the overload that a call takes, the one for the operator function of an expression, and the one
that counts how many overloads of a call fit equally well. They start differently, and they
differ in what they pass over and in when they stop early. Here all three are told what they
search for: `Rank.best` is the least rank of a list, `firstBest` the first candidate that has
it, and each search finds what these say (`View.answer_findBest`, `View.answer_bestOperator`,
`Lint.countBest_eq`).

How well a candidate fits is told apart from any search as well: a call that leaves out what it
may not, or has too much, does not fit, and otherwise it fits as badly as its worst argument
(`View.callRank`).
-/

namespace Zensight

/-! ## The best and the worst rank -/

namespace Rank

/-- The best of some ranks. Where there is none, nothing fits. -/
def best (ranks : List Rank) : Rank :=
  if .self ∈ ranks then .self else if .inherit ∈ ranks then .inherit else .mismatch

/-- The worst of some ranks. Where there is none, nothing is amiss. -/
def worst (ranks : List Rank) : Rank :=
  if .mismatch ∈ ranks then .mismatch else if .inherit ∈ ranks then .inherit else .self

theorem best_cons (r : Rank) (ranks : List Rank) :
    best (r :: ranks) = if (best ranks).better r then best ranks else r := by
  unfold best
  by_cases hself : self ∈ ranks <;> by_cases hinherit : inherit ∈ ranks <;>
    cases r <;> simp [hself, hinherit] <;> decide

theorem best_eq_mismatch_iff {ranks : List Rank} :
    best ranks = .mismatch ↔ ∀ r ∈ ranks, r = .mismatch := by
  induction ranks with
  | nil => simp [best]
  | cons r ranks ih =>
      rw [best_cons, List.forall_mem_cons, ← ih]
      cases best ranks <;> cases r <;> decide

theorem worst_cons (r : Rank) (ranks : List Rank) :
    worst (r :: ranks) = r.worse (worst ranks) := by
  unfold worst
  by_cases hmismatch : mismatch ∈ ranks <;> by_cases hinherit : inherit ∈ ranks <;>
    cases r <;> simp [hmismatch, hinherit] <;> decide

theorem worse_assoc (q r s : Rank) : (q.worse r).worse s = q.worse (r.worse s) := by
  cases q <;> cases r <;> cases s <;> rfl

theorem self_worse (r : Rank) : self.worse r = r := by
  cases r <;> rfl

theorem mismatch_worse (r : Rank) : mismatch.worse r = mismatch := by
  cases r <;> rfl

theorem better_trans {q r s : Rank} :
    q.better r = true → r.better s = true → q.better s = true := by
  cases q <;> cases r <;> cases s <;> decide

/-- What is better than a rank is better than all that the rank is not better than. -/
theorem better_of_better_of_not {q r s : Rank} :
    q.better r = true → s.better r = false → q.better s = true := by
  cases q <;> cases r <;> cases s <;> decide

theorem better_mismatch_iff (r : Rank) : r.better .mismatch = true ↔ r ≠ .mismatch := by
  cases r <;> decide

end Rank

/-- The first of the elements with the best rank. -/
def firstBest {α : Type} (rank : α → Rank) (xs : List α) : Option α :=
  xs.find? fun x => rank x = Rank.best (xs.map rank)

section

variable {α : Type} (rank : α → Rank)

theorem rank_of_firstBest {xs : List α} {x : α} (h : firstBest rank xs = some x) :
    rank x = Rank.best (xs.map rank) := by
  have hx := List.find?_some h
  exact of_decide_eq_true hx

/-- Where there is an element, one has the best rank. -/
theorem firstBest_eq_none_iff {xs : List α} : firstBest rank xs = none ↔ xs = [] := by
  have hmem : ∀ {ranks : List Rank}, ranks ≠ [] → Rank.best ranks ∈ ranks := by
    intro ranks hne
    obtain ⟨r, ranks, rfl⟩ := List.exists_cons_of_ne_nil hne
    unfold Rank.best
    split
    · assumption
    · split
      · assumption
      · cases r <;> simp_all
  constructor
  · intro hnone
    by_contra hne
    obtain ⟨x, hx, hbest⟩ := List.mem_map.mp (hmem (mt List.map_eq_nil_iff.mp hne))
    have hnot := List.find?_eq_none.mp hnone x hx
    exact hnot (decide_eq_true hbest)
  · rintro rfl
    rfl

/-- An element in front gives way to a better one only. -/
theorem firstBest_cons (x : α) (xs : List α) : firstBest rank (x :: xs) =
    some ((firstBest rank xs).elim x fun y => if (rank y).better (rank x) then y else x) := by
  have hbest : firstBest rank (x :: xs) =
      (x :: xs).find? fun y => rank y = Rank.best ((x :: xs).map rank) := rfl
  rw [List.map_cons, Rank.best_cons, List.find?_cons] at hbest
  rw [hbest]
  cases hxs : firstBest rank xs with
  | none =>
      cases (firstBest_eq_none_iff rank).mp hxs
      cases rank x <;> rfl
  | some y =>
      have hy := rank_of_firstBest rank hxs
      rw [← hy]
      by_cases hbetter : (rank y).better (rank x) = true
      · have hne : rank x ≠ rank y := by
          intro heq
          rw [heq] at hbetter
          cases hr : rank y <;> rw [hr] at hbetter <;> cases hbetter
        rw [if_pos hbetter, decide_eq_false hne, Option.elim_some, if_pos hbetter, ← hxs, hy]
        rfl
      · simp [hbetter]

/-- Of two elements in front, the first one stays unless the second is better. -/
theorem firstBest_cons_cons (x y : α) (xs : List α) : firstBest rank (x :: y :: xs) =
    firstBest rank ((if (rank y).better (rank x) then y else x) :: xs) := by
  rw [firstBest_cons, firstBest_cons, firstBest_cons]
  cases hxs : firstBest rank xs with
  | none => by_cases hyx : (rank y).better (rank x) = true <;> simp [hyx]
  | some z =>
      have hzx : (rank z).better (rank y) = true → (rank y).better (rank x) = true →
          (rank z).better (rank x) = true := Rank.better_trans
      have hzy : (rank z).better (rank x) = true → (rank y).better (rank x) = false →
          (rank z).better (rank y) = true := Rank.better_of_better_of_not
      cases hyx : (rank y).better (rank x) <;> cases hzy' : (rank z).better (rank y) <;>
        cases hzx' : (rank z).better (rank x) <;> simp_all

end

/-! ## How well a candidate fits -/

namespace View

variable (v : View)

/-- How well each argument fits the parameter at its place. -/
def fits (args params : List Ty) : List Rank :=
  List.zipWith (fun a p => v.answer (v.rank a p)) args params

/-- The number of arguments that a symbol with so many parameters needs: all of them, but what a
script declares may have values to fall back on at the end. -/
def needed (params : List Ty) : Symbol → Nat
  | .stated _ => params.length
  | .declared id d =>
    if d.kind.isExecutable then ((v.script id).neededParams d.node).length else params.length

/-- How well a call with these arguments fits a candidate. -/
def callRank (args : List Ty) (s : Symbol) : Rank :=
  match v.answer (v.symbolType s) with
  | .function params _ =>
    if args.length < v.needed params s ∨ params.length < args.length then .mismatch
    else .worst (v.fits args params)
  | _ => .mismatch

/-- How well operands fit the parameters of an operator function. -/
def operandRank (operands params : List Ty) : Rank :=
  if params.length < operands.length then .mismatch else .worst (v.fits operands params)

/-- The parameters and results of those candidates that are functions. -/
def functions (candidates : List Symbol) : List (List Ty × Ty) :=
  candidates.filterMap fun c => match v.answer (v.symbolType c) with
    | .function params result => some (params, result)
    | _ => none

/-- The result of an operator: that of the first best of the candidates that are functions. -/
def operatorResult (candidates : List Symbol) (operands : List Ty) : Ty :=
  ((firstBest (fun f => v.operandRank operands f.1) (v.functions candidates)).map (·.2)).getD .any

theorem worst_fits_cons (a p : Ty) (args params : List Ty) :
    Rank.worst (v.fits (a :: args) (p :: params)) =
      (v.answer (v.rank a p)).worse (.worst (v.fits args params)) := Rank.worst_cons _ _

theorem answer_bind {α β : Type} (q : Inquiry α) (f : α → Inquiry β) :
    v.answer (q >>= f) = v.answer (f (v.answer q)) := Inquiry.run_bind _ _ _

theorem answer_rankArguments (args params : List Ty) (r : Rank) :
    v.answer (v.rankArguments r args params) = r.worse (.worst (v.fits args params)) := by
  induction args generalizing params r with
  | nil => cases r <;> rfl
  | cons a args ih =>
      cases params with
      | nil => cases r <;> rfl
      | cons p params =>
          rw [rankArguments, answer_bind, worst_fits_cons, ← Rank.worse_assoc]
          dsimp only
          split
          · next hmismatch => rw [hmismatch, Rank.mismatch_worse]; rfl
          · exact ih params _

/-- The rank of a candidate is that of the call. -/
theorem answer_rankExecutable {args : List Ty} {s : Symbol}
    (hneeded : ∀ params : List Ty, s.required?.getD params.length = v.needed params s) :
    v.answer (v.rankExecutable s args) = v.callRank args s := by
  rw [rankExecutable, answer_bind, callRank]
  cases v.answer (v.symbolType s) with
  | function params result =>
      simp only [hneeded, gt_iff_lt]
      split
      · rfl
      · rw [answer_rankArguments, Rank.self_worse]
  | _ => rfl

theorem answer_rankOperands (operands params : List Ty) (r : Rank) :
    v.answer (v.rankOperands r operands params) = r.worse (v.operandRank operands params) := by
  induction operands generalizing params r with
  | nil => cases r <;> rfl
  | cons o operands ih =>
      cases params with
      | nil => cases r <;> rfl
      | cons p params =>
          rw [rankOperands, answer_bind, ih, Rank.worse_assoc]
          simp only [operandRank, List.length_cons, Nat.add_lt_add_iff_right]
          split
          · cases v.answer (v.rank o p) <;> rfl
          · rw [worst_fits_cons]

/-! ## The searches -/

variable {v}

/-- The search for an overload: the first best candidate, if it is better than what was there. -/
theorem answer_findBestFrom {args : List Ty} {candidates : List Symbol}
    (hrank : ∀ c ∈ candidates, v.answer (v.rankExecutable c args) = v.callRank args c)
    (best : Option Symbol) (r : Rank) :
    v.answer (v.findBestFrom args best r candidates) =
      (firstBest (v.callRank args) candidates).elim best
        fun c => if (v.callRank args c).better r then some c else best := by
  induction candidates generalizing best r with
  | nil => rfl
  | cons c candidates ih =>
      obtain ⟨hc, hrest⟩ := List.forall_mem_cons.mp hrank
      rw [findBestFrom, answer_bind, hc, firstBest_cons, Option.elim_some]
      rw [apply_ite v.answer, ih hrest, ih hrest]
      cases hfound : firstBest (v.callRank args) candidates with
      | none => rfl
      | some d =>
          simp only [Option.elim_some]
          by_cases hdc : (v.callRank args d).better (v.callRank args c) = true
          · simp only [if_pos hdc]
            split
            · next hcr => rw [if_pos (Rank.better_trans hdc hcr)]
            · rfl
          · simp only [if_neg hdc]
            split
            · rfl
            · next hcr =>
                have hdr : ¬ (v.callRank args d).better r = true := fun hdr =>
                  hdc (Rank.better_of_better_of_not hdr (Bool.not_eq_true _ ▸ hcr))
                rw [if_neg hdr]

section

variable {args : List Ty} {candidates : List Symbol}
  (hrank : ∀ c ∈ candidates, v.answer (v.rankExecutable c args) = v.callRank args c)

include hrank

theorem answer_findBest_eq_none_iff : v.answer (v.findBest candidates args) = none ↔
    ∀ c ∈ candidates, v.callRank args c = .mismatch := by
  rw [findBest, answer_findBestFrom hrank]
  cases hfound : firstBest (v.callRank args) candidates with
  | none =>
      cases (firstBest_eq_none_iff _).mp hfound
      simp
  | some c =>
      have hall : (∀ c ∈ candidates, v.callRank args c = .mismatch) ↔
          v.callRank args c = .mismatch := by
        rw [rank_of_firstBest _ hfound, Rank.best_eq_mismatch_iff, List.forall_mem_map]
      rw [hall, Option.elim_some]
      simp [Rank.better_mismatch_iff]

theorem answer_findBest_eq (hsome : v.answer (v.findBest candidates args) ≠ none) :
    v.answer (v.findBest candidates args) = firstBest (v.callRank args) candidates := by
  rw [findBest, answer_findBestFrom hrank] at hsome ⊢
  cases hfound : firstBest (v.callRank args) candidates with
  | none => rfl
  | some c =>
      rw [hfound, Option.elim_some] at hsome
      rw [Option.elim_some]
      split at hsome
      · next hbetter => rw [if_pos hbetter]
      · exact absurd rfl hsome

end

/-- The search for an operator function: the first best one, with what was there in front. -/
theorem answer_bestOperatorFrom (operands : List Ty) (candidates : List Symbol)
    (best : Option (List Ty × Ty)) :
    v.answer (v.bestOperatorFrom operands
        (best.map fun f => (.function f.1 f.2, v.operandRank operands f.1)) candidates) =
      ((firstBest (fun f => v.operandRank operands f.1)
        (best.toList ++ v.functions candidates)).map (·.2)).getD .any := by
  induction candidates generalizing best with
  | nil =>
      rw [bestOperatorFrom, functions, List.filterMap_nil, List.append_nil]
      cases best with
      | none => rfl
      | some f => simp [firstBest_cons]; rfl
  | cons c candidates ih =>
      rw [bestOperatorFrom, answer_bind, functions, List.filterMap_cons]
      cases v.answer (v.symbolType c) with
      | function params result =>
          -- The new function takes the place of the best one so far if it is better.
          simp only [answer_bind, answer_rankOperands, Rank.self_worse]
          cases best with
          | none => exact ih (some (params, result))
          | some f =>
              have hnext := ih (some
                (if (v.operandRank operands params).better (v.operandRank operands f.1)
                  then (params, result) else f))
              simp only [Option.toList_some, List.cons_append, List.nil_append,
                firstBest_cons_cons, Option.map_some] at hnext ⊢
              rw [← functions, ← hnext]
              split <;> rfl
      | _ => exact ih best

theorem answer_bestOperator (candidates : List Symbol) (operands : List Ty) :
    v.answer (v.bestOperator candidates operands) = v.operatorResult candidates operands :=
  answer_bestOperatorFrom operands candidates none

end View

/-! ## Ties -/

namespace Lint

/-- The count of ties: how many have the best rank, if that is better than the one so far, or
else how many more have the one so far. -/
theorem countBest_eq (best : Rank) (tied : Nat) (ranks : List Rank) :
    countBest best tied ranks =
      if (Rank.best ranks).better best then ranks.count (Rank.best ranks)
      else if best = .mismatch then tied else tied + ranks.count best := by
  induction ranks generalizing best tied with
  | nil => cases best <;> rfl
  | cons r ranks ih =>
      have hbetter : ∀ q r : Rank, q.better r = decide (q.grade < r.grade) := fun _ _ => rfl
      rw [countBest, Rank.best_cons]
      cases hr : Rank.best ranks <;> cases r <;> cases best <;>
        simp [ih, hr, hbetter, Rank.grade] <;> omega

end Lint

namespace View

variable (v : View)

/-- How well a call fits each of its candidates. -/
def callRanks (call : NodeRef) : List Rank :=
  (v.answer (v.callCandidates call)).map (v.callRank (v.answer (v.partTypes call .argument)))

/-- The number of candidates that a call fits best. -/
def ties (call : NodeRef) : Nat := (v.callRanks call).count (.best (v.callRanks call))

/-- Does the call fit, and several candidates equally well? -/
def isAmbiguous (call : NodeRef) : Bool :=
  (v.entry call).form = .callExpr ∧ Rank.best (v.callRanks call) ≠ .mismatch ∧ 2 ≤ v.ties call

/-- What is said of such a call. It names the first candidate, and how many there are. -/
def ambiguity (call : NodeRef) : Lint.Finding where
  topic := .ambiguousOverload
  place := (v.entry call).span.start
  message := txt "call to '" ++ (((v.answer (v.callCandidates call)).head?.map (·.name)).getD [])
    ++ txt "' matches " ++ Text.ofNat (v.ties call)
    ++ txt " overloads equally well; using the first declared"

theorem ambiguousOverload_eq {call : NodeRef}
    (hrank : ∀ c ∈ v.answer (v.callCandidates call), ∀ args,
      v.answer (v.rankExecutable c args) = v.callRank args c) :
    Lint.ambiguousOverload v call = if v.isAmbiguous call then [v.ambiguity call] else [] := by
  rw [Lint.ambiguousOverload]
  split
  · next first second others hform hfound =>
      have hranks : (first :: second :: others).map (fun c => v.answer
          (v.rankExecutable c (v.answer (v.partTypes call .argument)))) = v.callRanks call := by
        rw [callRanks, hfound]
        rw [hfound] at hrank
        exact List.map_congr_left fun c hc => hrank c hc _
      dsimp only
      rw [hranks, Lint.countBest_eq]
      simp only [Rank.better_mismatch_iff, ite_not, isAmbiguous, hform, ambiguity, hfound, ties,
        Lint.startOf, List.head?_cons, Option.map_some, Option.getD_some]
      by_cases hbest : Rank.best (v.callRanks call) = .mismatch
      · simp [hbest]
      · simp [hbest]
  · next hno =>
      -- A single candidate is in no tie.
      have hnot : v.isAmbiguous call = false := by
        rw [isAmbiguous, decide_eq_false_iff_not]
        rintro ⟨hform, -, htwo⟩
        have hlength : (v.callRanks call).length = (v.answer (v.callCandidates call)).length :=
          List.length_map ..
        have hle : v.ties call ≤ (v.callRanks call).length := List.count_le_length
        match hcands : v.answer (v.callCandidates call) with
        | [] | [_] => simp only [hcands, List.length_nil, List.length_cons] at hlength; omega
        | first :: second :: others => exact hno first second others hform hcands
      rw [hnot]
      rfl

end View

namespace Environment

variable {e : Environment}

theorem Reachable.view_plain (he : e.Reachable) : e.view.Plain := View.plain_view he

theorem Reachable.answer_rankExecutable (he : e.Reachable) {s : Symbol} (hs : e.Knows s)
    (args : List Ty) : e.view.answer (e.view.rankExecutable s args) = e.view.callRank args s := by
  refine e.view.answer_rankExecutable fun params => ?_
  cases s with
  | stated s => rfl
  | declared id d =>
      have hparsed : (e.script id).Parsed := he.script_parsed id
      rw [hparsed.required?_eq hs, View.needed]
      cases d.kind.isExecutable <;> rfl

/-- Overloads are chosen by rank, and of several with the best rank the first declared is taken.
A call takes no candidate if none fits. An operator takes the best function there is even if it
does not fit, and is `any` without one. Of the calls in a script, those are reported that fit
and fit several candidates equally well, and the report gives their number. -/
theorem selects_first_best (he : e.Reachable) :
    (∀ candidates args, (∀ c ∈ candidates, e.Knows c) →
      (∀ c ∈ candidates, e.view.answer (e.view.rankExecutable c args) = e.view.callRank args c) ∧
      (e.view.answer (e.view.findBest candidates args) = none ↔
        ∀ c ∈ candidates, e.view.callRank args c = .mismatch) ∧
      (e.view.answer (e.view.findBest candidates args) ≠ none →
        e.view.answer (e.view.findBest candidates args) =
          firstBest (e.view.callRank args) candidates)) ∧
    (∀ t op right, e.view.answer (e.view.binaryResult t op right) =
      e.view.operatorResult (e.view.answer (e.view.operatorCandidates t op)) [right]) ∧
    (∀ t op first second, e.view.answer (e.view.trinaryResult t op first second) =
      e.view.operatorResult (e.view.answer (e.view.operatorCandidates t op)) [first, second]) ∧
    ∀ id, ((e.lint id).items.filter (·.code = txt "ambiguous-overload")).Perm
      (((e.script id).nodes.filter fun n => e.view.isAmbiguous ⟨id, n⟩).map
        fun n => (e.view.ambiguity ⟨id, n⟩).diagnostic (e.script id).path) := by
  refine ⟨fun candidates args hknown => ?_, fun t op right => ?_, fun t op first second => ?_,
    fun id => ?_⟩
  · have hrank : ∀ c ∈ candidates, e.view.answer (e.view.rankExecutable c args) =
        e.view.callRank args c := fun c hc => he.answer_rankExecutable (hknown c hc) args
    exact ⟨hrank, View.answer_findBest_eq_none_iff hrank, View.answer_findBest_eq hrank⟩
  · rw [View.binaryResult, View.answer_bind, View.answer_bestOperator]
  · rw [View.trinaryResult, View.answer_bind, View.answer_bestOperator]
  · refine (e.lint_topic_perm id .ambiguousOverload).trans (.of_eq ?_)
    have hcheck : ∀ n, Lint.check e.view ⟨id, n⟩ (e.referents id) .ambiguousOverload =
        if e.view.isAmbiguous ⟨id, n⟩ then [e.view.ambiguity ⟨id, n⟩] else [] := fun n =>
      e.view.ambiguousOverload_eq fun c hc args =>
        he.answer_rankExecutable (he.view_plain.callCandidates_known _ _ c hc) args
    rw [List.flatMap_congr fun n _ => hcheck n]
    induction (e.script id).nodes with
    | nil => rfl
    | cons n nodes ih =>
        rw [List.flatMap_cons, List.filter_cons]
        split <;> simp [ih]

/-- Two functions of one name, one of which has a value for its second parameter, and a call that
fits both. -/
def tied : Environment :=
  ((({ root := txt "scripts" } : Environment).intern
    (Script.parse (txt "a") (txt "scripts.a")
      (txt "function f(a as int,b as int=2)as int\x7b\x7d" ++
        txt "function f(a as int)as string\x7b\x7d" ++ txt "f(1);"))).2).replace 0

theorem tied_fits :
    tied.view.callRanks ⟨0, 20⟩ = [.self, .self] ∧
    (∃ c ∈ tied.view.answer (tied.view.callCandidates ⟨0, 20⟩),
      tied.view.callRank [.int] c ≠ .mismatch) ∧
    ((tied.script 0).nodes.filter fun n => tied.view.isAmbiguous ⟨0, n⟩).length = 1 := by
  decide +kernel

theorem tied_selects_first_best :
    tied.Reachable ∧
    (∀ c ∈ tied.view.answer (tied.view.callCandidates ⟨0, 20⟩), tied.Knows c) ∧
    tied.view.callRanks ⟨0, 20⟩ = [.self, .self] ∧
    tied.view.answer (tied.view.findBest (tied.view.answer (tied.view.callCandidates ⟨0, 20⟩))
      [.int]) = firstBest (tied.view.callRank [.int])
        (tied.view.answer (tied.view.callCandidates ⟨0, 20⟩)) ∧
    ((tied.lint 0).items.filter (·.code = txt "ambiguous-overload")).length = 1 := by
  have he : tied.Reachable := .replace (.read _ _ _ (.new _)) (by decide)
  have hknown := he.view_plain.callCandidates_known ⟨0, 20⟩ tied.view.typeOf
  obtain ⟨hcalls, -, -, hlint⟩ := selects_first_best he
  obtain ⟨-, hnone, hsome⟩ := hcalls _ [.int] hknown
  obtain ⟨hranks, ⟨c, hc, hfits⟩, hone⟩ := tied_fits
  refine ⟨he, hknown, hranks, hsome fun hno => hfits (hnone.mp hno c hc), ?_⟩
  rw [(hlint 0).length_eq, List.length_map]
  exact hone

end Environment

end Zensight
