import Zensight.Typing.View

/-!
# Choosing among overloads

A call takes the candidate whose parameters fit the arguments best, the first
of several equally good ones, and none if no candidate fits. An operator takes
the best one even if it does not fit.
-/

namespace Zensight.View

/-- The worst fit of arguments to parameters, at least `worst`. A mismatch
settles it. -/
def rankArguments (v : View) (worst : Rank) : List Ty → List Ty → Inquiry Rank
  | a :: args, p :: params => do
    let worst := worst.worse (← v.rank a p)
    if worst = .mismatch then return .mismatch
    else v.rankArguments worst args params
  | _, _ => pure worst

/-- How well a call with these arguments fits a candidate. It must be a
function, and the number of arguments must suit it. -/
def rankExecutable (v : View) (s : Symbol) (args : List Ty) : Inquiry Rank := do
  match ← v.symbolType s with
  | .function params _ =>
    let required := s.required?.getD params.length
    if args.length < required ∨ args.length > params.length then return .mismatch
    else v.rankArguments .self args params
  | _ => return .mismatch

/-- Goes through candidates with the best one so far and its rank. -/
def findBestFrom (v : View) (args : List Ty) (best : Option Symbol) (bestRank : Rank) :
    List Symbol → Inquiry (Option Symbol)
  | [] => pure best
  | c :: rest => do
    let rank ← v.rankExecutable c args
    if rank.better bestRank then v.findBestFrom args (some c) rank rest
    else v.findBestFrom args best bestRank rest

/-- The candidate that a call with these arguments takes. -/
def findBest (v : View) (candidates : List Symbol) (args : List Ty) :
    Inquiry (Option Symbol) :=
  v.findBestFrom args none .mismatch candidates

/-- Do the known arguments fit the parameters they stand at? -/
def argumentsFit (v : View) : List Ty → List Ty → Inquiry Bool
  | a :: args, p :: params => do
    if (← v.rank a p).matched then v.argumentsFit args params else return false
  | _, _ => pure true

/-- Goes through candidates with the type predicted so far. Candidates that do
not agree leave nothing to predict. -/
def predictFrom (v : View) (known : List Ty) (predicted : Option Ty) :
    List Symbol → Inquiry Ty
  | [] => pure (predicted.getD .any)
  | c :: rest => do
    match ← v.symbolType c with
    | .function params _ =>
      match params[known.length]? with
      | none => v.predictFrom known predicted rest
      | some next =>
        if ← v.argumentsFit known params then
          match predicted with
          | none => v.predictFrom known (some next) rest
          | some t =>
            if t.equal next then v.predictFrom known predicted rest else return .any
        else v.predictFrom known predicted rest
    | _ => v.predictFrom known predicted rest

/-- The type that the argument after the known ones should have: that of the
parameter there, if the candidates that the known ones fit agree on it. -/
def predictNext (v : View) (candidates : List Symbol) (known : List Ty) : Inquiry Ty :=
  v.predictFrom known none candidates

/-- The function that a class with a single function stands for. -/
def lambdaForm? (v : View) (c : ClassType) : Inquiry (Option Ty) := do
  match (v.hierarchy.members c).filter (·.kind == .function) with
  | [f] =>
    match ← v.symbolType f with
    | .function params result => return some (.function params result)
    | _ => return none
  | _ => return none

/-- The function that a value of a type can be called as. -/
def functionShape? (v : View) (t : Ty) : Inquiry (Option Ty) :=
  match t with
  | .function params result => pure (some (.function params result))
  | .classType c => v.lambdaForm? c
  | _ => pure none

/-- The worst fit of operands to parameters, at least `worst`. An operand
without a parameter is a mismatch. -/
def rankOperands (v : View) (worst : Rank) : List Ty → List Ty → Inquiry Rank
  | [], _ => pure worst
  | _ :: _, [] => pure .mismatch
  | o :: operands, p :: params => do
    v.rankOperands (worst.worse (← v.rank o p)) operands params

/-- Goes through the candidates for an operator with the best function type so
far and its rank. -/
def bestOperatorFrom (v : View) (operands : List Ty) (best : Option (Ty × Rank)) :
    List Symbol → Inquiry Ty
  | [] => pure ((best.map (·.1.resultType)).getD .any)
  | c :: rest => do
    match ← v.symbolType c with
    | .function params result =>
      let rank ← v.rankOperands .self operands params
      let isBest := match best with
        | none => true
        | some (_, bestRank) => rank.better bestRank
      let best := if isBest then some (.function params result, rank) else best
      v.bestOperatorFrom operands best rest
    | _ => v.bestOperatorFrom operands best rest

/-- The result of the best operator function for the operands. -/
def bestOperator (v : View) (candidates : List Symbol) (operands : List Ty) : Inquiry Ty :=
  v.bestOperatorFrom operands none candidates

/-- The type of an operator applied to `t` alone: the first one counts. -/
def unaryResult (v : View) (t : Ty) (op : Operator) : Inquiry Ty := do
  match ← v.operatorCandidates t op with
  | [] => return .any
  | c :: _ => return (← v.symbolType c).resultType

/-- The type of an operator applied to `t` and one operand. -/
def binaryResult (v : View) (t : Ty) (op : Operator) (right : Ty) : Inquiry Ty := do
  v.bestOperator (← v.operatorCandidates t op) [right]

/-- The type of an operator applied to `t` and two operands. -/
def trinaryResult (v : View) (t : Ty) (op : Operator) (first second : Ty) : Inquiry Ty := do
  v.bestOperator (← v.operatorCandidates t op) [first, second]

end Zensight.View
