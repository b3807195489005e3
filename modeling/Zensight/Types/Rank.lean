import Zensight.Types.Hierarchy

/-!
# Subtyping

How well a value of one type fits where another is wanted. `Ty.rank` decides by
equality, `any`, intersections and class inheritance alone. `Ty.rankIn` also
accepts types that have an `as` operator to something that fits; what members a
type has and which types they have is for a `Context` to say. A cast is at most
one step long: what it casts to is judged without casters.
-/

namespace Zensight

/-- How well a type fits; the earlier the better. -/
inductive Rank where
  | self | inherit | mismatch
  deriving DecidableEq, Repr, Inhabited

namespace Rank

/-- The grade of a rank, a number; the lower the better. -/
def grade : Rank → Int
  | self => 0
  | inherit => 1
  | mismatch => 2

/-- The name of a grade; from 2 on and below 0 everything is a mismatch by
name. -/
def gradeName (n : Int) : Text :=
  if n = 0 then txt "self" else if n = 1 then txt "inherit" else txt "mismatch"

/-- The worse of two grades. -/
def worseGrade (a b : Int) : Int := if a > b then a else b

/-- Is the first grade strictly better? -/
def betterGrade (a b : Int) : Bool := a < b

/-- Does the grade stand for a fit? -/
def matchedGrade (n : Int) : Bool := n != mismatch.grade

def name (r : Rank) : Text := gradeName r.grade

/-- Is it a fit at all? -/
def matched (r : Rank) : Bool := matchedGrade r.grade

/-- Is `r` strictly better than `s`? -/
def better (r s : Rank) : Bool := betterGrade r.grade s.grade

/-- The worse of two ranks. -/
def worse (r s : Rank) : Rank := if s.better r then r else s

end Rank

namespace Ty

mutual

/-- How well `t` fits where `u` is wanted, casters left aside. -/
def rank (h : Hierarchy) (t u : Ty) : Rank :=
  if t.equal u then .self
  else if u.isAny || t.isAny then .inherit
  else match t with
    | intersection cs => if anyFits h cs u then .inherit else .mismatch
    | classType c =>
      match u with
      | classType d => if h.inherits c d.name then .inherit else .mismatch
      | _ => .mismatch
    | _ => .mismatch

/-- Does one of the types fit? -/
def anyFits (h : Hierarchy) (cs : List Ty) (u : Ty) : Bool :=
  match cs with
  | [] => false
  | c :: cs => (c.rank h u).matched || anyFits h cs u

end

end Ty

/-- What can be asked about members and symbols, as a computation in `m`. -/
structure Context (m : Type → Type) where
  membersOf : Ty → m (List Symbol)
  typeOf : Symbol → m Ty

namespace Context

variable {m : Type → Type} [Monad m]

/-- Does one of these members cast to something that fits where `u` is wanted? -/
def castsAmong (h : Hierarchy) (ctx : Context m) (u : Ty) : List Symbol → m Bool
  | [] => pure false
  | s :: rest => do
    if s.operator? = some .as then
      match ← ctx.typeOf s with
      | .function _ result =>
        if (result.rank h u).matched then return true else castsAmong h ctx u rest
      | _ => castsAmong h ctx u rest
    else castsAmong h ctx u rest

/-- Has `t` a caster to something that fits where `u` is wanted? -/
def casts (h : Hierarchy) (ctx : Context m) (t u : Ty) : m Bool := do
  castsAmong h ctx u (← ctx.membersOf t)

end Context

namespace Ty

variable {m : Type → Type} [Monad m]

mutual

/-- How well `t` fits where `u` is wanted, with casters. -/
def rankIn (h : Hierarchy) (ctx : Context m) (t u : Ty) : m Rank := do
  if t.equal u then return .self
  else if u.isAny || t.isAny then return .inherit
  else
    let fits ← match t with
      | intersection cs => anyFitsIn h ctx cs u
      | classType c =>
        match u with
        | classType d => pure (h.inherits c d.name)
        | _ => pure false
      | _ => pure false
    if fits then return .inherit
    else if ← ctx.casts h t u then return .inherit
    else return .mismatch

/-- Does one of the types fit, with casters? -/
def anyFitsIn (h : Hierarchy) (ctx : Context m) (cs : List Ty) (u : Ty) : m Bool :=
  match cs with
  | [] => pure false
  | c :: cs => do
    if (← c.rankIn h ctx u).matched then return true else anyFitsIn h ctx cs u

end

end Ty

end Zensight
