import Zensight.Types.Ty

/-!
# Counting as equal is an equivalence

Two types are compared component by component down to their functions and map entries, and
those by how they are written. So what a comparison looks at is the type with each of these
replaced by its text (`Ty.seen`), and two types are equal if they look the same.
-/

namespace Zensight.Ty

mutual

/-- What a comparison sees of a type: of a class its name, and of a function or a map entry the
text that it is written as. -/
def seen : Ty → Ty
  | .basic b => .basic b
  | .array e => .array e.seen
  | .list e => .list e.seen
  | .map k v => .map k.seen v.seen
  | .mapEntry k v => .mapEntry (.classType { name := (Ty.mapEntry k v).text }) .any
  | .function ps r => .function [] (.classType { name := (Ty.function ps r).text })
  | .intersection cs => .intersection (seenAll cs)
  | .classType c => .classType { name := c.name }

def seenAll : List Ty → List Ty
  | [] => []
  | t :: ts => t.seen :: seenAll ts

end

mutual

theorem equal_iff_seen : (t u : Ty) → (t.equal u = true ↔ t.seen = u.seen)
  | .basic a, u => by cases u <;> simp [equal, seen]
  | .array t, u => by
    cases u with
    | array u => simp [equal, seen, equal_iff_seen t u]
    | _ => simp [equal, seen]
  | .list t, u => by
    cases u with
    | list u => simp [equal, seen, equal_iff_seen t u]
    | _ => simp [equal, seen]
  | .map k v, u => by
    cases u with
    | map l w => simp [equal, seen, equal_iff_seen k l, equal_iff_seen v w]
    | _ => simp [equal, seen]
  | .mapEntry k v, u => by cases u <;> simp [equal, seen]
  | .function ps r, u => by cases u <;> simp [equal, seen]
  | .intersection cs, u => by
    cases u with
    | intersection ds => simp [equal, seen, equalAll_iff_seenAll cs ds]
    | _ => simp [equal, seen]
  | .classType c, u => by cases u <;> simp [equal, seen]

theorem equalAll_iff_seenAll : (ts us : List Ty) →
    (equalAll ts us = true ↔ seenAll ts = seenAll us)
  | [], us => by cases us <;> simp [equalAll, seenAll]
  | t :: ts, us => by
    cases us with
    | nil => simp [equalAll, seenAll]
    | cons u us => simp [equalAll, seenAll, equal_iff_seen t u, equalAll_iff_seenAll ts us]

end

theorem equal_refl (t : Ty) : t.equal t = true := (equal_iff_seen t t).mpr rfl

theorem equal_symm {t u : Ty} (h : t.equal u = true) : u.equal t = true :=
  (equal_iff_seen u t).mpr ((equal_iff_seen t u).mp h).symm

theorem equal_trans {t u w : Ty} (h : t.equal u = true) (h' : u.equal w = true) :
    t.equal w = true :=
  (equal_iff_seen t w).mpr (((equal_iff_seen t u).mp h).trans ((equal_iff_seen u w).mp h'))

end Zensight.Ty
