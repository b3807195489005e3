import Mathlib.Data.List.Forall2
import Zensight.Types.Ty

/-!
# Types that are built alike

`Ty.Same` is structural equality, with a class known by its name: where it is declared says
nothing about which class it is. What is left of a type without the declarations of its
classes (`Ty.bare`) decides it, so that structural equality is equality of something.
-/

namespace Zensight.Ty

/-- Built alike: by the same constructor from the same basic type, from classes of one name, or
from the same number of components that are built alike one by one. -/
inductive Same : Ty → Ty → Prop where
  | basic (b : Basic) : Same (.basic b) (.basic b)
  | array {t u : Ty} : Same t u → Same (.array t) (.array u)
  | list {t u : Ty} : Same t u → Same (.list t) (.list u)
  | map {k v l w : Ty} : Same k l → Same v w → Same (.map k v) (.map l w)
  | mapEntry {k v l w : Ty} : Same k l → Same v w → Same (.mapEntry k v) (.mapEntry l w)
  | function {ps qs : List Ty} {r s : Ty} :
      List.Forall₂ Same ps qs → Same r s → Same (.function ps r) (.function qs s)
  | intersection {cs ds : List Ty} :
      List.Forall₂ Same cs ds → Same (.intersection cs) (.intersection ds)
  | classType {c d : ClassType} : c.name = d.name → Same (.classType c) (.classType d)

mutual

/-- The type without the declarations of its classes. -/
def bare : Ty → Ty
  | .basic b => .basic b
  | .array e => .array e.bare
  | .list e => .list e.bare
  | .map k v => .map k.bare v.bare
  | .mapEntry k v => .mapEntry k.bare v.bare
  | .function ps r => .function (bareAll ps) r.bare
  | .intersection cs => .intersection (bareAll cs)
  | .classType c => .classType { name := c.name }

def bareAll : List Ty → List Ty
  | [] => []
  | t :: ts => t.bare :: bareAll ts

end

@[simp] theorem bareAll_eq (ts : List Ty) : bareAll ts = ts.map bare := by
  induction ts with
  | nil => rfl
  | cons t ts ih => rw [bareAll, ih, List.map_cons]

mutual

theorem same_iff : (t u : Ty) → (Same t u ↔ t.bare = u.bare)
  | .basic a, u => by
    constructor
    · intro h
      cases h
      rfl
    · intro h
      cases u <;> cases h
      exact .basic a
  | .array e, u => by
    constructor
    · intro h
      cases h with
      | array h => rw [bare, bare, (same_iff e _).mp h]
    · intro h
      cases u <;> simp only [bare, reduceCtorEq] at h
      exact .array ((same_iff e _).mpr (by simpa using h))
  | .list e, u => by
    constructor
    · intro h
      cases h with
      | list h => rw [bare, bare, (same_iff e _).mp h]
    · intro h
      cases u <;> simp only [bare, reduceCtorEq] at h
      exact .list ((same_iff e _).mpr (by simpa using h))
  | .map k v, u => by
    constructor
    · intro h
      cases h with
      | map hk hv => rw [bare, bare, (same_iff k _).mp hk, (same_iff v _).mp hv]
    · intro h
      cases u <;> simp only [bare, reduceCtorEq, map.injEq] at h
      exact .map ((same_iff k _).mpr h.1) ((same_iff v _).mpr h.2)
  | .mapEntry k v, u => by
    constructor
    · intro h
      cases h with
      | mapEntry hk hv => rw [bare, bare, (same_iff k _).mp hk, (same_iff v _).mp hv]
    · intro h
      cases u <;> simp only [bare, reduceCtorEq, mapEntry.injEq] at h
      exact .mapEntry ((same_iff k _).mpr h.1) ((same_iff v _).mpr h.2)
  | .function ps r, u => by
    constructor
    · intro h
      cases h with
      | function hps hr =>
          rw [bare, bare, (same_iff r _).mp hr, bareAll_eq, bareAll_eq,
            (forall₂_same_iff ps _).mp hps]
    · intro h
      cases u <;> simp only [bare, reduceCtorEq, function.injEq, bareAll_eq] at h
      exact .function ((forall₂_same_iff ps _).mpr h.1) ((same_iff r _).mpr h.2)
  | .intersection cs, u => by
    constructor
    · intro h
      cases h with
      | intersection hcs =>
          rw [bare, bare, bareAll_eq, bareAll_eq, (forall₂_same_iff cs _).mp hcs]
    · intro h
      cases u <;> simp only [bare, reduceCtorEq, intersection.injEq, bareAll_eq] at h
      exact .intersection ((forall₂_same_iff cs _).mpr h)
  | .classType c, u => by
    constructor
    · intro h
      cases h with
      | classType h => rw [bare, bare, h]
    · intro h
      cases u <;> simp only [bare, reduceCtorEq, classType.injEq, ClassType.mk.injEq] at h
      exact .classType h.1

theorem forall₂_same_iff : (ts us : List Ty) →
    (List.Forall₂ Same ts us ↔ ts.map bare = us.map bare)
  | [], us => by cases us <;> simp
  | t :: ts, [] => by simp
  | t :: ts, u :: us => by simp [same_iff t u, forall₂_same_iff ts us]

end

end Zensight.Ty
